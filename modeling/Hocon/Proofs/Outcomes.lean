import Mathlib
import Hocon.Proofs.Confluence
import Hocon.Proofs.Including
import Hocon.Proofs.Layers
import Hocon.Proofs.RoundTrip

/-!
# Outcomes of resolutions

The order of the fields of a document is not part of what the document says, and neither is which
of its references is resolved first.  In a tame tree neither of them shows: with its fields in
another order the tree resolves to an equal one (`Value.resolve_alike`), and a reference that is
resolved on its own gives what the whole resolution puts at its path
(`Value.resolveIn_of_peek?`).

One thing shows even then.  A merge that is looked through along a path need not resolve all of
its layers, and what it does not resolve cannot fail.  So two resolutions may differ in whether
they succeed, if a node that fails is inside of a merge (`Value.HidesFailure`).
-/

namespace Hocon

namespace Value

variable {known : List String → Content} {root root' v w : Value}

/-! ### Equal trees -/

/-- Whatever is the same as a well formed tree echoes it. -/
theorem Same.echoes {manner : Manner} (h : Same w v) (wf : v.WellFormed manner) : w.Echoes v := by
  induction h with
  | null p q => exact .null p q
  | bool p q b => exact .bool p q b
  | number p q n t => exact .number p q n t
  | string p q t quoted => exact .string p q t quoted quoted
  | object p q closed keys _ ih =>
    exact .object p q closed closed wf.nodup keys fun k x y hx hy => ih k x y hx hy (wf.field hy)
  | list p q length _ ih =>
    exact .list p q length fun i x y hx hy =>
      ih i x y hx hy (wf.parts y (List.mem_of_getElem? hy))

/-- Resolved trees that hold the same are equal. -/
theorem equals_of_content_eq (wv : v.WellFormed .spelled) (rv : v.isResolved = true)
    (ww : w.WellFormed .spelled) (rw : w.isResolved = true)
    (h : v.content known = w.content known) : v.equals w = true :=
  (((Final.of_wellFormed wv rv).same_of_content_eq known (.of_wellFormed ww rw) h).echoes ww).equals
    (fun _ _ => id) ww

/-! ### Outcomes -/

end Value

/-- Two outcomes that are equal trees or two errors.  For a `reason` one of them may be an error
and the other not. -/
inductive Agreeing (reason : Prop) : Except Error Value → Except Error Value → Prop
  | trees {r r' : Value} (equal : r.equals r' = true) : Agreeing reason (.ok r) (.ok r')
  | errors (e e' : Error) : Agreeing reason (.error e) (.error e')
  | failing (e : Error) (r : Value) (h : reason) : Agreeing reason (.error e) (.ok r)
  | succeeding (r : Value) (e : Error) (h : reason) : Agreeing reason (.ok r) (.error e)

/-- Whether two outcomes are equal trees or two errors. -/
def agree : Except Error Value → Except Error Value → Bool
  | .ok r, .ok r' => r.equals r'
  | .error _, .error _ => true
  | _, _ => false

theorem Agreeing.agree {x y : Except Error Value} (h : Agreeing False x y) : agree x y = true := by
  cases h with
  | trees equal => exact equal
  | errors => rfl
  | failing _ _ h | succeeding _ _ h => exact h.elim

namespace Value

variable {known : List String → Content} {root root' v w : Value}

/-- Where all stands in a text of one line. -/
def onLine : Provenance := { origin := (Origin.named "String").atLine 1 }

/-- A reference in such a text. -/
def lineRef (path : Path) (optional : Bool) : Value :=
  .ofReference onLine.origin { path, optional }

/-- A whole number in such a text. -/
def lineNumber (n : Nat) : Value := .number onLine (.whole (.ofNat n)) (some (toString n))

/-- Two texts with the same fields in another order, of which the outcomes do not agree. -/
def OrderShows (text text' : String) : Prop :=
  ∃ root root' : Value, ((parseText {} {} text).run.run []).1 = .ok root
    ∧ ((parseText {} {} text').run.run []).1 = .ok root' ∧ root.Alike root'
    ∧ ¬ Agreeing False (root.resolve {}) (root'.resolve {})

theorem OrderShows.of_fields {text text' : String} (fs gs : Entries Value)
    (read : (Document.readAlone text).toOption = some (.object onLine false fs))
    (read' : (Document.readAlone text').toOption = some (.object onLine false gs))
    (nodup : (Entries.keys fs).Nodup) (perm : fs.Perm gs)
    (differ : agree ((object onLine false fs).resolve {}) ((object onLine false gs).resolve {})
      = false) : OrderShows text text' := by
  refine ⟨_, _, Document.parsed_of_readAlone {} read rfl, Document.parsed_of_readAlone {} read' rfl,
    .of_perm _ _ nodup perm, fun h => ?_⟩
  rw [h.agree] at differ
  cases differ

/-- A document with a merge of an object and a reference to another one. -/
def layered : Entries Value :=
  [("a", .object onLine false [("x", lineRef (.ofKey "c") false)]),
    ("b", .merge onLine .value
      [lineRef (.ofKey "a") false, .object onLine false [("y", lineNumber 2)]]),
    ("c", lineNumber 1)]

theorem parsed_layered : (object onLine false layered).Parsed :=
  .text {} (o := {}) trivial "a = \x7bx: $\x7bc\x7d\x7d, b = \x7by: 2\x7d, b = $\x7ba\x7d, c = 1"
    (Document.parsed_of_readAlone {} (by decide +kernel) rfl)

/-- A text that is resolved, and of which a reference on its own does not give what is there. -/
def LookupShows (text : String) (path : Path) : Prop :=
  ∃ root r v : Value, ((parseText {} {} text).run.run []).1 = .ok root
    ∧ root.resolve {} = .ok r ∧ r.peek? path.keys = some v
    ∧ ¬ ∃ v', (lineRef path false).resolveIn root {} = .ok v' ∧ v'.equals v = true

theorem LookupShows.of_fields {text : String} {path : Path} (fs : Entries Value)
    (read : (Document.readAlone text).toOption = some (.object onLine false fs))
    (differ : ((object onLine false fs).resolve {}).toOption.any (fun r =>
      (r.peek? path.keys).any fun v => !((lineRef path false).resolveIn
        (object onLine false fs) {}).toOption.any (·.equals v)) = true) :
    LookupShows text path := by
  cases hr : (object onLine false fs).resolve {} with
  | error e =>
    rw [hr] at differ
    cases differ
  | ok r =>
    simp only [hr, Except.toOption, Option.any_some] at differ
    cases hv : r.peek? path.keys with
    | none => simp [hv] at differ
    | some v =>
      refine ⟨_, r, v, Document.parsed_of_readAlone {} read rfl, hr, hv, ?_⟩
      rintro ⟨v', single, equal⟩
      simp [hv, single, equal] at differ

end Value

end Hocon
