import Mathlib
import Hocon.Proofs.Fieldwise
import Hocon.Proofs.Outcomes
import Hocon.Proofs.Passage

/-!
# What hides the layers of a merge

A resolved value that is no object hides whatever it falls back to.  So a merge comes to such a
value as soon as its upper layers do, and nothing further down can change that.  The lower layers
are resolved all the same, and where one of them fails, the merge fails with it
(`Resolution.resolve_covering`).
-/

namespace Hocon.Resolution

open Value

variable {s : Setting} {c : Surroundings} {whole v : Value} {node : Option Nat}
  {along : Option Path} {layer : Nat} {above : Option Value} {upper lower : List Value}

/-! ### Layers in two parts -/

/-- Resolves one layer of a merge, which is open at it; it may look back at the layers below. -/
def resolveLayer (s : Setting) (c : Surroundings) (whole : Value) (node : Option Nat)
    (along : Option Path) (layer : Nat) (v : Value) (below : List Value) : Step (Option Value) := do
  if v.isMerge then throw (.error (.broken (.nestedMerge whole)))
  else
    let base ← if v.isPending then reserve below else pure 0
    resolve s (c.opening node layer base v) v along

/-- Resolves the layers `upper` from number `layer` on and puts each beneath `above`, where more
layers are further down. -/
def resolveUpper (s : Setting) (c : Surroundings) (whole : Value) (node : Option Nat)
    (along : Option Path) (lower : List Value) (layer : Nat) (above : Option Value) :
    List Value → Step (Option Value)
  | [] => return above
  | v :: upper => do
    let result ← resolveLayer s c whole node along layer v (upper ++ lower)
    resolveUpper s c whole node along lower (layer + 1) (Entries.overlay above result) upper

theorem resolveLayers_cons (v : Value) (below : List Value) :
    resolveLayers s c whole node along layer above (v :: below)
      = resolveLayer s c whole node along layer v below >>= fun result =>
        resolveLayers s c whole node along (layer + 1) (Entries.overlay above result) below := by
  cases hv : v.isMerge with
  | true =>
    obtain ⟨p, k, ls, rfl⟩ : ∃ p k ls, v = .merge p k ls := by cases v <;> simp_all [isMerge]
    rw [resolveLayers, resolveLayer]
    simp only [hv, if_true]
    rfl
  | false =>
    rw [resolveLayers, resolveLayer]
    swap
    · rintro p k ls rfl
      cases hv
    have next (result : Option Value) :=
      congrArg (resolveLayers s c whole node along (layer + 1) · below)
        (Contract.overlay_eq above result)
    simp only [hv, Bool.false_eq_true, if_false]
    split
    · simp only [bind_assoc]
      exact congrArg (reserve below >>= ·) (funext fun base =>
        congrArg (resolve s (c.opening node layer base v) v along >>= ·) (funext next))
    · simp only [pure_bind]
      exact congrArg (resolve s (c.opening node layer 0 v) v along >>= ·) (funext next)

/-- The layers of a merge come to what the upper ones come to with the lower ones beneath it, in
Kleisli form. -/
theorem resolveLayers_append (above : Option Value) (upper lower : List Value) :
    resolveLayers s c whole node along layer above (upper ++ lower)
      = resolveUpper s c whole node along lower layer above upper >>= fun r =>
        resolveLayers s c whole node along (layer + upper.length) r lower := by
  induction upper generalizing layer above with
  | nil =>
    rw [resolveUpper, pure_bind]
    rfl
  | cons v upper ih =>
    rw [List.cons_append, resolveLayers_cons, resolveUpper, bind_assoc]
    congr 1
    funext result
    rw [ih, List.length_cons, Nat.add_right_comm, Nat.add_assoc]

/-! ### Layers that are covered -/

/-- Resolves layers one after the other, without merging what they come to. -/
def resolveEach (s : Setting) (c : Surroundings) (whole : Value) (node : Option Nat)
    (along : Option Path) (layer : Nat) : List Value → Step (List (Option Value))
  | [] => return []
  | v :: below => do
    let result ← resolveLayer s c whole node along layer v below
    return result :: (← resolveEach s c whole node along (layer + 1) below)

theorem overlay_of_ignoresFallbacks (h : v.ignoresFallbacks = true) (r : Option Value) :
    Entries.overlay (some v) r = some v := by
  cases r with
  | none => rfl
  | some w => exact congrArg some (withFallback_of_ignoresFallbacks h w)

/-- Beneath what ignores fallbacks, resolving layers has no effect but on the memory. -/
theorem resolveLayers_of_ignoresFallbacks (h : v.ignoresFallbacks = true) (lower : List Value) :
    resolveLayers s c whole node along layer (some v) lower
      = resolveEach s c whole node along layer lower >>= fun _ => pure (some v) := by
  induction lower generalizing layer with
  | nil => rw [resolveLayers, resolveEach, pure_bind]
  | cons w lower ih =>
    rw [resolveLayers_cons, resolveEach, bind_assoc]
    congr 1
    funext result
    rw [overlay_of_ignoresFallbacks h, ih, bind_assoc]
    rfl

/-- The layers of a merge from the top down to some layer come to `v`, a resolved value that is no
object, where the merge is not open and has no result so far. -/
structure Covers (s : Setting) (c : Surroundings) (whole : Value) (along : Option Path) (m : Memory)
    (upper lower : List Value) (v : Value) (m₁ : Memory) : Prop where
  stacked : ∃ p kind, whole = .merge p kind (upper ++ lower)
  unknown : m.recall? whole along = none
  closed : c.showing? whole = none
  above : (resolveUpper s c whole whole.mark along lower 0 none upper).run.run m
    = (.ok (some v), m₁)
  resolved : v.isResolved = true
  notObject : v.fields? = none

variable {m m₁ : Memory}

/-- What is covered is resolved, but nothing else comes of it. -/
theorem Covers.resolveNode_run (h : Covers s c whole along m upper lower v m₁) :
    (resolveNode s c whole along).run.run m
      = (resolveEach s c whole whole.mark along upper.length lower >>= fun _ =>
          some <$> renew v).run.run m₁ := by
  obtain ⟨p, kind, rfl⟩ := h.stacked
  have hides := ignoresFallbacks_of_isResolved h.resolved h.notObject
  have above : (resolveUpper s c (.merge p kind (upper ++ lower)) p.mark along lower 0 none
      upper).run.run m = (.ok (some v), m₁) := h.above
  have layers : (resolveLayers s c (.merge p kind (upper ++ lower)) p.mark along 0 none
      (upper ++ lower)).run.run m
      = (resolveEach s c (.merge p kind (upper ++ lower)) p.mark along upper.length lower
          >>= fun _ => pure (some v)).run.run m₁ := by
    rw [resolveLayers_append, run_bind_of_ok above, resolveLayers_of_ignoresFallbacks hides,
      Nat.zero_add]
  show _ = (resolveEach s c (.merge p kind (upper ++ lower)) p.mark along upper.length lower >>=
    fun _ => some <$> renew v).run.run m₁
  rw [resolveNode]
  rcases each : (resolveEach s c (.merge p kind (upper ++ lower)) p.mark along upper.length
    lower).run.run m₁ with ⟨f | results, m₂⟩
  · rw [run_bind_of_error each] at layers ⊢
    rw [run_bind_of_error layers]
  · rw [run_bind_of_ok each] at layers ⊢
    rw [run_bind_of_ok layers, map_eq_pure_bind]

/-- **What covers the layers below it is what a merge comes to**, whatever these layers come to.
They are resolved all the same, so the merge fails where one of them fails. -/
theorem resolve_covering (h : Covers s c whole along m upper lower v m₁) :
    match (resolveEach s c whole whole.mark along upper.length lower).run.run m₁ with
    | (.ok _, m₂) => (resolve s c whole along).run.run m
        = (.ok (some (v.markFrom m₂.next).1),
          { m₂ with next := (v.markFrom m₂.next).2 }.remember whole none (v.markFrom m₂.next).1)
    | (.error f, m₂) => (resolve s c whole along).run.run m = (.error f, m₂) := by
  rw [resolve_run_of_closed h.unknown h.closed]
  have inside := h.resolveNode_run
  split
  · next results m₂ each =>
    rw [run_bind_of_ok each] at inside
    have named : (resolveNode s c whole along).run.run m
        = (.ok (some (v.markFrom m₂.next).1), { m₂ with next := (v.markFrom m₂.next).2 }) := inside
    rw [run_bind_of_ok named]
    unfold keepResult keep
    simp only [isResolved_markFrom_iff.2 h.resolved, if_true]
    rfl
  · next f m₂ each =>
    rw [run_bind_of_error each] at inside
    rw [run_bind_of_error inside]

/-! ### Documents -/

/-- The surroundings in which a tree is resolved. -/
def surroundingsOf (root : Value) : Surroundings :=
  { available := root.referenceMarks ++ root.referenceMarks }

/-- At the start there is no merge that is open or has a result. -/
theorem Covers.of_start (root : Value) (next : Nat) (p : Provenance) (kind : MergeKind)
    (upper lower : List Value)
    (comes : ((resolveUpper (settingOf {} root next) (surroundingsOf root)
        (.merge p kind (upper ++ lower)) p.mark none lower 0 none upper).run.run
        (startOf {} next)).1.toOption.any
      (·.any fun v => v.isResolved && v.fields?.isNone) = true) :
    ∃ v m₁, Covers (settingOf {} root next) (surroundingsOf root) (.merge p kind (upper ++ lower))
      none (startOf {} next) upper lower v m₁ := by
  rcases above : (resolveUpper (settingOf {} root next) (surroundingsOf root)
    (.merge p kind (upper ++ lower)) p.mark none lower 0 none upper).run.run (startOf {} next)
    with ⟨f | result | v, m₁⟩
  · rw [above] at comes
    cases comes
  · rw [above] at comes
    cases comes
  · rw [above] at comes
    obtain ⟨resolved, notObject⟩ := (Bool.and_eq_true _ _).mp comes
    refine ⟨v, m₁, ⟨p, kind, rfl⟩, ?_, rfl, above, resolved, Option.isNone_iff_eq_none.1 notObject⟩
    unfold Memory.recall?
    cases (merge p kind (upper ++ lower)).mark <;> rfl

/-- A reference to nothing below a number. -/
theorem resolve_covering_example :
    let root := marked (object onLine false [("a", .merge onLine .value
      [lineRef (.ofKey "x") false, lineRef (.ofKey "none") true]), ("x", lineNumber 5)]) 0
    ∃ whole upper lower v m₁ w m₂, root.1.peek? ["a"] = some whole
      ∧ Covers (settingOf {} root.1 root.2) (surroundingsOf root.1) whole none (startOf {} root.2)
        upper lower v m₁
      ∧ (resolve (settingOf {} root.1 root.2) (surroundingsOf root.1) whole none).run.run
        (startOf {} root.2) = (.ok (some w), m₂)
      ∧ w.equals (lineNumber 5) = true := by
  intro root
  obtain ⟨v, m₁, covers⟩ := Covers.of_start root.1 root.2 (onLine.withMark 1) .value
    [((lineRef (.ofKey "x") false).markFrom 2).1] [((lineRef (.ofKey "none") true).markFrom 3).1]
    (by cbv)
  have comes : ((resolve (settingOf {} root.1 root.2) (surroundingsOf root.1)
      (.merge (onLine.withMark 1) .value [((lineRef (.ofKey "x") false).markFrom 2).1,
        ((lineRef (.ofKey "none") true).markFrom 3).1]) none).run.run
      (startOf {} root.2)).1.toOption.any (·.any (·.equals (lineNumber 5))) = true := by cbv
  have resolves := resolve_covering covers
  rw [List.cons_append, List.nil_append] at resolves
  split at resolves
  · rw [resolves] at comes
    exact ⟨_, _, _, v, m₁, _, _, rfl, covers, resolves, comes⟩
  · rw [resolves] at comes
    cases comes

/-- A text in which a merge fails although its upper layers come to a value that hides the others.
-/
def FailureShows (text key : String) : Prop :=
  ∃ (root whole : Value) (upper lower : List Value) (v : Value) (m₁ : Memory),
    ((parseText {} {} text).run.run []).1 = .ok root
      ∧ (marked root 0).1.peek? [key] = some whole
      ∧ Covers (settingOf {} (marked root 0).1 (marked root 0).2) (surroundingsOf (marked root 0).1)
          whole none (startOf {} (marked root 0).2) upper lower v m₁
      ∧ ¬ ∃ r, root.resolve {} = .ok r

theorem FailureShows.of_fields {text key : String} {p : Provenance} {kind : MergeKind}
    (fs : Entries Value) (upper lower : List Value)
    (read : (Document.readAlone text).toOption = some (.object onLine false fs))
    (stacked : (marked (.object onLine false fs) 0).1.peek? [key]
      = some (.merge p kind (upper ++ lower)))
    (comes : ((resolveUpper (settingOf {} (marked (.object onLine false fs) 0).1
          (marked (.object onLine false fs) 0).2)
        (surroundingsOf (marked (.object onLine false fs) 0).1)
        (.merge p kind (upper ++ lower)) p.mark none lower 0 none upper).run.run
        (startOf {} (marked (.object onLine false fs) 0).2)).1.toOption.any
      (·.any fun v => v.isResolved && v.fields?.isNone) = true)
    (fails : ((object onLine false fs).resolve {}).toOption.isNone = true) :
    FailureShows text key := by
  obtain ⟨v, m₁, covers⟩ := Covers.of_start _ _ p kind upper lower comes
  refine ⟨_, _, upper, lower, v, m₁, Document.parsed_of_readAlone {} read rfl, stacked, covers, ?_⟩
  rintro ⟨r, hr⟩
  rw [hr] at fails
  cases fails

/-- A reference without a target, and one in a cycle, fail below a number. -/
theorem resolve_covering_counterexample :
    FailureShows "a = $\x7bnone\x7d, a = $\x7bx\x7d, x = 5" "a"
      ∧ FailureShows "a = $\x7bc\x7d, a = $\x7bx\x7d, x = 5, c = $\x7bc\x7d" "a" := by
  refine ⟨?missing, ?cycle⟩
  case missing =>
    refine .of_fields [("a", .merge onLine .value [lineRef (.ofKey "x") false,
      lineRef (.ofKey "none") false]), ("x", lineNumber 5)]
      [((lineRef (.ofKey "x") false).markFrom 2).1] [((lineRef (.ofKey "none") false).markFrom 3).1]
      (by decide +kernel) rfl (by cbv) (by cbv)
  case cycle =>
    refine .of_fields [("a", .merge onLine .value [lineRef (.ofKey "x") false,
      lineRef (.ofKey "c") false]), ("x", lineNumber 5), ("c", lineRef (.ofKey "c") false)]
      [((lineRef (.ofKey "x") false).markFrom 2).1] [((lineRef (.ofKey "c") false).markFrom 3).1]
      (by decide +kernel) rfl (by cbv) (by cbv)

end Hocon.Resolution
