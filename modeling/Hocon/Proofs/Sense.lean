import Hocon.Proofs.Appending
import Hocon.Proofs.Phrases
import Hocon.Proofs.Relabelling

/-!
# What phrases mean

The tree of a document depends on the phrase that it is, and on what its include statements are
answered.  `Script.sense` says what the tree is, without a word about tokens; where things were
written plays no part.  Whatever is written as a phrase is read as what that phrase means
(`Document.follows_readRoot`): a reading and the sense of the phrase give the same tree and ask for
the same documents, or both fail.
-/

namespace Hocon

open Value Document

/-! ### The sense of a phrase -/

/-- The path of a key at a place. -/
def Path.under (place : List String) (key : Path) : Path :=
  match ofKeys? place with
  | some lead => key.prepend lead
  | none => key

/-- The value that neighbours are joined to. -/
def joinedValue (pieces : List Value) : Loading Value :=
  match concatenate pieces with
  | .ok (some v) => pure v
  | .ok none => throw (.broken .appendedNothing)
  | .error e => throw e

/-- The value behind what a key held before, or as it is. -/
def grownValue (grows : Bool) (target : Path) (v : Value) : Loading Value :=
  if grows then
    joinedValue [.ofReference v.origin { path := target, optional := true }, .ofItems v.origin [v]]
  else pure v

/-- A value at a key, put over the fields so far. -/
def definedFields (place : List String) (fields : Entries Value) (key : Path) (grows : Bool)
    (v : Value) : Loading (Entries Value) := do
  let v ← grownValue grows (key.under place) v
  return includeFields fields [(key.first, nest v key.rest)]

/-- The fields of an included document, put over others. -/
def includedFields (answer : IncludeRequest → Loading Value) (place : List String)
    (fields : Entries Value) (request : IncludeRequest) : Loading (Entries Value) := do
  let v ← answer request
  let v := match Path.ofKeys? place with
    | some place => v.relocate place
    | none => v
  match v.fields? with
  | some more => return includeFields fields more
  | none => throw (.notIncluded (mergedOrigin []) (.notAnObject request.name))

mutual

/-- The value of a term at a place. -/
def Term.sense (answer : IncludeRequest → Loading Value) (place : List String) :
    Term → Loading Value
  | .literal literal => return literalValue (mergedOrigin []) literal
  | .bare text => return .bareText (mergedOrigin []) text
  | .reference target => return .ofReference (mergedOrigin []) target
  | .object body => do return .ofFields (mergedOrigin []) (← body.sense answer place [])
  | .list rows => do return .ofItems (mergedOrigin []) (← rows.sense answer place)

/-- The values of terms beside each other. -/
def Terms.sense (answer : IncludeRequest → Loading Value) (place : List String) :
    Terms → Loading (List Value)
  | .nil => return []
  | .cons term terms => do
    let v ← term.sense answer place
    let vs ← terms.sense answer place
    return v :: vs

/-- The value of terms that make up one. -/
def Row.sense (answer : IncludeRequest → Loading Value) (place : List String) : Row → Loading Value
  | .mk term terms => do
    let v ← term.sense answer place
    let vs ← terms.sense answer place
    joinedValue (v :: vs)

/-- The items of a list. -/
def Rows.sense (answer : IncludeRequest → Loading Value) (place : List String) :
    Rows → Loading (List Value)
  | .nil => return []
  | .cons row rows => do
    let v ← row.sense answer place
    let vs ← rows.sense answer place
    return v :: vs

/-- The fields over earlier ones. -/
def Body.sense (answer : IncludeRequest → Loading Value) (place : List String)
    (fields : Entries Value) : Body → Loading (Entries Value)
  | .nil => return fields
  | .field key grows row rest => do
    let v ← row.sense answer (place ++ key.keys)
    let fields ← definedFields place fields key grows v
    rest.sense answer place fields
  | .inclusion request rest => do
    let fields ← includedFields answer place fields request
    rest.sense answer place fields

end

/-- The tree of a document. -/
def Script.sense (answer : IncludeRequest → Loading Value) : Script → Loading Value
  | term t => t.sense answer []
  | body b => do return .ofFields (mergedOrigin []) (← b.sense answer [] [])

/-! ### Computations that follow each other -/

/-- Two outcomes with the same record of includes: related results, or failures. -/
inductive SameOutcomes {α β : Type} (R : α → β → Prop) :
    Except Error α × List IncludeRecord → Except Error β × List IncludeRecord → Prop
  | ok {a : α} {b : β} (h : R a b) (m : List IncludeRecord) : SameOutcomes R (.ok a, m) (.ok b, m)
  | error (e e' : Error) (m : List IncludeRecord) : SameOutcomes R (.error e, m) (.error e', m)

/-- Two computations that give related results and keep the same record, or fail both. -/
def Follows {α β : Type} (R : α → β → Prop) (x : Loading α) (y : Loading β) : Prop :=
  ∀ m, SameOutcomes R (x.run.run m) (y.run.run m)

namespace Follows

variable {α β γ δ : Type} {R : α → β → Prop} {S : γ → δ → Prop} {x : Loading α} {y : Loading β}

protected theorem pure {a : α} {b : β} (h : R a b) : Follows R (pure a) (pure b) := fun m => .ok h m

protected theorem throw (e e' : Error) : Follows R (throw e) (throw e') := fun m => .error e e' m

protected theorem bind {f : α → Loading γ} {g : β → Loading δ} (h : Follows R x y)
    (next : ∀ a b, R a b → Follows S (f a) (g b)) : Follows S (x >>= f) (y >>= g) := by
  intro m
  simp only [ExceptT.run_bind, StateT.run_bind]
  have here := h m
  generalize x.run.run m = p at here ⊢
  generalize y.run.run m = q at here ⊢
  cases here with
  | error e e' m' => exact .error e e' m'
  | ok related m' => exact next _ _ related m'

/-- A failure that is looked at remains one. -/
theorem attempt {f : Except Error α → Loading γ} {g : β → Loading δ} (h : Follows R x y)
    (error : ∀ e, ∃ e', f (.error e) = throw e')
    (next : ∀ a b, R a b → Follows S (f (.ok a)) (g b)) :
    Follows S (liftM (x.run : StateM (List IncludeRecord) (Except Error α)) >>= f) (y >>= g) := by
  intro m
  show SameOutcomes S ((f (x.run.run m).1).run.run (x.run.run m).2) ((y >>= g).run.run m)
  simp only [ExceptT.run_bind, StateT.run_bind]
  have here := h m
  generalize x.run.run m = p at here ⊢
  generalize y.run.run m = q at here ⊢
  cases here with
  | error e e' m' =>
    obtain ⟨e'', eq⟩ := error e
    show SameOutcomes S ((f (.error e)).run.run m') _
    rw [eq]
    exact .error e'' e' m'
  | ok related m' => exact next _ _ related m'

theorem mono {R' : α → β → Prop} (h : Follows R x y) (le : ∀ a b, R a b → R' a b) :
    Follows R' x y := by
  intro m
  have here := h m
  generalize x.run.run m = p at here ⊢
  generalize y.run.run m = q at here ⊢
  cases here with
  | error e e' m' => exact .error e e' m'
  | ok related m' => exact .ok (le _ _ related) m'

/-- The same computation gives the same. -/
theorem same {R : α → α → Prop} (h : ∀ a, R a a) (x : Loading α) : Follows R x x := by
  intro m
  generalize x.run.run m = p
  obtain ⟨e | a, m'⟩ := p
  · exact .error e e m'
  · exact .ok (h a) m'

/-- The same computation gives the same tree. -/
theorem sameTree (x : Loading Value) : Follows SameTree x x := same (R := SameTree) (fun _ => rfl) x

/-- Where the one gives a result, so does the other. -/
theorem exists_ok (h : Follows R x y) {m m' : List IncludeRecord} {a : α}
    (run : x.run.run m = (.ok a, m')) : ∃ b, y.run.run m = (.ok b, m') ∧ R a b := by
  have here := h m
  rw [run] at here
  generalize y.run.run m = q at here ⊢
  cases here with
  | ok related => exact ⟨_, rfl, related⟩

protected theorem symm (h : Follows R x y) : Follows (fun b a => R a b) y x := by
  intro m
  have here := h m
  generalize x.run.run m = p at here ⊢
  generalize y.run.run m = q at here ⊢
  cases here with
  | error e e' m' => exact .error e' e m'
  | ok related m' => exact SameOutcomes.ok (R := fun b a => R a b) related m'

theorem trans {γ : Type} {T : β → γ → Prop} {U : α → γ → Prop} {z : Loading γ} (h : Follows R x y)
    (h' : Follows T y z) (compose : ∀ a b c, R a b → T b c → U a c) : Follows U x z := by
  intro m
  have here := h m
  have there := h' m
  generalize x.run.run m = p at here ⊢
  generalize y.run.run m = q at here there
  generalize z.run.run m = r at there ⊢
  cases here with
  | error e e' m' =>
    cases there with
    | error _ e'' => exact .error e e'' m'
  | ok related m' =>
    cases there with
    | ok related' => exact .ok (compose _ _ _ related related') m'

end Follows

/-! ### The same tree, done the same to -/

section SameTrees

variable {v w : Value} {xs ys : List Value} {fs gs fs' gs' : Entries Value}

theorem Value.SameTree.withComments (h : v.SameTree w) (comments : List String) :
    (withComments v comments).SameTree w := by
  unfold Document.withComments
  split
  · exact h
  · exact h.withProv _

/-- The same roots are refused. -/
theorem Value.SameTree.checkRoot {v w : Value} (h : v.SameTree w) (origin : Origin) :
    Follows SameTree (liftM (Document.checkRoot origin v)) (liftM (Document.checkRoot origin w)) := by
  have both : v.fields?.isSome = w.fields?.isSome := by
    simpa only [Option.isSome_map] using congrArg Option.isSome h.fields?
  unfold Document.checkRoot
  rw [both]
  split
  · exact .pure h
  · exact .throw _ _

theorem Value.SameTrees.joinedValue (h : SameTrees xs ys) :
    Follows SameTree (joinedValue xs) (joinedValue ys) := by
  have both := h.concatenate
  unfold Hocon.joinedValue
  generalize Value.concatenate xs = x at both ⊢
  generalize Value.concatenate ys = y at both ⊢
  cases x with
  | error e =>
    cases y with
    | error e' => exact .throw e e'
    | ok => cases both
  | ok u =>
    cases y with
    | error => cases both
    | ok u' =>
      cases u with
      | none =>
        cases u' with
        | none => exact .throw _ _
        | some => cases both
      | some v =>
        cases u' with
        | none => cases both
        | some w => exact .pure (Option.some.inj (Option.some.inj both))

theorem Value.SameTree.grownValue (h : v.SameTree w) (grows : Bool) (target : Path) :
    Follows SameTree (grownValue grows target v) (grownValue grows target w) := by
  unfold Hocon.grownValue
  split
  · refine SameTrees.joinedValue ?_
    have items : SameTrees [v] [w] := congrArg (fun x => [x]) h
    exact congrArg (fun x => [_, x]) (items.ofItems v.origin w.origin)
  · exact .pure h

theorem Value.SameTree.nest (h : v.SameTree w) (keys : List String) :
    (nest v keys).SameTree (nest w keys) := by
  induction keys with
  | nil => exact h
  | cons key keys ih =>
    have field : SameEntries [(key, Document.nest v keys)] [(key, Document.nest w keys)] :=
      congrArg (fun x => [(key, x)]) ih
    exact field.ofFields _ _

theorem Value.SameEntries.includeField (h : SameEntries fs gs) (hv : v.SameTree w) (key : String) :
    SameEntries (includeFields fs [(key, v)]) (includeFields gs [(key, w)]) := by
  have earlier : (Entries.get? fs key).map unplaced = (Entries.get? gs key).map unplaced := by
    have both := congrArg (Entries.get? · key) h
    simpa only [Entries.get?_mapValues] using both
  have put {x y : Value} (hxy : x.SameTree y) :
      SameEntries (Entries.put fs key x) (Entries.put gs key y) := by
    show Entries.mapValues _ _ = Entries.mapValues _ _
    rw [← Entries.put_mapValues, ← Entries.put_mapValues, h, show x.unplaced = y.unplaced from hxy]
  show SameEntries (Entries.put fs key _) (Entries.put gs key _)
  generalize Entries.get? fs key = a at earlier ⊢
  generalize Entries.get? gs key = b at earlier ⊢
  cases a with
  | none =>
    cases b with
    | none => exact put hv
    | some => cases earlier
  | some x =>
    cases b with
    | none => cases earlier
    | some y => exact put (hv.withFallback (Option.some.inj earlier))

theorem Value.SameEntries.includeFields (h : SameEntries fs gs) (more : SameEntries fs' gs') :
    SameEntries (includeFields fs fs') (includeFields gs gs') := by
  induction fs' generalizing gs' fs gs with
  | nil =>
    cases gs' with
    | nil => exact h
    | cons => cases more
  | cons f fs' ih =>
    cases gs' with
    | nil => cases more
    | cons g gs' =>
      obtain ⟨key, v⟩ := f
      obtain ⟨key', w⟩ := g
      obtain ⟨head, tail⟩ := List.cons.inj more
      obtain ⟨rfl, same⟩ := Prod.mk.inj head
      show SameEntries (Document.includeFields (Document.includeFields fs [(key, v)]) fs')
        (Document.includeFields (Document.includeFields gs [(key, w)]) gs')
      exact ih (h.includeField same key) tail

theorem Value.SameEntries.definedFields (h : SameEntries fs gs) (hv : v.SameTree w)
    (place : List String) (key : Path) (grows : Bool) :
    Follows SameEntries (definedFields place fs key grows v) (definedFields place gs key grows w) :=
  (hv.grownValue grows _).bind fun _ _ same => .pure (h.includeField (same.nest _) _)

theorem Value.SameEntries.includedFields (h : SameEntries fs gs)
    (answer : IncludeRequest → Loading Value) (place : List String) (request : IncludeRequest) :
    Follows SameEntries (includedFields answer place fs request)
      (includedFields answer place gs request) := by
  refine Follows.bind (Follows.same (R := Eq) (fun _ => rfl) _) ?_
  rintro v _ rfl
  dsimp only
  split
  · exact .pure (h.includeFields rfl)
  · exact .throw _ _

end SameTrees

end Hocon
