import Hocon.Proofs.Contract
import Hocon.Proofs.Pairings

/-!
# Two runs in step

A document is resolved on its own, and in another run as it was moved below a place.  The second
root is a chain of objects with one field each that leads to the moved document (`Transfer`).
`InStep` says of the memories of both runs that they know the same about twins, and that whatever
is known about the document on its own is known about each node on the way to the moved one.
`Together` says of two steps that they leave the runs in step and end alike.
-/

namespace Hocon

/-! ### The way to a document -/

theorem Path.ext_keys {p q : Path} (h : p.keys = q.keys) : p = q := by
  cases p
  cases q
  cases h
  rfl

namespace Value

/-- A value below keys, each of them the only one of an open object. -/
inductive Below : List String → Value → Value → Prop
  | here (v : Value) : Below [] v v
  | inside {p : Provenance} {key : String} {keys : List String} {v w : Value}
      (rest : Below keys v w) : Below (key :: keys) v (object p false [(key, w)])

theorem Below.isResolved_eq {keys : List String} {v w : Value} (h : Below keys v w) :
    w.isResolved = v.isResolved := by
  induction h with
  | here => rfl
  | inside _ ih =>
    rw [isResolved, fieldsResolved, fieldsResolved, Bool.and_true, ih]

end Value

namespace Resolution

open Value

/-- A part of a document as seen from keys above it. -/
def onto (keys : List String) (along : Option Path) : Option Path :=
  along.bind fun path => Path.ofKeys? (keys ++ path.keys)

@[simp] theorem onto_nil (along : Option Path) : onto [] along = along := by
  cases along <;> rfl

@[simp] theorem onto_none (keys : List String) : onto keys none = none := rfl

theorem onto_some (keys : List String) (path : Path) :
    ∃ path', onto keys (some path) = some path' ∧ path'.keys = keys ++ path.keys := by
  cases keys with
  | nil => exact ⟨path, rfl, rfl⟩
  | cons key keys => exact ⟨⟨key, keys ++ path.keys⟩, rfl, rfl⟩

theorem isSome_onto (keys : List String) (along : Option Path) :
    (onto keys along).isSome = along.isSome := by
  cases along with
  | none => rfl
  | some path =>
    obtain ⟨path', eq, -⟩ := onto_some keys path
    rw [eq]
    rfl

theorem onto_inj {keys : List String} {a b : Option Path} : onto keys a = onto keys b ↔ a = b := by
  refine ⟨fun h => ?_, fun h => h ▸ rfl⟩
  cases a with
  | none =>
    cases b with
    | none => rfl
    | some q => simpa [h.symm] using isSome_onto keys (some q)
  | some p =>
    obtain ⟨p', hp, keys_p⟩ := onto_some keys p
    cases b with
    | none => simpa [h] using isSome_onto keys (some p)
    | some q =>
      obtain ⟨q', hq, keys_q⟩ := onto_some keys q
      rw [hp, hq] at h
      cases h
      rw [Path.ext_keys (List.append_cancel_left (keys_p.symm.trans keys_q))]

/-- On the way to the document the path leads to the one field there is. -/
theorem alongField_onto (key : String) (keys : List String) (along : Option Path) :
    alongField (onto (key :: keys) along) key = some (onto keys along) := by
  cases along with
  | none => rfl
  | some path =>
    obtain ⟨path', eq, hkeys⟩ := onto_some keys path
    rw [eq]
    show (if key = key then (Path.ofKeys? (keys ++ path.keys)).map some else none) = _
    rw [if_pos rfl, ← hkeys, Path.ofKeys?_keys]
    rfl

/-- Looking through the objects on the way. -/
theorem peekThrough_of_below {keys : List String} {v w : Value} (h : Below keys v w)
    (object : v.isObjectValued = true) {path path' : Path} (eq : path'.keys = keys ++ path.keys) :
    w.peekThrough path'.first path'.rest = v.peekThrough path.first path.rest := by
  induction h generalizing path' with
  | here => rw [Path.ext_keys eq]
  | @inside p key keys v w below ih =>
    obtain ⟨first, rest⟩ := path'
    simp only [Path.keys, List.cons_append, List.cons.injEq] at eq
    obtain ⟨rfl, eq⟩ := eq
    have valued : w.isObjectValued = true := by
      cases below with
      | here => exact object
      | inside => rfl
    cases rest with
    | nil => simp at eq
    | cons next rest =>
      have inner : w.peekThrough (Path.mk next rest).first (Path.mk next rest).rest
          = v.peekThrough path.first path.rest := ih object eq
      rw [peekThrough]
      simp only [peekFirst, Entries.get?, if_true, bind, Except.bind, valued]
      exact inner

/-- A document on its own, and where it was moved to. -/
structure Transfer where
  place : Path
  /-- The document on its own. -/
  own : Value
  /-- The mark of the document on its own. -/
  mark : Nat
  /-- The nodes on the way to the moved document, from the root on. -/
  way : Nat → Value
  /-- The mark of the root above the moved document. -/
  base : Nat
  own_mark : own.mark = some mark
  waits : own.isResolved = false
  way_mark : ∀ i, i ≤ place.length → (way i).mark = some (base + i)
  step : ∀ i (h : i < place.length), ∃ p, way i = object p false [(place.keys[i], way (i + 1))]

namespace Transfer

variable (t : Transfer)

/-- The setting in which the document is resolved on its own. -/
def here : Setting := { root := t.own, environment := none, allowUnresolved := false }

/-- The setting in which the moved document is resolved. -/
def there : Setting := { root := t.way 0, environment := none, allowUnresolved := false }

/-- The document where it was moved to. -/
def moved : Value := t.way t.place.length

/-- The keys from a node on the way to the document. -/
def ahead (i : Nat) : List String := t.place.keys.drop i

end Transfer

/-! ### Runs in step -/

/-- Marks of twins. -/
def Joins (W : Pairing) (n k : Nat) : Prop := ∃ v w, W n = some (v, w) ∧ w.mark = some k

/-- A result for the document on its own, and one for a node on the way to the moved one. -/
structure Around (place : Path) (W : Pairing) (keys : List String) (w w' : Value) : Prop where
  object : w.fields?.isSome = true
  inner : ∃ u, Sides place (Twin place W) w u ∧ Below keys u w'

/-- The memories of both runs know the same. -/
structure InStep (t : Transfer) (W : Pairing) (m m' : Memory) : Prop where
  fits : W.Fits (t.mark + 1) (t.base + t.place.length + 1) m.next m'.next
  document : Sides t.place (Twin t.place W) t.own t.moved
  unused : ∀ n, m.next ≤ n → ∀ a, m.find? n a = none
  unused' : ∀ k, m'.next ≤ k → ∀ a, m'.find? k a = none
  memo : ∀ n k, Joins W n k → ∀ a, Option.Rel (Twin t.place W) (m.find? n a) (m'.find? k a)
  way : ∀ i, i ≤ t.place.length → ∀ a, Option.Rel (Around t.place W (t.ahead i))
    (m.find? t.mark a) (m'.find? (t.base + i) (onto (t.ahead i) a))
  -- from the root no path leads elsewhere
  elsewhere : ∀ q : Path, q.first ≠ t.place.first → ∀ w, m'.find? t.base (some q) = some w →
    ∃ x, w.fields? = some [(t.place.first, x)]

/-- Two steps that end alike. -/
inductive Ends {α β : Type} (Q : α → β → Prop) : Except Failure α → Except Failure β → Prop
  | ok {a : α} {b : β} (related : Q a b) : Ends Q (.ok a) (.ok b)
  | cycle (trace trace' : List PathReference) : Ends Q (.error (.cycle trace)) (.error (.cycle trace'))
  | error (e e' : Error) : Ends Q (.error (.error e)) (.error (.error e'))

/-- Two steps that leave the runs in step, in a larger pairing, and end alike. -/
def Together (t : Transfer) (W : Pairing) (m m' : Memory) {α β : Type} (x : Step α) (y : Step β)
    (Q : Pairing → α → β → Prop) : Prop :=
  ∃ W', (∀ i p, W i = some p → W' i = some p) ∧ InStep t W' (x.run.run m).2 (y.run.run m').2
    ∧ Ends (Q W') (x.run.run m).1 (y.run.run m').1

variable {t : Transfer} {W W' : Pairing} {m m' : Memory} {v w v' w' : Value}

namespace Together

variable {α β γ δ : Type} {x : Step α} {y : Step β} {Q : Pairing → α → β → Prop}
  {R : Pairing → γ → δ → Prop}

protected theorem pure {a : α} {b : β} (inStep : InStep t W m m') (h : Q W a b) :
    Together t W m m' (pure a) (pure b) Q := ⟨W, fun _ _ h => h, inStep, .ok h⟩

protected theorem cycle (inStep : InStep t W m m') (trace trace' : List PathReference) :
    Together t W m m' (throw (.cycle trace)) (throw (.cycle trace')) Q :=
  ⟨W, fun _ _ h => h, inStep, .cycle _ _⟩

protected theorem error (inStep : InStep t W m m') (e e' : Error) :
    Together t W m m' (throw (.error e)) (throw (.error e')) Q :=
  ⟨W, fun _ _ h => h, inStep, .error _ _⟩

protected theorem bind {f : α → Step γ} {g : β → Step δ} (h : Together t W m m' x y Q)
    (next : ∀ a b W' m₁ m₁', (∀ i p, W i = some p → W' i = some p) → InStep t W' m₁ m₁' → Q W' a b →
      Together t W' m₁ m₁' (f a) (g b) R) : Together t W m m' (x >>= f) (y >>= g) R := by
  obtain ⟨W', keeps, inStep, ends⟩ := h
  unfold Together
  simp only [ExceptT.run_bind, StateT.run_bind]
  rcases hx : x.run.run m with ⟨r, m₁⟩
  rcases hy : y.run.run m' with ⟨r', m₁'⟩
  rw [hx, hy] at inStep ends
  cases ends with
  | ok related =>
    obtain ⟨W'', keeps', rest⟩ := next _ _ W' m₁ m₁' keeps inStep related
    exact ⟨W'', fun i p hp => keeps' i p (keeps i p hp), rest⟩
  | cycle => exact ⟨W', keeps, inStep, .cycle _ _⟩
  | error => exact ⟨W', keeps, inStep, .error _ _⟩

theorem mono {S : Pairing → α → β → Prop} (h : Together t W m m' x y Q)
    (imp : ∀ W' a b, (∀ i p, W i = some p → W' i = some p) → Q W' a b → S W' a b) :
    Together t W m m' x y S := by
  obtain ⟨W', keeps, inStep, ends⟩ := h
  refine ⟨W', keeps, inStep, ?_⟩
  cases hx : (x.run.run m).1 <;> cases hy : (y.run.run m').1 <;> rw [hx, hy] at ends <;>
    cases ends
  · exact .cycle _ _
  · exact .error _ _
  · exact .ok (imp _ _ _ keeps ‹_›)

/-- Failures that are looked at. -/
protected theorem tryCatch {f : Failure → Step α} {g : Failure → Step β}
    (h : Together t W m m' x y Q)
    (cycle : ∀ trace trace' W' m₁ m₁', (∀ i p, W i = some p → W' i = some p) →
      InStep t W' m₁ m₁' → Together t W' m₁ m₁' (f (.cycle trace)) (g (.cycle trace')) Q)
    (error : ∀ e e' W' m₁ m₁', (∀ i p, W i = some p → W' i = some p) →
      InStep t W' m₁ m₁' → Together t W' m₁ m₁' (f (.error e)) (g (.error e')) Q) :
    Together t W m m' (tryCatch x f) (tryCatch y g) Q := by
  obtain ⟨W', keeps, inStep, ends⟩ := h
  unfold Together
  simp only [ExceptT.run_tryCatch, StateT.run_bind]
  rcases hx : x.run.run m with ⟨r, m₁⟩
  rcases hy : y.run.run m' with ⟨r', m₁'⟩
  rw [hx, hy] at inStep ends
  cases ends with
  | ok related => exact ⟨W', keeps, inStep, .ok related⟩
  | cycle trace trace' =>
    obtain ⟨W'', keeps', rest⟩ := cycle trace trace' W' m₁ m₁' keeps inStep
    exact ⟨W'', fun i p hp => keeps' i p (keeps i p hp), rest⟩
  | error e e' =>
    obtain ⟨W'', keeps', rest⟩ := error e e' W' m₁ m₁' keeps inStep
    exact ⟨W'', fun i p hp => keeps' i p (keeps i p hp), rest⟩

theorem get_bind {f : Memory → Step α} {g : Memory → Step β} (h : Together t W m m' (f m) (g m') Q) :
    Together t W m m' (get >>= f) (get >>= g) Q := h

end Together

/-! ### Memories -/

theorem Joins.mono (keeps : ∀ i p, W i = some p → W' i = some p) {n k : Nat} (h : Joins W n k) :
    Joins W' n k := by
  obtain ⟨v, w, entry, mark⟩ := h
  exact ⟨v, w, keeps _ _ entry, mark⟩

theorem Joins.left_eq {low low' n n' : Nat} (fits : W.Fits low low' n n') {i j k : Nat}
    (h : Joins W i k) (h' : Joins W j k) : i = j := by
  obtain ⟨v, w, entry, mark⟩ := h
  obtain ⟨x, y, entry', mark'⟩ := h'
  exact fits.inj i j v w x y entry entry' (mark.trans mark'.symm)

theorem Joins.right_eq {i j k : Nat} (h : Joins W i j) (h' : Joins W i k) : j = k := by
  obtain ⟨v, w, entry, mark⟩ := h
  obtain ⟨x, y, entry', mark'⟩ := h'
  cases entry.symm.trans entry'
  exact Option.some.inj (mark.symm.trans mark')

theorem Around.mono (keeps : ∀ i p, W i = some p → W' i = some p) {place : Path} {keys : List String}
    (h : Around place W keys w w') : Around place W' keys w w' := by
  obtain ⟨object, u, sides, below⟩ := h
  exact ⟨object, u, sides.mono fun _ _ => Twin.mono keeps, below⟩

theorem rel_mono {α β : Type} {R S : α → β → Prop} {a : Option α} {b : Option β}
    (h : Option.Rel R a b) (imp : ∀ x y, R x y → S x y) : Option.Rel S a b := by
  cases h with
  | none => exact .none
  | some h => exact .some (imp _ _ h)

namespace InStep

/-- The runs stay in step when both use up marks. -/
theorem grows (h : InStep t W m m') {k k' : Nat} (grows : W.Grows m.next m'.next W' k k')
    (fits : W'.Fits (t.mark + 1) (t.base + t.place.length + 1) k k') :
    InStep t W' { m with next := k } { m' with next := k' } where
  fits := fits
  document := h.document.mono fun _ _ => Twin.mono grows.keeps
  unused n le a := h.unused n (Nat.le_trans grows.le le) a
  unused' n le a := h.unused' n (Nat.le_trans grows.le' le) a
  memo n k joins a := by
    obtain ⟨v, w, entry, mark⟩ := joins
    rcases grows.new n v w entry with old | ⟨le, j, mark', le'⟩
    · exact rel_mono (h.memo n k ⟨v, w, old, mark⟩ a) fun _ _ => Twin.mono grows.keeps
    · -- nothing is known about new nodes
      cases mark.symm.trans mark'
      show Option.Rel _ (m.find? n a) (m'.find? k a)
      rw [h.unused n le, h.unused' k le']
      exact .none
  way i le a := rel_mono (h.way i le a) fun _ _ => Around.mono grows.keeps
  elsewhere := h.elsewhere

theorem recalled (h : InStep t W m m') (twin : Twin t.place W v w) (along : Option Path) :
    Option.Rel (Twin t.place W) (m.recall? v along) (m'.recall? w along) := by
  unfold Memory.recall?
  cases twin.marks with
  | fresh left right =>
    rw [left, right]
    exact .none
  | @known n k left right entry =>
    rw [left, right]
    have joins : Joins W n k := ⟨v, w, entry, right⟩
    have whole := h.memo n k joins none
    simp only []
    generalize m.find? n none = a at whole ⊢
    generalize m'.find? k none = b at whole ⊢
    cases whole with
    | some twin => exact .some twin
    | none =>
      simp only []
      split
      · exact h.memo n k joins along
      · exact .none

/-- What is recalled of the document is recalled of all nodes on the way to where it was moved. -/
theorem recall?_way (h : InStep t W m m') {i : Nat} (le : i ≤ t.place.length) (along : Option Path) :
    Option.Rel (Around t.place W (t.ahead i)) (m.recall? t.own along)
      (m'.recall? (t.way i) (onto (t.ahead i) along)) := by
  unfold Memory.recall?
  rw [t.own_mark, t.way_mark i le]
  have whole := h.way i le none
  simp only [isSome_onto, onto_none] at whole ⊢
  generalize m.find? t.mark none = a at whole ⊢
  generalize m'.find? (t.base + i) none = b at whole ⊢
  cases whole with
  | some around => exact .some around
  | none =>
    simp only []
    split
    · exact h.way i le along
    · exact .none

end InStep

/-- The runs stay in step when both remember twins of twins. -/
theorem InStep.remember (h : InStep t W m m') (twin : Twin t.place W v w)
    (result : Twin t.place W v' w') (along : Option Path) :
    InStep t W (m.remember v along v') (m'.remember w along w') := by
  cases twin.marks with
  | fresh left right =>
    unfold Memory.remember
    rw [left, right]
    exact h
  | @known n k left right entry =>
    have joins : Joins W n k := ⟨v, w, entry, right⟩
    obtain ⟨-, low, lt⟩ := h.fits.left n v w entry
    obtain ⟨k', right', low', lt'⟩ := h.fits.right n v w entry
    cases right.symm.trans right'
    constructor
    case fits =>
      rw [Memory.next_remember, Memory.next_remember]
      exact h.fits
    case document => exact h.document
    case unused =>
      intro i le a
      rw [Memory.next_remember] at le
      rw [Memory.find?_remember, left, if_neg fun e => by cases e.1; omega]
      exact h.unused i le a
    case unused' =>
      intro i le a
      rw [Memory.next_remember] at le
      rw [Memory.find?_remember, right, if_neg fun e => by cases e.1; omega]
      exact h.unused' i le a
    case memo =>
      intro i j joins' a
      rw [Memory.find?_remember, Memory.find?_remember, left, right]
      have same : (some n = some i ∧ along = a) ↔ some k = some j ∧ along = a := by
        refine and_congr_left fun _ => ?_
        simp only [Option.some.injEq]
        constructor
        · rintro rfl
          exact joins.right_eq joins'
        · rintro rfl
          exact joins.left_eq h.fits joins'
      by_cases here : some n = some i ∧ along = a
      · rw [if_pos here, if_pos (same.1 here)]
        exact .some result
      · rw [if_neg here, if_neg (same.not.1 here)]
        exact h.memo i j joins' a
    case way =>
      intro i le a
      rw [Memory.find?_remember, Memory.find?_remember, left, right,
        if_neg fun e => by cases e.1; omega, if_neg fun e => by cases e.1; omega]
      exact h.way i le a
    case elsewhere =>
      intro q first x hx
      rw [Memory.find?_remember, right, if_neg fun e => by cases e.1; omega] at hx
      exact h.elsewhere q first x hx

/-! ### Single steps -/

theorem isSome_mark_markFrom (v : Value) (n : Nat) : (v.markFrom n).1.mark.isSome = true := by
  cases hv : v.mark with
  | none => rw [(markFrom_of_no_mark hv n).1, Option.isSome_some]
  | some k => rw [markFrom_of_mark hv, hv, Option.isSome_some]

/-- New nodes get marks. -/
theorem together_renew (inStep : InStep t W m m') (twin : Twin t.place W v w) :
    Together t W m m' (renew v) (renew w) fun W' v' w' =>
      Twin t.place W' v' w' ∧ w'.mark.isSome = true := by
  obtain ⟨W', grows, fits, twin'⟩ := marksTwins twin W m.next m'.next inStep.fits twin
  exact ⟨W', grows.keeps, inStep.grows grows fits, .ok ⟨twin', isSome_mark_markFrom _ _⟩⟩

theorem together_keep (inStep : InStep t W m m') (twin : Twin t.place W v w)
    (result : Twin t.place W v' w') (along : Option Path) :
    Together t W m m' (keep t.here v along v') (keep t.there w along w') fun _ _ _ => True := by
  unfold keep
  simp only [Transfer.here, Transfer.there, Bool.or_false, result.isResolved_eq]
  split
  · exact ⟨W, fun _ _ h => h, inStep.remember twin result none, .ok trivial⟩
  · split
    · exact ⟨W, fun _ _ h => h, inStep.remember twin result along, .ok trivial⟩
    · exact .error inStep _ _

/-- What shows below a layer. -/
def OpenMerge.shows (o : OpenMerge) (v : Value) : Option Value :=
  (mergeLayers? (v.layers.drop (o.layer + 1))).map fun w => (w.markFrom o.base).1

/-- The nodes of what shows below a layer get marks beforehand. -/
theorem together_reserve (inStep : InStep t W m m') {below below' : List Value}
    (twins : List.Forall₂ (Twin t.place W) below below') :
    Together t W m m' (reserve below) (reserve below') fun W' base base' =>
      Option.Rel (Twin t.place W') ((mergeLayers? below).map fun w => (w.markFrom base).1)
        ((mergeLayers? below').map fun w => (w.markFrom base').1) := by
  unfold reserve
  have merged := rel_mergeLayers? twins
  generalize mergeLayers? below = a at merged ⊢
  generalize mergeLayers? below' = b at merged ⊢
  cases merged with
  | none => exact ⟨W, fun _ _ h => h, inStep, .ok .none⟩
  | some twin =>
    obtain ⟨W', grows, fits, twin'⟩ := marksTwins twin W m.next m'.next inStep.fits twin
    exact ⟨W', grows.keeps, inStep.grows grows fits, .ok (.some twin')⟩

/-! ### Rebuilding -/

/-- Twins have the same mark if their counterparts do. -/
theorem mark_eq_iff {low low' n n' : Nat} (fits : W.Fits low low' n n') (h : Twin t.place W v w)
    (h' : Twin t.place W v' w') : v.mark = v'.mark ↔ w.mark = w'.mark := by
  cases h.marks with
  | fresh left right =>
    cases h'.marks with
    | fresh left' right' => simp [left, right, left', right']
    | known left' right' => simp [left, right, left', right']
  | @known i k left right entry =>
    cases h'.marks with
    | fresh left' right' => simp [left, right, left', right']
    | @known j l left' right' entry' =>
      have joins : Joins W i k := ⟨v, w, entry, right⟩
      have joins' : Joins W j l := ⟨v', w', entry', right'⟩
      rw [left, right, left', right', Option.some.injEq, Option.some.injEq]
      constructor
      · rintro rfl
        exact joins.right_eq joins'
      · rintro rfl
        exact joins.left_eq fits joins'

/-- The results are the nodes that they are for in the one run if they are in the other. -/
theorem map_mark_eq_iff {low low' n n' : Nat} (fits : W.Fits low low' n n') {xs ys : List Value}
    {rs rs' : List (Option Value)} (twins : List.Forall₂ (Twin t.place W) xs ys)
    (results : List.Forall₂ (Option.Rel (Twin t.place W)) rs rs') :
    rs.map (·.bind Value.mark) = xs.map Value.mark ↔
      rs'.map (·.bind Value.mark) = ys.map Value.mark := by
  induction results generalizing xs ys with
  | nil =>
    cases twins with
    | nil => exact Iff.rfl
    | cons => simp
  | cons head _ ih =>
    cases twins with
    | nil => simp
    | @cons x y _ _ twin twins =>
      simp only [List.map_cons, List.cons.injEq]
      refine and_congr ?_ (ih twins)
      cases head with
      | none =>
        cases twin.marks with
        | fresh left right => simp [left, right]
        | known left right => simp [left, right]
      | some result => exact mark_eq_iff fits result twin

theorem together_rebuildList (inStep : InStep t W m m') (twin : Twin t.place W v w) {xs ys : List Value}
    (items : List.Forall₂ (Twin t.place W) xs ys) {rs rs' : List (Option Value)}
    (results : List.Forall₂ (Option.Rel (Twin t.place W)) rs rs') :
    Together t W m m' (rebuildList v xs rs) (rebuildList w ys rs') (Twin t.place) := by
  unfold rebuildList
  simp only [beq_iff_eq, map_mark_eq_iff inStep.fits items results]
  split
  · exact .pure inStep twin
  · refine (together_renew inStep (.fresh (.list _ _ (List.rel_filterMap ?_ results)) rfl rfl)).mono
      fun W' _ _ _ h => h.1
    exact fun _ _ h => h

theorem together_rebuildObject (inStep : InStep t W m m') {p q : Provenance} {closed : Bool}
    {fs gs : Entries Value} (fields : FieldsBoth (Twin t.place W) fs gs)
    {rs rs' : Entries (Option Value)} (results : FieldsBoth (Option.Rel (Twin t.place W)) rs rs') :
    Together t W m m' (rebuildObject (object p closed fs) fs rs)
      (rebuildObject (object q closed gs) gs rs') fun W' v w =>
        v = object p closed fs ∧ w = object q closed gs
          ∨ v.fields?.isSome = true ∧ Twin t.place W' v w ∧ w.mark.isSome = true := by
  have twins : List.Forall₂ (Twin t.place W) (fs.map (·.2)) (gs.map (·.2)) :=
    List.forall₂_map_left_iff.2 (List.forall₂_map_right_iff.2 (fields.imp fun _ _ h => h.2))
  have values : List.Forall₂ (Option.Rel (Twin t.place W)) (rs.map (·.2)) (rs'.map (·.2)) :=
    List.forall₂_map_left_iff.2 (List.forall₂_map_right_iff.2 (results.imp fun _ _ h => h.2))
  have same := map_mark_eq_iff inStep.fits twins values
  simp only [List.map_map, Function.comp_def] at same
  unfold rebuildObject
  simp only [beq_iff_eq, same]
  split
  · exact .pure inStep (.inl ⟨rfl, rfl⟩)
  · have left : FieldsBoth (Twin t.place W) (rs.filterMap fun f => f.2.map fun w => (f.1, w))
        (rs'.filterMap fun f => f.2.map fun w => (f.1, w)) := by
      refine List.rel_filterMap ?_ results
      rintro ⟨key, r⟩ ⟨_, r'⟩ ⟨rfl, related⟩
      cases related with
      | none => exact .none
      | some twin => exact .some ⟨rfl, twin⟩
    have twin := Twin.fresh (v := object { origin := p.origin } closed _)
      (w := object { origin := q.origin } closed _) (.object _ _ _ left) rfl rfl
    obtain ⟨W', grows, fits, twin'⟩ := marksTwins twin W m.next m'.next inStep.fits twin
    exact ⟨W', grows.keeps, inStep.grows grows fits,
      .ok (.inr ⟨rfl, twin', isSome_mark_markFrom _ _⟩)⟩

theorem together_joinPieces (inStep : InStep t W m m') {ps qs : List Value}
    (twins : List.Forall₂ (Twin t.place W) ps qs) :
    Together t W m m' (joinPieces t.here v ps) (joinPieces t.there w qs) fun W' =>
      Option.Rel (Twin t.place W') := by
  unfold joinPieces
  have joined := both_joinRun true twins
  generalize joinRun true ps = a at joined ⊢
  generalize joinRun true qs = b at joined ⊢
  cases joined with
  | error => exact .error inStep _ _
  | ok related =>
    cases related with
    | nil => exact .pure inStep .none
    | cons twin rest =>
      cases rest with
      | nil =>
        exact (together_renew inStep twin).bind fun _ _ W' _ _ _ inStep' h =>
          .pure inStep' (.some h.1)
      | cons => exact .error inStep _ _

/-- Lookups that go alike settle alike. -/
theorem together_settleLookup {r r' : PathReference} (same : r'.optional = r.optional)
    {x y : Step (Option Value)}
    (h : Together t W m m' x y fun W' => Option.Rel (Twin t.place W')) :
    Together t W m m' (settleLookup t.here v r x) (settleLookup t.there w r' y) fun W' =>
      Option.Rel (Twin t.place W') := by
  unfold settleLookup
  by_cases optional : r.optional = true
  case pos =>
    simp only [same, optional, if_true]
    refine Together.bind (h.tryCatch (fun _ _ _ _ _ _ inStep => ?_) fun _ _ _ _ _ _ inStep =>
      .error inStep _ _) fun found found' _ _ _ _ inStep related => ?_
    · exact Together.pure inStep .none
    · cases related with
      | none => exact .pure inStep .none
      | some twin => exact .pure inStep (.some twin)
  case neg =>
    simp only [same, optional]
    refine Together.bind (h.tryCatch (fun _ _ _ _ _ _ inStep => .error inStep _ _)
      fun _ _ _ _ _ _ inStep => .error inStep _ _) fun found found' _ _ _ _ inStep related => ?_
    cases related with
    | none => exact .error inStep _ _
    | some twin => exact .pure inStep (.some twin)

end Resolution

end Hocon
