import Hocon.Proofs.Moving

/-!
# Twins get marks

When both of two runs give marks to twins, the pairing grows: the new marks go together, and no
mark that was paired before is paired anew.
-/

namespace Hocon

open Value

variable {place : Path} {W W' W'' : Pairing} {v w : Value} {low low' n n' k k' : Nat}

namespace Pairing

/-- Each pair is under the mark of its first node, and no mark of a second node occurs twice.  The
marks of the first nodes run from `low` to `n`, those of the second ones from `low'` to `n'`. -/
structure Fits (low low' : Nat) (W : Pairing) (n n' : Nat) : Prop where
  le : low ≤ n
  le' : low' ≤ n'
  left : ∀ i v w, W i = some (v, w) → v.mark = some i ∧ low ≤ i ∧ i < n
  right : ∀ i v w, W i = some (v, w) → ∃ j, w.mark = some j ∧ low' ≤ j ∧ j < n'
  inj : ∀ i j v w x y, W i = some (v, w) → W j = some (x, y) → w.mark = y.mark → i = j

theorem Fits.weaken (h : W.Fits low low' n n') (le : n ≤ k) (le' : n' ≤ k') :
    W.Fits low low' k k' where
  le := Nat.le_trans h.le le
  le' := Nat.le_trans h.le' le'
  left i v w hw := (h.left i v w hw).imp_right (.imp_right (Nat.lt_of_lt_of_le · le))
  right i v w hw :=
    (h.right i v w hw).imp fun _ hj => hj.imp_right (.imp_right (Nat.lt_of_lt_of_le · le'))
  inj := h.inj

/-- The pairing `W` with pairs added whose marks are not below `n` and `n'`. -/
structure Grows (W : Pairing) (n n' : Nat) (W' : Pairing) (k k' : Nat) : Prop where
  keeps : ∀ i p, W i = some p → W' i = some p
  new : ∀ i v w, W' i = some (v, w) → W i = some (v, w) ∨ n ≤ i ∧ ∃ j, w.mark = some j ∧ n' ≤ j
  le : n ≤ k
  le' : n' ≤ k'

theorem Grows.refl (W : Pairing) (n n' : Nat) : W.Grows n n' W n n' :=
  ⟨fun _ _ h => h, fun _ _ _ => .inl, Nat.le_refl _, Nat.le_refl _⟩

theorem Grows.trans (h : W.Grows n n' W' k k') {l l' : Nat} (h' : W'.Grows k k' W'' l l') :
    W.Grows n n' W'' l l' where
  keeps i p hp := h'.keeps i p (h.keeps i p hp)
  new i v w hw := by
    rcases h'.new i v w hw with hw | ⟨le, j, mark, le'⟩
    · exact h.new i v w hw
    · exact .inr ⟨Nat.le_trans h.le le, j, mark, Nat.le_trans h.le' le'⟩
  le := Nat.le_trans h.le h'.le
  le' := Nat.le_trans h.le' h'.le'

/-- A pair under marks that were left free when the pairing grew. -/
theorem Grows.exists_insert (fits : W.Fits low low' n n') (grows : W.Grows (n + 1) (n' + 1) W' k k')
    (fits' : W'.Fits low low' k k') (left : v.mark = some n) (right : w.mark = some n') :
    ∃ W'', W''.Fits low low' k k' ∧ W.Grows n n' W'' k k' ∧ (∀ i p, W' i = some p → W'' i = some p)
      ∧ W'' n = some (v, w) := by
  have unused : W' n = none := by
    cases h : W' n with
    | none => rfl
    | some p =>
      rcases grows.new n p.1 p.2 h with old | ⟨le, -⟩
      · exact absurd (fits.left n _ _ old).2.2 (Nat.lt_irrefl n)
      · exact absurd le (Nat.not_succ_le_self n)
  have unused' {i : Nat} {x y : Value} (h : W' i = some (x, y)) : y.mark ≠ some n' := by
    intro same
    rcases grows.new i x y h with old | ⟨-, j, mark, le⟩
    · obtain ⟨j, mark, -, lt⟩ := fits.right i x y old
      cases mark.symm.trans same
      exact Nat.lt_irrefl _ lt
    · cases mark.symm.trans same
      exact Nat.not_succ_le_self _ le
  have keeps (i : Nat) (p : Value × Value) (hp : W' i = some p) :
      (if i = n then some (v, w) else W' i) = some p := by
    rw [if_neg (by rintro rfl; simp [unused] at hp), hp]
  -- what is paired now was paired before, or is the new pair
  have either {i : Nat} {x y : Value}
      (h : (if i = n then some (v, w) else W' i) = some (x, y)) :
      i = n ∧ x = v ∧ y = w ∨ W' i = some (x, y) := by
    split at h
    · next here =>
      cases h
      exact .inl ⟨here, rfl, rfl⟩
    · exact .inr h
  have lt : n < k := grows.le
  have lt' : n' < k' := grows.le'
  refine ⟨fun i => if i = n then some (v, w) else W' i, ⟨fits'.le, fits'.le', ?_, ?_, ?_⟩,
    ⟨fun i p hp => keeps i p (grows.keeps i p hp), ?_, Nat.le_of_lt lt, Nat.le_of_lt lt'⟩, keeps,
    if_pos rfl⟩
  · intro i x y h
    rcases either h with ⟨rfl, rfl, rfl⟩ | h
    · exact ⟨left, fits.le, lt⟩
    · exact fits'.left i x y h
  · intro i x y h
    rcases either h with ⟨rfl, rfl, rfl⟩ | h
    · exact ⟨n', right, fits.le', lt'⟩
    · exact fits'.right i x y h
  · intro i j x y z u h h' same
    rcases either h with ⟨rfl, rfl, rfl⟩ | here <;> rcases either h' with ⟨rfl, rfl, rfl⟩ | there
    · rfl
    · exact absurd (same.symm.trans right) (unused' there)
    · exact absurd (same.trans right) (unused' here)
    · exact fits'.inj i j x y z u here there same
  · intro i x y h
    rcases either h with ⟨rfl, rfl, rfl⟩ | h
    · exact .inr ⟨Nat.le_refl _, n', right, Nat.le_refl _⟩
    · exact (grows.new i x y h).imp_right fun h =>
        ⟨Nat.le_of_succ_le h.1, h.2.imp fun _ hj => hj.imp_right Nat.le_of_succ_le⟩

end Pairing

namespace Value

theorem Paired.mono (keeps : ∀ i p, W i = some p → W' i = some p) (h : Paired W v w) :
    Paired W' v w := by
  cases h with
  | fresh left right => exact .fresh left right
  | known left right entry => exact .known left right (keeps _ _ entry)

theorem Twin.mono (keeps : ∀ i p, W i = some p → W' i = some p) (h : Twin place W v w) :
    Twin place W' v w := by
  induction h with
  | node marks same _ ih => exact .node (marks.mono keeps) same ih

/-! ### Marking -/

/-- Marking changes nothing else about a node. -/
theorem Sides.markFrom (h : Sides place (fun _ _ => True) v w) (left : v.mark = none)
    (right : w.mark = none) (n k : Nat) :
    Sides place (fun _ _ => True) (v.markFrom n).1 (w.markFrom k).1 := by
  have unmarked {v : Value} (h : v.mark = none) : ¬ v.prov.isMarked = true := by
    rw [Provenance.isMarked, show v.prov.mark = none from h]
    exact Bool.false_ne_true
  replace left := unmarked left
  replace right := unmarked right
  have items {xs ys : List Value} (h : List.Forall₂ (fun _ _ => True) xs ys) (n k : Nat) :
      List.Forall₂ (fun _ _ => True) (markItems n xs).1 (markItems k ys).1 := by
    induction h generalizing n k with
    | nil => exact .nil
    | cons _ _ ih => exact .cons trivial (ih _ _)
  have entries {fs gs : Entries Value} (h : FieldsBoth (fun _ _ => True) fs gs) (n k : Nat) :
      FieldsBoth (fun _ _ => True) (markFields n fs).1 (markFields k gs).1 := by
    induction h generalizing n k with
    | nil => exact .nil
    | cons head _ ih => exact .cons ⟨head.1, trivial⟩ (ih _ _)
  cases h <;> simp only [prov] at left right
    <;> rw [Value.markFrom, if_neg left, Value.markFrom, if_neg right]
  case object fields => exact .object _ _ _ (entries fields _ _)
  case list related => exact .list _ _ (items related _ _)
  case concat related => exact .concat _ _ (items related _ _)
  case merge related => exact .merge _ _ _ (items related _ _)
  case reference moved => exact .reference _ _ moved
  all_goals constructor

/-- What it means that marking two values makes them twins in a larger pairing. -/
def MarksTwins (place : Path) (low low' : Nat) (v w : Value) : Prop :=
  ∀ (W : Pairing) (n n' : Nat), W.Fits low low' n n' → Twin place W v w →
    ∃ W', W.Grows n n' W' (v.markFrom n).2 (w.markFrom n').2
      ∧ W'.Fits low low' (v.markFrom n).2 (w.markFrom n').2
      ∧ Twin place W' (v.markFrom n).1 (w.markFrom n').1

/-- Items are marked one after the other. -/
theorem exists_twins_markItems {xs ys : List Value} (h : List.Forall₂ (MarksTwins place low low') xs ys)
    (fits : W.Fits low low' n n') (twins : List.Forall₂ (Twin place W) xs ys) :
    ∃ W', W.Grows n n' W' (markItems n xs).2 (markItems n' ys).2
      ∧ W'.Fits low low' (markItems n xs).2 (markItems n' ys).2
      ∧ List.Forall₂ (Twin place W') (markItems n xs).1 (markItems n' ys).1 := by
  induction h generalizing W n n' with
  | nil => exact ⟨W, .refl W n n', fits, .nil⟩
  | cons head _ ih =>
    obtain _ | ⟨twin, twins⟩ := twins
    obtain ⟨W', grows, fits', twin'⟩ := head W n n' fits twin
    obtain ⟨W'', grows', fits'', twins'⟩ := ih fits' (twins.imp fun _ _ => Twin.mono grows.keeps)
    exact ⟨W'', grows.trans grows', fits'', .cons (twin'.mono grows'.keeps) twins'⟩

/-- **Marking twins makes them twins** in a larger pairing. -/
theorem marksTwins (h : Twin place W v w) : MarksTwins place low low' v w := by
  induction h with
  | @node v w marks same parts ih =>
    intro W n n' fits twin
    cases twin.marks with
    | known left right =>
      rw [markFrom_of_mark left, markFrom_of_mark right]
      exact ⟨W, .refl W n n', fits, twin⟩
    | fresh left right =>
      obtain ⟨mark, parts_eq, next, -⟩ := markFrom_of_no_mark left n
      obtain ⟨mark', parts_eq', next', -⟩ := markFrom_of_no_mark right n'
      have marked : List.Forall₂ (MarksTwins place low low') v.parts w.parts :=
        List.forall₂_iff_zip.2 ⟨same.parts.length_eq, ih _ _⟩
      have fits₁ : W.Fits low low' (n + 1) (n' + 1) := fits.weaken (Nat.le_succ n) (Nat.le_succ n')
      obtain ⟨W', grows, fits', twins⟩ := exists_twins_markItems marked fits₁ twin.sides.parts
      rw [← parts_eq, ← parts_eq'] at twins
      rw [← next, ← next'] at grows fits'
      -- the nodes themselves come on top of their parts
      obtain ⟨W'', fits'', grows'', keeps, entry⟩ := grows.exists_insert fits fits' mark mark'
      refine ⟨W'', grows'', fits'', .of_sides (.known mark mark' entry) ?_⟩
      exact (same.markFrom left right n n').of_parts fun x y hxy =>
        (List.forall₂_zip twins hxy).mono keeps

end Value

end Hocon
