import Hocon.Value.Merge

/-!
# The weight of a value

A measure on trees under which merging is no gain: `v.withFallback w` weighs at most what
`v` and `w` weigh together, and a waiting merge weighs what its layers do.  So whatever shows
of a merge once its top layer is taken away is lighter than the merge (`weight_below_lt`).
-/

namespace Hocon.Value

mutual

/-- How many leaves and containers a tree has, not counting merges. -/
def weight : Value → Nat
  | object _ _ fs => 1 + weightOfFields fs
  | list _ xs => 1 + weightOfItems xs
  | concat _ ps => 1 + weightOfItems ps
  | merge _ _ ls => max 1 (weightOfItems ls)
  | null _ => 1
  | bool _ _ => 1
  | number _ _ _ => 1
  | string _ _ _ => 1
  | reference _ _ => 1

def weightOfFields : Entries Value → Nat
  | [] => 0
  | (_, v) :: fs => v.weight + weightOfFields fs

def weightOfItems : List Value → Nat
  | [] => 0
  | v :: vs => v.weight + weightOfItems vs

end

theorem weight_pos (v : Value) : 0 < v.weight := by
  cases v <;> simp only [weight] <;> omega

theorem weightOfItems_append (vs ws : List Value) :
    weightOfItems (vs ++ ws) = weightOfItems vs + weightOfItems ws := by
  induction vs with
  | nil => simp [weightOfItems]
  | cons v vs ih => simp only [List.cons_append, weightOfItems, ih]; omega

theorem weightOfItems_drop_le (n : Nat) (vs : List Value) :
    weightOfItems (vs.drop n) ≤ weightOfItems vs := by
  conv => rhs; rw [← List.take_append_drop n vs, weightOfItems_append]
  omega

/-! ### Merging -/

theorem weight_layers_le (v : Value) : weightOfItems v.layers ≤ v.weight := by
  cases v <;> simp only [layers, weight, weightOfItems] <;> omega

theorem weight_stack (top : Value) (ls : List Value) :
    (stack top ls).weight = max 1 (weightOfItems ls) := rfl

theorem weight_of_close? {v u : Value} (h : v.close? = some u) : u.weight = v.weight := by
  unfold close? at h
  split at h
  · cases h
    simp only [weight]
  · cases h

/-- Setting a key adds the new value and loses the old one. -/
theorem weightOfFields_put (es : Entries Value) (key : String) (v : Value) :
    weightOfFields (Entries.put es key v) + ((Entries.get? es key).map weight).getD 0
      = weightOfFields es + v.weight := by
  induction es with
  | nil => simp [Entries.put, Entries.get?, weightOfFields]
  | cons e es ih =>
    obtain ⟨k, w⟩ := e
    by_cases h : k = key
    · simp only [Entries.put, Entries.get?, h, if_true, weightOfFields, Option.map_some,
        Option.getD_some]
      omega
    · simp only [Entries.put, Entries.get?, h, if_false, weightOfFields]
      omega

mutual

/-- Merging is no gain in weight. -/
theorem weight_of_absorb? (v w : Value) {u : Value} (h : v.absorb? w = some u) :
    u.weight ≤ v.weight + w.weight := by
  match v with
  | object p closed own =>
    cases hw : w.fields? with
    | some other =>
      obtain ⟨q, closed', rfl⟩ := eq_object_of_fields? hw
      have := weight_absorbFields own other
      rw [absorb?_object] at h
      simp only [] at h
      split at h
      · cases h
      split at h
      · cases h
        simp only [weight]
        omega
      · split at h <;> cases h
        simp only [weight]
        omega
    | none =>
      have := weight_layers_le w
      have := weight_pos w
      rw [absorb?_object_of_fields?_eq_none hw] at h
      simp only [] at h
      split at h
      · cases h
      split at h
      · cases h
        simp only [weight_stack, weightOfItems, weight]
        omega
      split at h
      · have := weight_of_close? h
        omega
      · cases h
        simp only [weight_stack, weightOfItems, weight]
        omega
  | null _ => exact weight_le_of_leaf rfl h
  | bool _ _ => exact weight_le_of_leaf rfl h
  | number _ _ _ => exact weight_le_of_leaf rfl h
  | string _ _ _ => exact weight_le_of_leaf rfl h
  | list _ _ => exact weight_le_of_leaf rfl h
  | reference _ _ => exact weight_le_of_leaf rfl h
  | concat _ _ => exact weight_le_of_leaf rfl h
  | merge _ _ _ => exact weight_le_of_leaf rfl h
where
  weight_le_of_leaf {v w u : Value} (hv : v.fields? = none) (h : v.absorb? w = some u) :
      u.weight ≤ v.weight + w.weight := by
    have := weight_layers_le v
    have := weight_layers_le w
    have := weight_pos v
    rw [absorb?_of_fields?_eq_none hv] at h
    split at h
    · cases h
    split at h <;> cases h
    all_goals
      simp only [weight_stack, weightOfItems_append, weightOfItems]
      omega

theorem weight_absorbFields (own other : Entries Value) :
    weightOfFields (absorbFields own other).1 ≤ weightOfFields own + weightOfFields other := by
  match own with
  | [] => simp [absorbFields, weightOfFields]
  | (key, v) :: own =>
    have ih := weight_absorbFields own
    have put := weightOfFields_put other key
    rw [absorbFields]
    split
    · next hk =>
      have := ih (Entries.put other key v)
      have := put v
      simp only [weightOfFields]
      omega
    · next w hk =>
      simp only [hk, Option.map_some, Option.getD_some] at put
      split
      · have := ih (Entries.put other key v)
        have := put v
        simp only [weightOfFields]
        omega
      · next u hu =>
        have := weight_of_absorb? v w hu
        have := ih (Entries.put other key u)
        have := put u
        simp only [weightOfFields]
        omega

end

theorem weight_withFallback_le (v w : Value) :
    (v.withFallback w).weight ≤ v.weight + w.weight := by
  unfold withFallback
  cases h : v.absorb? w with
  | none => exact Nat.le_add_right _ _
  | some u => exact weight_of_absorb? v w h

theorem weight_foldl_withFallback_le (v : Value) (vs : List Value) :
    (vs.foldl withFallback v).weight ≤ v.weight + weightOfItems vs := by
  induction vs generalizing v with
  | nil => simp [weightOfItems]
  | cons w vs ih =>
    have := ih (v.withFallback w)
    have := weight_withFallback_le v w
    simp only [List.foldl_cons, weightOfItems]
    omega

theorem weight_of_mergeLayers? {vs : List Value} {u : Value} (h : mergeLayers? vs = some u) :
    u.weight ≤ weightOfItems vs := by
  match vs with
  | [] => cases h
  | v :: vs =>
    cases h
    exact weight_foldl_withFallback_le v vs

/-! ### Marks -/

mutual

/-- Marks weigh nothing. -/
theorem weight_markFrom (next : Nat) (v : Value) : (v.markFrom next).1.weight = v.weight := by
  match v with
  | null p => rw [markFrom]; split <;> rfl
  | bool p b => rw [markFrom]; split <;> rfl
  | number p n t => rw [markFrom]; split <;> rfl
  | string p t q => rw [markFrom]; split <;> rfl
  | reference p r => rw [markFrom]; split <;> rfl
  | object p c fs =>
    rw [markFrom]
    split
    · rfl
    · simp only [weight, weight_markFields (next + 1) fs]
  | list p xs =>
    rw [markFrom]
    split
    · rfl
    · simp only [weight, weight_markItems (next + 1) xs]
  | concat p xs =>
    rw [markFrom]
    split
    · rfl
    · simp only [weight, weight_markItems (next + 1) xs]
  | merge p k xs =>
    rw [markFrom]
    split
    · rfl
    · simp only [weight, weight_markItems (next + 1) xs]

theorem weight_markFields (next : Nat) (fs : Entries Value) :
    weightOfFields (markFields next fs).1 = weightOfFields fs := by
  match fs with
  | [] => rfl
  | (k, v) :: fs =>
    simp only [markFields, weightOfFields, weight_markFrom next v, weight_markFields _ fs]

theorem weight_markItems (next : Nat) (vs : List Value) :
    weightOfItems (markItems next vs).1 = weightOfItems vs := by
  match vs with
  | [] => rfl
  | v :: vs =>
    simp only [markItems, weightOfItems, weight_markFrom next v, weight_markItems _ vs]

end

/-! ### Taking layers away -/

/-- What shows of a merge below its layer `n` is lighter than the merge. -/
theorem weight_below_lt {p : Provenance} {k : MergeKind} {ls : List Value} {n : Nat} {u : Value}
    (h : mergeLayers? (ls.drop (n + 1)) = some u) : u.weight < (merge p k ls).weight := by
  have hu := weight_of_mergeLayers? h
  match ls with
  | [] => simp [mergeLayers?] at h
  | v :: ls =>
    have := weightOfItems_drop_le n ls
    have := weight_pos v
    simp only [List.drop_succ_cons] at hu
    simp only [weight, weightOfItems]
    omega

end Hocon.Value
