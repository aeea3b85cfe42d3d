/-!
# Entries in the order of insertion

The fields of an object: keys with their values, each key once, in the order in which the
keys first came.  Setting a key that is there replaces its value in place.
-/

namespace Hocon

/-- Keys with what they hold, in the order of insertion. -/
abbrev Entries (α : Type) := List (String × α)

namespace Entries

variable {α : Type}

/-- What a key holds. -/
def get? : Entries α → String → Option α
  | [], _ => none
  | (k, v) :: es, key => if k = key then some v else get? es key

/-- Whether a key holds something. -/
def has (es : Entries α) (key : String) : Bool := (get? es key).isSome

/-- The entries with `value` at `key`: in place, or at the end if the key is new. -/
def put : Entries α → String → α → Entries α
  | [], key, value => [(key, value)]
  | (k, v) :: es, key, value =>
    if k = key then (key, value) :: es else (k, v) :: put es key value

/-- The entries without `key`. -/
def drop : Entries α → String → Entries α
  | [], _ => []
  | (k, v) :: es, key => if k = key then es else (k, v) :: drop es key

/-- The entries of a list of pairs; a later pair replaces an earlier one in place. -/
def ofPairs (pairs : List (String × α)) : Entries α :=
  pairs.foldl (fun es p => put es p.1 p.2) []

/-- The keys in order. -/
def keys (es : Entries α) : List String := es.map (·.1)

/-! ### What setting and dropping a key does -/

theorem get?_put_self (es : Entries α) (key : String) (value : α) :
    get? (put es key value) key = some value := by
  induction es with
  | nil => simp [put, get?]
  | cons e es ih =>
    rw [put]
    split
    · simp [get?]
    · next h => simp [get?, h, ih]

theorem get?_put_of_ne {es : Entries α} {key other : String} {value : α} (h : other ≠ key) :
    get? (put es key value) other = get? es other := by
  induction es with
  | nil => simp [put, get?, Ne.symm h]
  | cons e es ih =>
    rw [put]
    split
    · next e' => simp [get?, Ne.symm h, e']
    · simp [get?, ih]

theorem has_eq_true_iff {es : Entries α} {key : String} :
    has es key = true ↔ key ∈ keys es := by
  induction es with
  | nil => simp [has, get?, keys]
  | cons e es ih =>
    simp only [has, keys] at ih
    by_cases h : e.1 = key
    · simp [has, get?, keys, h]
    · simp [has, get?, keys, h, ih, Ne.symm h]

/-- A key that is there keeps its place. -/
theorem keys_put_of_mem {es : Entries α} {key : String} (h : key ∈ keys es) (value : α) :
    keys (put es key value) = keys es := by
  induction es with
  | nil => simp [keys] at h
  | cons e es ih =>
    rw [put]
    split
    · next e' => simp [keys, e']
    · next ne =>
      simp only [keys, List.map_cons, List.mem_cons, Ne.symm ne, false_or] at h
      simpa [keys] using ih h

/-- A new key comes last. -/
theorem keys_put_of_not_mem {es : Entries α} {key : String} (h : key ∉ keys es) (value : α) :
    keys (put es key value) = keys es ++ [key] := by
  induction es with
  | nil => rfl
  | cons e es ih =>
    simp only [keys, List.map_cons, List.mem_cons, not_or] at h
    rw [put, if_neg (Ne.symm h.1)]
    simpa [keys] using ih h.2

/-- Each key still comes once. -/
theorem nodup_keys_put {es : Entries α} (h : (keys es).Nodup) (key : String) (value : α) :
    (keys (put es key value)).Nodup := by
  by_cases hk : key ∈ keys es
  · rwa [keys_put_of_mem hk]
  · rw [keys_put_of_not_mem hk]
    refine List.nodup_append.2 ⟨h, by simp, ?_⟩
    rintro a ha b hb rfl
    simp only [List.mem_singleton] at hb
    exact hk (hb ▸ ha)

theorem drop_sublist (es : Entries α) (key : String) : (drop es key).Sublist es := by
  induction es with
  | nil => exact .slnil
  | cons e es ih =>
    rw [drop]
    split
    · exact List.sublist_cons_self _ _
    · exact ih.cons_cons _

theorem get?_drop_of_ne {es : Entries α} {key other : String} (h : other ≠ key) :
    get? (drop es key) other = get? es other := by
  induction es with
  | nil => rfl
  | cons e es ih =>
    rw [drop]
    split
    · next e' => simp [get?, e', Ne.symm h]
    · simp [get?, ih]

end Entries

end Hocon
