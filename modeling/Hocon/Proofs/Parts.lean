import Hocon.Value.Merge
import Hocon.Value.Equality

/-!
# The parts of a value

A value is a tree of nodes, and the parts of a node are the nodes right below it, whatever its
kind.  A proof about all values may go by the parts alone (`Value.parts_induction`); it then has
one case for every node in place of one for each of the nested lists.

Two values are alike (`Value.Alike`) if they differ in nothing but the provenance of their nodes
and the order of their fields.  That is how a tree with marks relates to the tree without, and
how a document relates to the one with its keys in another order.
-/

namespace Hocon

/-! ### Entries -/

namespace Entries

variable {α : Type}

theorem mem_of_get? {es : Entries α} {key : String} {v : α} (h : get? es key = some v) :
    (key, v) ∈ es := by
  induction es with
  | nil => cases h
  | cons e es ih =>
    rw [get?] at h
    split at h
    · next e' =>
      cases h
      exact e' ▸ List.mem_cons_self
    · exact List.mem_cons_of_mem _ (ih h)

/-- A key that comes once holds what stands beside it. -/
theorem get?_of_mem {es : Entries α} (nodup : (keys es).Nodup) {key : String} {v : α}
    (h : (key, v) ∈ es) : get? es key = some v := by
  induction es with
  | nil => cases h
  | cons e es ih =>
    obtain ⟨k, w⟩ := e
    simp only [keys, List.map_cons, List.nodup_cons] at nodup
    rcases List.mem_cons.1 h with h | h
    · cases h
      simp [get?]
    · have ne : k ≠ key := by
        rintro rfl
        exact nodup.1 (List.mem_map.2 ⟨_, h, rfl⟩)
      rw [get?, if_neg ne]
      exact ih nodup.2 h

theorem get?_eq_none_iff {es : Entries α} {key : String} :
    get? es key = none ↔ key ∉ keys es := by
  rw [← has_eq_true_iff, has, Option.isSome_iff_ne_none, Classical.not_not]

theorem mem_keys_of_get? {es : Entries α} {key : String} {v : α} (h : get? es key = some v) :
    key ∈ keys es :=
  List.mem_map.2 ⟨_, mem_of_get? h, rfl⟩

theorem exists_get?_of_mem_keys {es : Entries α} {key : String} (h : key ∈ keys es) :
    ∃ v, get? es key = some v :=
  Option.isSome_iff_exists.1 (has_eq_true_iff.2 h)

/-- A new key comes last. -/
theorem put_of_not_mem {es : Entries α} {key : String} (h : key ∉ keys es) (value : α) :
    put es key value = es ++ [(key, value)] := by
  induction es with
  | nil => rfl
  | cons e es ih =>
    simp only [keys, List.map_cons, List.mem_cons, not_or] at h
    rw [put, if_neg (Ne.symm h.1), ih h.2]
    rfl

/-- Setting a key, seen through any key. -/
theorem get?_put (es : Entries α) (key other : String) (value : α) :
    get? (put es key value) other = if other = key then some value else get? es other := by
  split
  · next h => rw [h, get?_put_self]
  · next h => exact get?_put_of_ne h

end Entries

/-- The paths that a reference is looked up at, one after the other: its own, and that without
the keys that including documents added. -/
def Reference.paths (r : Reference) : List Path :=
  r.target.path :: (r.target.path.drop? r.included).toList

namespace Value

/-! ### Parts -/

/-- The nodes right below a node. -/
def parts : Value → List Value
  | object _ _ fs => fs.map (·.2)
  | list _ xs => xs
  | concat _ ps => ps
  | merge _ _ ls => ls
  | _ => []

theorem sizeOf_lt_of_mem_fields {fs : Entries Value} {f : String × Value} (h : f ∈ fs) :
    sizeOf f.2 < sizeOf fs := by
  have := List.sizeOf_lt_of_mem h
  obtain ⟨k, v⟩ := f
  simp only [Prod.mk.sizeOf_spec] at this
  show sizeOf v < _
  omega

/-- A part is smaller than the whole. -/
theorem sizeOf_lt_of_mem_parts {u v : Value} (h : u ∈ v.parts) : sizeOf u < sizeOf v := by
  cases v with
  | object p c fs =>
    obtain ⟨f, hf, rfl⟩ := List.mem_map.1 h
    have := sizeOf_lt_of_mem_fields hf
    simp only [object.sizeOf_spec]
    omega
  | list p xs =>
    have := List.sizeOf_lt_of_mem (show u ∈ xs from h)
    simp only [list.sizeOf_spec]
    omega
  | concat p xs =>
    have := List.sizeOf_lt_of_mem (show u ∈ xs from h)
    simp only [concat.sizeOf_spec]
    omega
  | merge p k xs =>
    have := List.sizeOf_lt_of_mem (show u ∈ xs from h)
    simp only [merge.sizeOf_spec]
    omega
  | _ => exact absurd h List.not_mem_nil

/-- What holds of a node whenever it holds of its parts holds of every value. -/
theorem parts_induction {motive : Value → Prop}
    (node : ∀ v, (∀ u ∈ v.parts, motive u) → motive v) (v : Value) : motive v :=
  node v fun u h =>
    have := sizeOf_lt_of_mem_parts h
    parts_induction node u
termination_by sizeOf v

theorem mem_parts_of_mem_fields {p : Provenance} {c : Bool} {fs : Entries Value} {k : String}
    {v : Value} (h : (k, v) ∈ fs) : v ∈ (object p c fs).parts :=
  List.mem_map.2 ⟨_, h, rfl⟩

/-! ### Resolved parts -/

theorem fieldsResolved_iff {fs : Entries Value} :
    fieldsResolved fs = true ↔ ∀ f ∈ fs, f.2.isResolved = true := by
  induction fs with
  | nil => simp [fieldsResolved]
  | cons f fs ih => simp [fieldsResolved, ih]

theorem itemsResolved_iff {xs : List Value} :
    itemsResolved xs = true ↔ ∀ x ∈ xs, x.isResolved = true := by
  induction xs with
  | nil => simp [itemsResolved]
  | cons x xs ih => simp [itemsResolved, ih]

/-- A tree is resolved if no node of it waits. -/
theorem isResolved_iff {v : Value} :
    v.isResolved = true ↔ v.isPending = false ∧ ∀ u ∈ v.parts, u.isResolved = true := by
  cases v <;>
    simp [isResolved, isPending, parts, fieldsResolved_iff, itemsResolved_iff, @forall_comm Value]

theorem isPending_of_isResolved {v : Value} (h : v.isResolved = true) : v.isPending = false :=
  (isResolved_iff.1 h).1

/-! ### Paths -/

@[simp] theorem peek?_object (p : Provenance) (c : Bool) (fs : Entries Value) (key : String)
    (keys : List String) :
    (object p c fs).peek? (key :: keys) = (Entries.get? fs key).bind fun u => u.peek? keys := rfl

theorem peek?_object_singleton (p : Provenance) (c : Bool) (fs : Entries Value) (key : String) :
    (object p c fs).peek? [key] = Entries.get? fs key := by
  rw [peek?_object]
  cases Entries.get? fs key <;> rfl

/-- No path leads into what is no object. -/
theorem peek?_of_fields?_eq_none {v : Value} (h : v.fields? = none) (key : String)
    (keys : List String) : v.peek? (key :: keys) = none := by
  rw [peek?, h]
  rfl

/-- A path leads to its end key by key. -/
theorem peek?_cons (v : Value) (key : String) (keys : List String) :
    v.peek? (key :: keys) = (v.peek? [key]).bind fun u => u.peek? keys := by
  cases hf : v.fields? with
  | none => rw [peek?_of_fields?_eq_none hf, peek?_of_fields?_eq_none hf]; rfl
  | some fs =>
    obtain ⟨p, c, rfl⟩ := eq_object_of_fields? hf
    rw [peek?_object, peek?_object]
    cases hu : Entries.get? fs key <;> rfl

/-- What a path leads to lies in a field of an object. -/
theorem exists_field_of_peek? {u v : Value} {key : String} {keys : List String}
    (h : v.peek? (key :: keys) = some u) :
    ∃ p c fs x, v = object p c fs ∧ Entries.get? fs key = some x ∧ x.peek? keys = some u := by
  obtain ⟨fs, hf, found⟩ := Option.bind_eq_some_iff.1 h
  obtain ⟨x, hx, below⟩ := Option.bind_eq_some_iff.1 found
  obtain ⟨p, c, rfl⟩ := eq_object_of_fields? hf
  exact ⟨p, c, fs, x, rfl, hx, below⟩

/-! ### Identical trees -/

mutual

/-- Whether two trees are one and the same, origins, marks and the order of fields included. -/
def identical : Value → Value → Bool
  | null p, null q => p = q
  | bool p a, bool q b => p = q && a = b
  | number p n t, number q m u => p = q && n = m && t = u
  | string p t quoted, string q u quoted' => p = q && t = u && quoted = quoted'
  | reference p r, reference q s => p = q && r = s
  | object p c fs, object q d gs => p = q && c = d && identicalFields fs gs
  | list p xs, list q ys => p = q && identicalItems xs ys
  | concat p xs, concat q ys => p = q && identicalItems xs ys
  | merge p j xs, merge q k ys => p = q && j = k && identicalItems xs ys
  | _, _ => false

def identicalFields : Entries Value → Entries Value → Bool
  | [], [] => true
  | (k, v) :: fs, (l, w) :: gs => k = l && identical v w && identicalFields fs gs
  | _, _ => false

def identicalItems : List Value → List Value → Bool
  | [], [] => true
  | v :: vs, w :: ws => identical v w && identicalItems vs ws
  | _, _ => false

end

theorem identicalFields_iff {fs gs : Entries Value}
    (h : ∀ f ∈ fs, ∀ w, f.2.identical w = true ↔ f.2 = w) :
    identicalFields fs gs = true ↔ fs = gs := by
  induction fs generalizing gs with
  | nil => cases gs <;> simp [identicalFields]
  | cons f fs ih =>
    obtain ⟨hf, h⟩ := List.forall_mem_cons.1 h
    cases gs with
    | nil => simp [identicalFields]
    | cons g gs =>
      simp only [identicalFields, Bool.and_eq_true, decide_eq_true_eq, hf, ih h, List.cons.injEq,
        Prod.ext_iff]

theorem identicalItems_iff {xs ys : List Value}
    (h : ∀ x ∈ xs, ∀ w, x.identical w = true ↔ x = w) :
    identicalItems xs ys = true ↔ xs = ys := by
  induction xs generalizing ys with
  | nil => cases ys <;> simp [identicalItems]
  | cons x xs ih =>
    obtain ⟨hx, h⟩ := List.forall_mem_cons.1 h
    cases ys with
    | nil => simp [identicalItems]
    | cons y ys => simp only [identicalItems, Bool.and_eq_true, hx, ih h, List.cons.injEq]

theorem identical_iff {v w : Value} : v.identical w = true ↔ v = w := by
  induction v using parts_induction generalizing w with
  | node v ih =>
    have parts (x : Value) (hx : x ∈ v.parts) (w : Value) : x.identical w = true ↔ x = w :=
      ih x hx
    cases v with
    | object p c fs =>
      have fields (gs : Entries Value) : identicalFields fs gs = true ↔ fs = gs :=
        identicalFields_iff fun f hf => parts f.2 (mem_parts_of_mem_fields (c := c) (p := p) hf)
      cases w <;> simp [identical, fields, and_assoc]
    | list p xs | concat p xs | merge p k xs =>
      have items (ys : List Value) : identicalItems xs ys = true ↔ xs = ys :=
        identicalItems_iff parts
      cases w <;> simp [identical, items, and_assoc]
    | _ => cases w <;> simp [identical, and_assoc]

instance : DecidableEq Value := fun _ _ => decidable_of_iff _ identical_iff

/-! ### Alike trees -/

/-- The same tree but for the marks of its nodes and the order of its fields. -/
inductive Alike : Value → Value → Prop
  | null {p q : Provenance} (origin : p.origin = q.origin) : Alike (null p) (null q)
  | bool {p q : Provenance} (origin : p.origin = q.origin) (b : Bool) :
      Alike (bool p b) (bool q b)
  | number {p q : Provenance} (origin : p.origin = q.origin) (n : Number)
      (t : Option String) : Alike (number p n t) (number q n t)
  | string {p q : Provenance} (origin : p.origin = q.origin) (t : String) (quoted : Bool) :
      Alike (string p t quoted) (string q t quoted)
  | reference {p q : Provenance} (origin : p.origin = q.origin) (r : Reference) :
      Alike (reference p r) (reference q r)
  | object {p q : Provenance} (origin : p.origin = q.origin) (c : Bool) {fs gs : Entries Value}
      (keys : (Entries.keys fs).Perm (Entries.keys gs))
      (fields : ∀ k v w, Entries.get? fs k = some v → Entries.get? gs k = some w → Alike v w) :
      Alike (object p c fs) (object q c gs)
  | list {p q : Provenance} (origin : p.origin = q.origin) {xs ys : List Value}
      (length : xs.length = ys.length)
      (items : ∀ (i : Nat) x y, xs[i]? = some x → ys[i]? = some y → Alike x y) :
      Alike (list p xs) (list q ys)
  | concat {p q : Provenance} (origin : p.origin = q.origin) {xs ys : List Value}
      (length : xs.length = ys.length)
      (pieces : ∀ (i : Nat) x y, xs[i]? = some x → ys[i]? = some y → Alike x y) :
      Alike (concat p xs) (concat q ys)
  | merge {p q : Provenance} (origin : p.origin = q.origin) (k : MergeKind) {xs ys : List Value}
      (length : xs.length = ys.length)
      (layers : ∀ (i : Nat) x y, xs[i]? = some x → ys[i]? = some y → Alike x y) :
      Alike (merge p k xs) (merge q k ys)

namespace Alike

/-- A value with another mark at its top. -/
theorem withProv (v : Value) {p : Provenance} (origin : v.origin = p.origin) :
    Alike v (v.withProv p) := by
  induction v using parts_induction generalizing p with
  | node v ih =>
    -- the parts are the same on both sides
    have self (u : Value) (h : u ∈ v.parts) : Alike u u := by
      have := ih u h (p := u.prov) rfl
      rwa [show u.withProv u.prov = u by cases u <;> rfl] at this
    cases v with
    | object q c fs =>
      refine .object origin c (.refl _) fun k v w hv hw => ?_
      cases hv.symm.trans hw
      exact self v (mem_parts_of_mem_fields (Entries.mem_of_get? hv))
    | list q xs =>
      refine .list origin rfl fun i x y hx hy => ?_
      cases hx.symm.trans hy
      exact self x (List.mem_of_getElem? hx)
    | concat q xs =>
      refine .concat origin rfl fun i x y hx hy => ?_
      cases hx.symm.trans hy
      exact self x (List.mem_of_getElem? hx)
    | merge q k xs =>
      refine .merge origin k rfl fun i x y hx hy => ?_
      cases hx.symm.trans hy
      exact self x (List.mem_of_getElem? hx)
    | null q => exact .null origin
    | bool q b => exact .bool origin b
    | number q n t => exact .number origin n t
    | string q t quoted => exact .string origin t quoted
    | reference q r => exact .reference origin r

theorem refl (v : Value) : Alike v v := by
  have := withProv v (p := v.prov) rfl
  rwa [show v.withProv v.prov = v by cases v <;> rfl] at this

/-- An object with its fields in another order. -/
theorem of_perm (p : Provenance) (c : Bool) {fs gs : Entries Value}
    (nodup : (Entries.keys fs).Nodup) (perm : fs.Perm gs) :
    Alike (Value.object p c fs) (Value.object p c gs) := by
  have keys : (Entries.keys fs).Perm (Entries.keys gs) := perm.map _
  refine .object rfl c keys fun k v w hv hw => ?_
  have same := perm.mem_iff.2 (Entries.mem_of_get? hw)
  cases hv.symm.trans (Entries.get?_of_mem nodup same)
  exact .refl v

theorem symm {v w : Value} (h : Alike v w) : Alike w v := by
  induction h with
  | null origin => exact .null origin.symm
  | bool origin b => exact .bool origin.symm b
  | number origin n t => exact .number origin.symm n t
  | string origin t quoted => exact .string origin.symm t quoted
  | reference origin r => exact .reference origin.symm r
  | object origin c keys _ ih =>
    exact .object origin.symm c keys.symm fun k v w hv hw => ih k w v hw hv
  | list origin length _ ih => exact .list origin.symm length.symm fun i x y hx hy => ih i y x hy hx
  | concat origin length _ ih =>
    exact .concat origin.symm length.symm fun i x y hx hy => ih i y x hy hx
  | merge origin k length _ ih =>
    exact .merge origin.symm k length.symm fun i x y hx hy => ih i y x hy hx

/-- Alike trees have an item in the same places. -/
theorem exists_getElem? {xs ys : List Value} (length : xs.length = ys.length) {i : Nat}
    {x : Value} (h : xs[i]? = some x) : ∃ y, ys[i]? = some y := by
  have lt : i < ys.length := length ▸ (List.getElem?_eq_some_iff.1 h).1
  exact ⟨ys[i], List.getElem?_eq_getElem lt⟩

/-- An item of the one is in a place where the other has an item too. -/
theorem exists_place {xs ys : List Value} (length : xs.length = ys.length) {y : Value}
    (hy : y ∈ ys) : ∃ (i : Nat) (x : Value), xs[i]? = some x ∧ ys[i]? = some y := by
  obtain ⟨i, hi⟩ := List.mem_iff_getElem?.1 hy
  obtain ⟨x, hx⟩ := exists_getElem? length.symm hi
  exact ⟨i, x, hx, hi⟩

theorem trans {u v w : Value} (huv : Alike u v) (hvw : Alike v w) : Alike u w := by
  induction huv generalizing w with
  | object origin c keys _ ih =>
    cases hvw with
    | object origin' _ keys' fields' =>
      refine .object (origin.trans origin') c (keys.trans keys') fun k x z hx hz => ?_
      obtain ⟨y, hy⟩ := Entries.exists_get?_of_mem_keys
        (keys.mem_iff.1 (Entries.mem_keys_of_get? hx))
      exact ih k x y hx hy (fields' k y z hy hz)
  | list origin length _ ih =>
    cases hvw with
    | list origin' length' items' =>
      refine .list (origin.trans origin') (length.trans length') fun i x z hx hz => ?_
      obtain ⟨y, hy⟩ := exists_getElem? length hx
      exact ih i x y hx hy (items' i y z hy hz)
  | concat origin length _ ih =>
    cases hvw with
    | concat origin' length' items' =>
      refine .concat (origin.trans origin') (length.trans length') fun i x z hx hz => ?_
      obtain ⟨y, hy⟩ := exists_getElem? length hx
      exact ih i x y hx hy (items' i y z hy hz)
  | merge origin k length _ ih =>
    cases hvw with
    | merge origin' _ length' items' =>
      refine .merge (origin.trans origin') k (length.trans length') fun i x z hx hz => ?_
      obtain ⟨y, hy⟩ := exists_getElem? length hx
      exact ih i x y hx hy (items' i y z hy hz)
  | null origin => cases hvw with | null origin' => exact .null (origin.trans origin')
  | bool origin b => cases hvw with | bool origin' => exact .bool (origin.trans origin') b
  | number origin n t =>
    cases hvw with | number origin' => exact .number (origin.trans origin') n t
  | string origin t quoted =>
    cases hvw with | string origin' => exact .string (origin.trans origin') t quoted
  | reference origin r =>
    cases hvw with | reference origin' => exact .reference (origin.trans origin') r

/-! ### What alike trees have in common -/

/-- Whatever holds of all items of a list holds of all items of a list alike. -/
theorem forall_mem {P : Value → Prop} {xs ys : List Value} (length : xs.length = ys.length)
    (h : ∀ (i : Nat) x y, xs[i]? = some x → ys[i]? = some y → P x → P y) (hx : ∀ x ∈ xs, P x) :
    ∀ y ∈ ys, P y := by
  intro y hy
  obtain ⟨i, x, hx', hy⟩ := exists_place length hy
  exact h i x y hx' hy (hx x (List.mem_of_getElem? hx'))

/-- Whatever holds of all fields of an object holds of all fields of an object alike, if each
key comes once. -/
theorem forall_fields {P : String → Value → Prop} {fs gs : Entries Value}
    (nodup : (Entries.keys fs).Nodup) (keys : (Entries.keys fs).Perm (Entries.keys gs))
    (h : ∀ k v w, Entries.get? fs k = some v → Entries.get? gs k = some w → P k v → P k w)
    (hf : ∀ k v, (k, v) ∈ fs → P k v) : ∀ k w, (k, w) ∈ gs → P k w := by
  intro k w hw
  have hw := Entries.get?_of_mem (keys.nodup_iff.1 nodup) hw
  obtain ⟨v, hv⟩ := Entries.exists_get?_of_mem_keys
    (keys.mem_iff.2 (Entries.mem_keys_of_get? hw))
  exact h k v w hv hw (hf k v (Entries.mem_of_get? hv))

theorem isPending_eq {v w : Value} (h : Alike v w) : w.isPending = v.isPending := by
  cases h <;> rfl

theorem isObjectValued_eq {v w : Value} (h : Alike v w) :
    w.isObjectValued = v.isObjectValued := by
  cases h with
  | merge _ k => cases k <;> rfl
  | _ => rfl

theorem fields?_isSome_eq {v w : Value} (h : Alike v w) :
    w.fields?.isSome = v.fields?.isSome := by
  cases h <;> rfl

end Alike

end Value

end Hocon
