import Mathlib.Data.List.Nodup
import Mathlib.Data.List.Perm.Subperm
import Hocon.Proofs.Doubles

/-!
# Equality is an equivalence

`Value.equals` compares trees node by node; two numbers may besides be one and the same node.  In
trees whose numbers are ordinary (`Number.Ordinary`) and whose marks belong to one table it decides
an equivalence (`Value.Equal`): the same digests of numbers, the same texts, the same fields in any
order.  Digests put the fields in order, so equal trees have the same digest
(`Value.equals_equivalence`).
-/

namespace Hocon

namespace Value

/-! ### Digests -/

/-- The digest of a number tells what equality asks for. -/
theorem digestNumber_eq_iff {a b : Number} : digestNumber a = digestNumber b
    ↔ a.toWhole? = b.toWhole? ∧ (a.toWhole? = none → a.toDouble = b.toDouble) := by
  unfold digestNumber
  cases a.toWhole? with
  | some m => cases b.toWhole? <;> simp
  | none =>
    cases b.toWhole? with
    | some n => simp
    | none =>
      refine ⟨fun h => ⟨rfl, fun _ => Double.bits_inj (Digit.bits.inj h)⟩, fun h => ?_⟩
      show Digit.bits a.toDouble.bits = Digit.bits b.toDouble.bits
      rw [h.2 rfl]

theorem fieldDigests_eq (fs : Entries Value) :
    fieldDigests fs = fs.map fun f => (f.1, f.2.digest) := by
  induction fs with
  | nil => rfl
  | cons f fs ih => rw [fieldDigests, ih, List.map_cons]

theorem keys_fieldDigests (fs : Entries Value) :
    Entries.keys (fieldDigests fs) = Entries.keys fs := by
  rw [fieldDigests_eq, Entries.keys, List.map_map]
  rfl

/-- In what order the fields were put in does not show once they are sorted. -/
theorem sortByKey_eq_of_perm {α : Type} {es es' : Entries α} (nodup : (Entries.keys es).Nodup)
    (perm : es.Perm es') : sortByKey es = sortByKey es' := by
  have sorted (es : Entries α) :
      (sortByKey es).Pairwise fun a b => (compare a.1 b.1).isLE = true := by
    refine List.pairwise_mergeSort (fun a b c => Std.TransCmp.isLE_trans) (fun a b => ?_) es
    have swap : compare b.1 a.1 = (compare a.1 b.1).swap := Std.OrientedOrd.eq_swap
    rw [swap]
    cases compare a.1 b.1 <;> rfl
  have perm' : (sortByKey es').Perm es := (List.mergeSort_perm es' _).trans perm.symm
  have same : (sortByKey es).Perm (sortByKey es') := (List.mergeSort_perm es _).trans perm'.symm
  refine List.Perm.eq_of_pairwise (fun a b ha hb hab hba => ?_) (sorted es) (sorted es') same
  -- two entries with one key are one entry
  have key : a.1 = b.1 :=
    Std.LawfulEqOrd.eq_of_compare (Std.OrientedCmp.isLE_antisymm hab hba)
  have left := Entries.get?_of_mem nodup ((List.mergeSort_perm es _).mem_iff.1 ha)
  have right := Entries.get?_of_mem nodup (perm'.mem_iff.1 hb)
  rw [key, right] at left
  exact Prod.ext key (Option.some.inj left.symm)

/-! ### Equal trees -/

/-- The same tree but for what equality does not look at. -/
inductive Equal : Value → Value → Prop
  | null (p q : Provenance) : Equal (null p) (null q)
  | bool (p q : Provenance) (b : Bool) : Equal (bool p b) (bool q b)
  | number (p q : Provenance) {m n : Number} (t u : Option String)
      (digest : digestNumber m = digestNumber n) : Equal (number p m t) (number q n u)
  | string (p q : Provenance) (t : String) (quoted quoted' : Bool) :
      Equal (string p t quoted) (string q t quoted')
  | object (p q : Provenance) (closed closed' : Bool) {fs gs : Entries Value}
      (keys : (Entries.keys fs).Perm (Entries.keys gs))
      (fields : ∀ k v w, Entries.get? fs k = some v → Entries.get? gs k = some w → Equal v w) :
      Equal (object p closed fs) (object q closed' gs)
  | list (p q : Provenance) {xs ys : List Value} (length : xs.length = ys.length)
      (items : ∀ (i : Nat) x y, xs[i]? = some x → ys[i]? = some y → Equal x y) :
      Equal (list p xs) (list q ys)
  | reference (p q : Provenance) {r s : Reference} (target : r.target = s.target) :
      Equal (reference p r) (reference q s)
  | concat (p q : Provenance) {xs ys : List Value} (length : xs.length = ys.length)
      (pieces : ∀ (i : Nat) x y, xs[i]? = some x → ys[i]? = some y → Equal x y) :
      Equal (concat p xs) (concat q ys)
  | merge (p q : Provenance) (k : MergeKind) {xs ys : List Value} (length : xs.length = ys.length)
      (layers : ∀ (i : Nat) x y, xs[i]? = some x → ys[i]? = some y → Equal x y) :
      Equal (merge p k xs) (merge q k ys)

namespace Equal

variable {u v w : Value}

theorem refl (v : Value) : Equal v v := by
  induction v using parts_induction with
  | node v ih =>
    have items {xs : List Value} (hxs : ∀ x ∈ xs, Equal x x) (i : Nat) (x y : Value)
        (hx : xs[i]? = some x) (hy : xs[i]? = some y) : Equal x y := by
      cases hx.symm.trans hy
      exact hxs x (List.mem_of_getElem? hx)
    cases v with
    | null p => exact .null p p
    | bool p b => exact .bool p p b
    | number p n t => exact .number p p t t rfl
    | string p t quoted => exact .string p p t quoted quoted
    | object p closed fs =>
      refine .object p p closed closed (.refl _) fun k x y hx hy => ?_
      cases hx.symm.trans hy
      exact ih x (mem_parts_of_mem_fields (Entries.mem_of_get? hx))
    | list p xs => exact .list p p rfl (items ih)
    | reference p r => exact .reference p p rfl
    | concat p ps => exact .concat p p rfl (items ih)
    | merge p k ls => exact .merge p p k rfl (items ih)

theorem symm (h : Equal v w) : Equal w v := by
  induction h with
  | null p q => exact .null q p
  | bool p q b => exact .bool q p b
  | number p q t u digest => exact .number q p u t digest.symm
  | string p q t quoted quoted' => exact .string q p t quoted' quoted
  | object p q closed closed' keys _ ih =>
    exact .object q p closed' closed keys.symm fun k x y hx hy => ih k y x hy hx
  | list p q length _ ih => exact .list q p length.symm fun i x y hx hy => ih i y x hy hx
  | reference p q target => exact .reference q p target.symm
  | concat p q length _ ih => exact .concat q p length.symm fun i x y hx hy => ih i y x hy hx
  | merge p q k length _ ih => exact .merge q p k length.symm fun i x y hx hy => ih i y x hy hx

theorem trans (huv : Equal u v) (hvw : Equal v w) : Equal u w := by
  induction huv generalizing w with
  | null p q =>
    cases hvw with
    | null _ r => exact .null p r
  | bool p q b =>
    cases hvw with
    | bool _ r => exact .bool p r b
  | number p q t t' digest =>
    cases hvw with
    | number _ r _ t'' digest' => exact .number p r t t'' (digest.trans digest')
  | string p q t quoted quoted' =>
    cases hvw with
    | string _ r _ _ quoted'' => exact .string p r t quoted quoted''
  | object p q closed closed' keys _ ih =>
    cases hvw with
    | object _ r _ closed'' keys' fields' =>
      refine .object p r closed closed'' (keys.trans keys') fun k x z hx hz => ?_
      obtain ⟨y, hy⟩ := Entries.exists_get?_of_mem_keys
        (keys.mem_iff.1 (Entries.mem_keys_of_get? hx))
      exact ih k x y hx hy (fields' k y z hy hz)
  | list p q length _ ih =>
    cases hvw with
    | list _ r length' items' =>
      refine .list p r (length.trans length') fun i x z hx hz => ?_
      obtain ⟨y, hy⟩ := Alike.exists_getElem? length hx
      exact ih i x y hx hy (items' i y z hy hz)
  | reference p q target =>
    cases hvw with
    | reference _ r target' => exact .reference p r (target.trans target')
  | concat p q length _ ih =>
    cases hvw with
    | concat _ r length' pieces' =>
      refine .concat p r (length.trans length') fun i x z hx hz => ?_
      obtain ⟨y, hy⟩ := Alike.exists_getElem? length hx
      exact ih i x y hx hy (pieces' i y z hy hz)
  | merge p q k length _ ih =>
    cases hvw with
    | merge _ r _ length' layers' =>
      refine .merge p r k (length.trans length') fun i x z hx hz => ?_
      obtain ⟨y, hy⟩ := Alike.exists_getElem? length hx
      exact ih i x y hx hy (layers' i y z hy hz)

end Equal

/-! ### Ordinary trees -/

/-- Whether a number is ordinary, and a key comes once in an object. -/
def isOrdinaryNode : Value → Bool
  | number _ n _ => n.Ordinary
  | object _ _ fs => (Entries.keys fs).Nodup
  | _ => true

/-- A tree of ordinary numbers whose marks are those of the table. -/
structure Ordinary (g : Table) (v : Value) : Prop where
  nodes : ∀ u : Value, u.Within v → u.isOrdinaryNode = true
  marks : v.Markable True g

namespace Ordinary

variable {g : Table} {v w : Value}

theorem number {p : Provenance} {n : Number} {t : Option String}
    (h : (number p n t).Ordinary g) : n.Ordinary :=
  of_decide_eq_true (h.nodes _ .self)

theorem nodup {p : Provenance} {closed : Bool} {fs : Entries Value}
    (h : (object p closed fs).Ordinary g) : (Entries.keys fs).Nodup :=
  of_decide_eq_true (h.nodes _ .self)

/-- Without marks it is enough to look at all nodes. -/
theorem of_unmarked
    (h : v.allNodes (fun u => u.isOrdinaryNode && u.mark.isNone) = true) : v.Ordinary g where
  nodes _ hu := ((Bool.and_eq_true _ _).mp (hu.check h)).1
  marks := .of_unmarked fun _ hu => Option.isNone_iff_eq_none.1
    ((Bool.and_eq_true _ _).mp (hu.check h)).2

theorem parts (h : v.Ordinary g) : ∀ u ∈ v.parts, u.Ordinary g := fun u hu =>
  ⟨fun x hx => h.nodes x (.trans hx (.part .self hu)), h.marks.parts u hu⟩

theorem field {p : Provenance} {closed : Bool} {fs : Entries Value}
    (h : (object p closed fs).Ordinary g) {k : String} {u : Value}
    (hu : Entries.get? fs k = some u) : u.Ordinary g :=
  h.parts u (mem_parts_of_mem_fields (Entries.mem_of_get? hu))

end Ordinary

/-! ### Equality decides it -/

variable {g : Table} {a b c v w : Value}

/-- One and the same node is one number. -/
theorem digestNumber_eq_of_sameNode {p q : Provenance} {m n : Number} {t u : Option String}
    (hm : (number p m t).Markable True g) (hn : (number q n u).Markable True g)
    (same : sameNode p q = true) : digestNumber m = digestNumber n := by
  obtain ⟨marked, mark⟩ := (Bool.and_eq_true _ _).mp same
  have mark : p.mark = q.mark := beq_iff_eq.1 mark
  have known {p : Provenance} {m : Number} {t : Option String}
      (h : (number p m t).Markable True g) (marked : p.mark.isSome = true) :
      (number p m t).Known g := by
    cases h with
    | known h => exact h
    | fresh fresh =>
      rw [show p.mark = none from fresh] at marked
      cases marked
  cases (known hm marked).eq_of_mark (known hn (mark ▸ marked)) mark
  rfl

theorem itemsEqual_iff {xs ys : List Value} : itemsEqual xs ys = true ↔ xs.length = ys.length
    ∧ ∀ (i : Nat) x y, xs[i]? = some x → ys[i]? = some y → x.equals y = true := by
  induction xs generalizing ys with
  | nil => cases ys <;> simp [itemsEqual]
  | cons x xs ih =>
    cases ys with
    | nil => simp [itemsEqual]
    | cons y ys =>
      rw [itemsEqual, Bool.and_eq_true, ih, List.length_cons, List.length_cons, Nat.succ_inj]
      constructor
      · rintro ⟨head, length, rest⟩
        refine ⟨length, fun i u v hu hv => ?_⟩
        cases i with
        | zero =>
          cases hu
          cases hv
          exact head
        | succ i => exact rest i u v hu hv
      · rintro ⟨length, all⟩
        exact ⟨all 0 x y rfl rfl, length, fun i => all (i + 1)⟩

/-- As many fields, each with an equal one: the same keys. -/
theorem keys_perm_of_fieldsEqual {fs gs : Entries Value} (nodup : (Entries.keys fs).Nodup)
    (length : fs.length = gs.length) (h : fieldsEqual fs gs = true) :
    (Entries.keys fs).Perm (Entries.keys gs) := by
  have subset : Entries.keys fs ⊆ Entries.keys gs := by
    intro k hk
    obtain ⟨f, hf, rfl⟩ := List.mem_map.1 hk
    obtain ⟨w, hw, -⟩ := fieldsEqual_iff.1 h f hf
    exact Entries.mem_keys_of_get? hw
  refine (List.subperm_of_subset nodup subset).perm_of_length_le ?_
  rw [Entries.keys, Entries.keys, List.length_map, List.length_map, length]

theorem equals_number_iff {p q : Provenance} {m n : Number} {t u : Option String}
    (hm : (number p m t).Ordinary g) (hn : (number q n u).Ordinary g) :
    (number p m t).equals (number q n u) = true ↔ Equal (number p m t) (number q n u) := by
  have numbers : m.equals n = true ↔ digestNumber m = digestNumber n :=
    (Number.equals_iff hm.number hn.number).trans digestNumber_eq_iff.symm
  show (m.equals n || sameNode p q) = true ↔ _
  rw [Bool.or_eq_true, numbers]
  refine ⟨fun h => ?_, fun h => ?_⟩
  · exact .number p q t u (h.elim id (digestNumber_eq_of_sameNode hm.marks hn.marks))
  · cases h with
    | number _ _ _ _ digest => exact .inl digest

/-- Objects are equal if their fields are. -/
theorem equals_object_iff {p q : Provenance} {closed closed' : Bool} {fs gs : Entries Value}
    (nodup : (Entries.keys fs).Nodup)
    (field : ∀ k x y, Entries.get? fs k = some x → Entries.get? gs k = some y →
      (x.equals y = true ↔ Equal x y)) :
    (object p closed fs).equals (object q closed' gs) = true
      ↔ Equal (object p closed fs) (object q closed' gs) := by
  rw [equals, Bool.and_eq_true, beq_iff_eq]
  constructor
  · rintro ⟨length, h⟩
    refine .object p q closed closed' (keys_perm_of_fieldsEqual nodup length h)
      fun k x y hx hy => ?_
    obtain ⟨y', hy', equal⟩ := fieldsEqual_iff.1 h (k, x) (Entries.mem_of_get? hx)
    cases hy.symm.trans hy'
    exact (field k x y hx hy).1 equal
  · intro h
    cases h with
    | object _ _ _ _ keys fields =>
      refine ⟨?_, fieldsEqual_iff.2 fun f hf => ?_⟩
      · have := keys.length_eq
        rwa [Entries.keys, Entries.keys, List.length_map, List.length_map] at this
      · have hx := Entries.get?_of_mem nodup hf
        obtain ⟨y, hy⟩ := Entries.exists_get?_of_mem_keys
          (keys.mem_iff.1 (Entries.mem_keys_of_get? hx))
        exact ⟨y, hy, (field f.1 f.2 y hx hy).2 (fields f.1 f.2 y hx hy)⟩

/-- **Equality decides whether trees are equal**, where numbers are ordinary. -/
theorem equals_iff_equal (hv : v.Ordinary g) (hw : w.Ordinary g) :
    v.equals w = true ↔ Equal v w := by
  induction v using parts_induction generalizing w with
  | node v ih =>
    have items (xs ys : List Value) (hxs : ∀ x ∈ xs, x ∈ v.parts) (hys : ∀ y ∈ ys, y ∈ w.parts) :
        itemsEqual xs ys = true ↔ xs.length = ys.length
          ∧ ∀ (i : Nat) x y, xs[i]? = some x → ys[i]? = some y → Equal x y := by
      rw [itemsEqual_iff]
      refine and_congr_right fun _ => forall_congr' fun i => forall_congr' fun x =>
        forall_congr' fun y => imp_congr_right fun hx => imp_congr_right fun hy => ?_
      have hx := hxs x (List.mem_of_getElem? hx)
      exact ih x hx (hv.parts x hx) (hw.parts y (hys y (List.mem_of_getElem? hy)))
    cases v with
    | null p =>
      cases w with
      | null q => exact iff_of_true rfl (.null p q)
      | _ => exact iff_of_false (by rintro ⟨⟩) (by rintro ⟨⟩)
    | bool p b =>
      cases w with
      | bool q b' =>
        refine ⟨fun h => ?_, fun h => ?_⟩
        · cases beq_iff_eq.1 h
          exact .bool p q b
        · cases h
          exact beq_iff_eq.2 rfl
      | _ => exact iff_of_false (by rintro ⟨⟩) (by rintro ⟨⟩)
    | number p m t =>
      cases w with
      | number q n u => exact equals_number_iff hv hw
      | _ => exact iff_of_false (by rintro ⟨⟩) (by rintro ⟨⟩)
    | string p t quoted =>
      cases w with
      | string q t' quoted' =>
        refine ⟨fun h => ?_, fun h => ?_⟩
        · cases beq_iff_eq.1 h
          exact .string p q t quoted quoted'
        · cases h
          exact beq_iff_eq.2 rfl
      | _ => exact iff_of_false (by rintro ⟨⟩) (by rintro ⟨⟩)
    | object p closed fs =>
      cases w with
      | object q closed' gs =>
        exact equals_object_iff hv.nodup fun k x y hx hy =>
          ih x (mem_parts_of_mem_fields (Entries.mem_of_get? hx)) (hv.field hx) (hw.field hy)
      | _ => exact iff_of_false (by rintro ⟨⟩) (by rintro ⟨⟩)
    | list p xs =>
      cases w with
      | list q ys =>
        rw [equals, items xs ys (fun _ => id) (fun _ => id)]
        refine ⟨fun h => .list p q h.1 h.2, fun h => ?_⟩
        cases h with
        | list _ _ length items => exact ⟨length, items⟩
      | _ => exact iff_of_false (by rintro ⟨⟩) (by rintro ⟨⟩)
    | reference p r =>
      cases w with
      | reference q r' =>
        rw [equals, beq_iff_eq]
        refine ⟨fun h => .reference p q h, fun h => ?_⟩
        cases h with
        | reference _ _ target => exact target
      | _ => exact iff_of_false (by rintro ⟨⟩) (by rintro ⟨⟩)
    | concat p xs =>
      cases w with
      | concat q ys =>
        rw [equals, items xs ys (fun _ => id) (fun _ => id)]
        refine ⟨fun h => .concat p q h.1 h.2, fun h => ?_⟩
        cases h with
        | concat _ _ length pieces => exact ⟨length, pieces⟩
      | _ => exact iff_of_false (by rintro ⟨⟩) (by rintro ⟨⟩)
    | merge p k xs =>
      cases w with
      | merge q k' ys =>
        rw [equals, Bool.and_eq_true, beq_iff_eq, items xs ys (fun _ => id) (fun _ => id)]
        refine ⟨fun h => ?_, fun h => ?_⟩
        · obtain ⟨rfl, length, layers⟩ := h
          exact .merge p q k length layers
        · cases h with
          | merge _ _ _ length layers => exact ⟨rfl, length, layers⟩
      | _ => exact iff_of_false (by rintro ⟨⟩) (by rintro ⟨⟩)

theorem itemDigests_eq_of {xs ys : List Value} (length : xs.length = ys.length)
    (h : ∀ (i : Nat) x y, xs[i]? = some x → ys[i]? = some y → x.digest = y.digest) :
    itemDigests xs = itemDigests ys := by
  induction xs generalizing ys with
  | nil =>
    cases ys with
    | nil => rfl
    | cons => cases length
  | cons x xs ih =>
    cases ys with
    | nil => cases length
    | cons y ys =>
      rw [itemDigests, itemDigests, h 0 x y rfl rfl, ih (Nat.succ.inj length) fun i => h (i + 1)]

/-- The digests of fields, in any order. -/
theorem fieldDigests_perm {fs gs : Entries Value} (nodup : (Entries.keys fs).Nodup)
    (nodup' : (Entries.keys gs).Nodup) (keys : (Entries.keys fs).Perm (Entries.keys gs))
    (h : ∀ k v w, Entries.get? fs k = some v → Entries.get? gs k = some w → v.digest = w.digest) :
    (fieldDigests fs).Perm (fieldDigests gs) := by
  have once {es : Entries Value} (nodup : (Entries.keys es).Nodup) : (fieldDigests es).Nodup := by
    rw [← keys_fieldDigests] at nodup
    exact nodup.of_map
  have mem {es es' : Entries Value} (nodup : (Entries.keys es).Nodup)
      (keys : (Entries.keys es).Perm (Entries.keys es'))
      (h : ∀ k v w, Entries.get? es k = some v → Entries.get? es' k = some w → v.digest = w.digest)
      (d : String × List Digit) (hd : d ∈ fieldDigests es) : d ∈ fieldDigests es' := by
    rw [fieldDigests_eq] at hd ⊢
    obtain ⟨f, hf, rfl⟩ := List.mem_map.1 hd
    obtain ⟨w, hw⟩ := Entries.exists_get?_of_mem_keys
      (keys.mem_iff.1 (List.mem_map_of_mem hf))
    refine List.mem_map.2 ⟨(f.1, w), Entries.mem_of_get? hw, ?_⟩
    rw [h f.1 f.2 w (Entries.get?_of_mem nodup hf) hw]
  refine (List.perm_ext_iff_of_nodup (once nodup) (once nodup')).2 fun d => ?_
  exact ⟨mem nodup keys h d, mem nodup' keys.symm (fun k v w hv hw => (h k w v hw hv).symm) d⟩

/-- Equal trees have the same digest. -/
theorem Equal.digest_eq (h : Equal v w) (hv : v.Ordinary g) (hw : w.Ordinary g) :
    v.digest = w.digest := by
  induction h with
  | null | bool | string => rfl
  | number p q t u digest => rw [Value.digest, Value.digest, digest]
  | @object p q closed closed' fs gs keys _ ih =>
    have perm := fieldDigests_perm hv.nodup hw.nodup keys fun k x y hx hy =>
      ih k x y hx hy (hv.field hx) (hw.field hy)
    have nodup : (Entries.keys (fieldDigests fs)).Nodup := (keys_fieldDigests fs).symm ▸ hv.nodup
    rw [Value.digest, Value.digest, sortByKey_eq_of_perm nodup perm]
  | reference p q target => rw [Value.digest, Value.digest, target]
  | list p q length _ ih | concat p q length _ ih | merge p q k length _ ih =>
    rw [Value.digest, Value.digest, length, itemDigests_eq_of length fun i x y hx hy =>
      ih i x y hx hy (hv.parts x (List.mem_of_getElem? hx)) (hw.parts y (List.mem_of_getElem? hy))]

/-- **Equality is an equivalence that digests respect**, for trees of ordinary numbers. -/
theorem equals_equivalence (ha : a.Ordinary g) (hb : b.Ordinary g) (hc : c.Ordinary g) :
    a.equals a = true ∧ (a.equals b = true → b.equals a = true)
      ∧ (a.equals b = true → b.equals c = true → a.equals c = true)
      ∧ (a.equals b = true → a.digest = b.digest) := by
  refine ⟨(equals_iff_equal ha ha).2 (.refl a), fun hab => ?_, fun hab hbc => ?_, fun hab => ?_⟩
  · exact (equals_iff_equal hb ha).2 ((equals_iff_equal ha hb).1 hab).symm
  · have hac := ((equals_iff_equal ha hb).1 hab).trans ((equals_iff_equal hb hc).1 hbc)
    exact (equals_iff_equal ha hc).2 hac
  · exact ((equals_iff_equal ha hb).1 hab).digest_eq ha hb

/-- The same fields in another order, with a number of the other kind. -/
theorem equals_equivalence_example :
    let p : Provenance := { origin := .named "test" }
    let one := Double.ofInt 1
    let a := object p false [("x", .number p (.whole 1) none), ("y", .list p [.bool p true])]
    let b := object p false [("y", .list p [.bool p true]), ("x", .number p (.double one) none)]
    let c := object p true [("x", .number p (.whole 1) (some "01")), ("y", .list p [.bool p true])]
    a.Ordinary (fun _ => none) ∧ b.Ordinary (fun _ => none) ∧ c.Ordinary (fun _ => none)
      ∧ a.equals b = true ∧ b.equals c = true ∧ a.equals a = true ∧ b.equals a = true
      ∧ a.equals c = true ∧ a.digest = b.digest := by
  intro p one a b c
  have ha : a.Ordinary (fun _ => none) := .of_unmarked (by decide +kernel)
  have hb : b.Ordinary (fun _ => none) := .of_unmarked (by decide +kernel)
  have hc : c.Ordinary (fun _ => none) := .of_unmarked (by decide +kernel)
  have hab : a.equals b = true := by decide +kernel
  have hbc : b.equals c = true := by decide +kernel
  obtain ⟨self, symm, trans, digest⟩ := equals_equivalence ha hb hc
  exact ⟨ha, hb, hc, hab, hbc, self, symm hab, trans hab hbc, digest hab⟩

/-- The greatest whole number of 64 bits, the one before it, and the double right behind both. -/
theorem equals_equivalence_counterexample :
    let p : Provenance := { origin := .named "test" }
    let greatest := number p (.whole Int64.maxValue) none
    let before := number p (.whole (Int64.maxValue - 1)) none
    let behind := number p (.double (Double.ofInt (2 ^ 63))) none
    greatest.equals behind = true ∧ behind.equals before = true ∧ greatest.equals before = false
      ∧ greatest.digest ≠ behind.digest := by
  decide +kernel

end Value

end Hocon
