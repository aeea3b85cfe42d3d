import Hocon.Proofs.Relabelling

/-!
# Trees with other marks

A mark is nothing but a name of a node.  Which names there are does not matter to anything that is
done to trees, as long as different nodes keep different names: to merge, to join or to look
through trees with other marks gives what it gives without, with other marks (`Value.remark`).
Giving marks goes by the next one that is free, so it takes more than that.  From some mark on, the
next mark has to become the next one again (`Remarking.succ`).
-/

namespace Hocon

/-- Other marks in place of marks: different ones for different ones, and from `low` on the next
one for the next one. -/
structure Remarking where
  low : Nat
  of : Nat → Nat
  injective : Function.Injective of
  succ : ∀ n, low ≤ n → of (n + 1) = of n + 1

/-- The marks from `low` on are put up by `gap`. -/
def Remarking.shift (low gap : Nat) : Remarking where
  low := low
  of n := if n < low then n else n + gap
  injective m n h := by
    simp only [] at h
    split at h <;> split at h <;> omega
  succ n h := by
    rw [if_neg (by omega), if_neg (by omega)]
    omega

/-! ### Other marks -/

variable {σ : Remarking}

def Provenance.remark (σ : Remarking) (p : Provenance) : Provenance :=
  { p with mark := p.mark.map σ.of }

/-- Other marks, and the same origins. -/
def Remarking.relabelling (σ : Remarking) : Relabelling where
  of := Provenance.remark σ
  origin := id
  origin_of _ := rfl
  fresh _ := rfl
  merge _ _ := rfl
  nothing := rfl

namespace Value

mutual

/-- The tree with other marks. -/
def remark (σ : Remarking) : Value → Value
  | null p => null (p.remark σ)
  | bool p b => bool (p.remark σ) b
  | number p n t => number (p.remark σ) n t
  | string p t quoted => string (p.remark σ) t quoted
  | reference p r => reference (p.remark σ) r
  | object p closed fs => object (p.remark σ) closed (remarkFields σ fs)
  | list p xs => list (p.remark σ) (remarkItems σ xs)
  | concat p ps => concat (p.remark σ) (remarkItems σ ps)
  | merge p k ls => merge (p.remark σ) k (remarkItems σ ls)

def remarkFields (σ : Remarking) : Entries Value → Entries Value
  | [] => []
  | (k, v) :: fs => (k, v.remark σ) :: remarkFields σ fs

def remarkItems (σ : Remarking) : List Value → List Value
  | [] => []
  | v :: vs => v.remark σ :: remarkItems σ vs

end

variable {u v w : Value}

@[simp] theorem remarkFields_eq (fs : Entries Value) :
    remarkFields σ fs = Entries.mapValues (remark σ) fs := by
  induction fs with
  | nil => rfl
  | cons f fs ih => rw [remarkFields, ih]; rfl

@[simp] theorem remarkItems_eq (vs : List Value) : remarkItems σ vs = vs.map (remark σ) := by
  induction vs with
  | nil => rfl
  | cons v vs ih => rw [remarkItems, ih]; rfl

theorem remark_object (p : Provenance) (closed : Bool) (fs : Entries Value) :
    (object p closed fs).remark σ
      = object (p.remark σ) closed (Entries.mapValues (remark σ) fs) := by
  rw [remark, remarkFields_eq]

theorem remark_list (p : Provenance) (xs : List Value) :
    (list p xs).remark σ = list (p.remark σ) (xs.map (remark σ)) := by
  rw [remark, remarkItems_eq]

theorem remark_concat (p : Provenance) (ps : List Value) :
    (concat p ps).remark σ = concat (p.remark σ) (ps.map (remark σ)) := by
  rw [remark, remarkItems_eq]

theorem remark_merge (p : Provenance) (k : MergeKind) (ls : List Value) :
    (merge p k ls).remark σ = merge (p.remark σ) k (ls.map (remark σ)) := by
  rw [remark, remarkItems_eq]

/-! ### What stays the same -/

@[simp] theorem mark_remark (v : Value) : (v.remark σ).mark = v.mark.map σ.of := by
  cases v <;> rfl

@[simp] theorem origin_remark (v : Value) : (v.remark σ).origin = v.origin := by
  cases v <;> rfl

/-- Other marks are other labels. -/
theorem remark_eq_relabel (v : Value) : v.remark σ = v.relabel σ.relabelling := by
  induction v using parts_induction with
  | node v ih =>
    have parts : v.parts.map (remark σ) = v.parts.map (relabel σ.relabelling) :=
      List.map_congr_left ih
    cases v with
    | object p closed fs =>
      have fields : Entries.mapValues (remark σ) fs
          = Entries.mapValues (relabel σ.relabelling) fs :=
        List.map_congr_left fun f hf => Prod.ext rfl (ih f.2 (mem_parts_of_mem_fields hf))
      rw [remark_object, relabel_object, fields]
      rfl
    | list p xs =>
      rw [remark_list, relabel_list]
      exact congrArg (list _) parts
    | concat p ps =>
      rw [remark_concat, relabel_concat]
      exact congrArg (concat _) parts
    | merge p k ls =>
      rw [remark_merge, relabel_merge]
      exact congrArg (merge _ k) parts
    | _ => rfl

theorem remark_eq : remark σ = relabel σ.relabelling := funext remark_eq_relabel

@[simp] theorem isPending_remark (v : Value) : (v.remark σ).isPending = v.isPending := by
  rw [remark_eq, isPending_relabel]

@[simp] theorem isObjectValued_remark (v : Value) :
    (v.remark σ).isObjectValued = v.isObjectValued := by
  rw [remark_eq, isObjectValued_relabel]

@[simp] theorem fields?_remark (v : Value) :
    (v.remark σ).fields? = v.fields?.map (Entries.mapValues (remark σ)) := by
  rw [remark_eq, fields?_relabel]

@[simp] theorem parts_remark (v : Value) : (v.remark σ).parts = v.parts.map (remark σ) := by
  rw [remark_eq, parts_relabel]

@[simp] theorem isResolved_remark (v : Value) : (v.remark σ).isResolved = v.isResolved := by
  rw [remark_eq, isResolved_relabel]

theorem fieldsResolved_remark (fs : Entries Value) :
    fieldsResolved (Entries.mapValues (remark σ) fs) = fieldsResolved fs := by
  rw [remark_eq, fieldsResolved_relabel]

theorem itemsResolved_remark (xs : List Value) :
    itemsResolved (xs.map (remark σ)) = itemsResolved xs := by
  rw [remark_eq, itemsResolved_relabel]

@[simp] theorem ignoresFallbacks_remark (v : Value) :
    (v.remark σ).ignoresFallbacks = v.ignoresFallbacks := by
  rw [remark_eq, ignoresFallbacks_relabel]

/-- A tree whose marks stay is the same tree. -/
theorem remark_eq_self {g : Table} (h : v.Known g) (fixed : ∀ n u, g n = some u → σ.of n = n) :
    v.remark σ = v := by
  induction v using parts_induction with
  | node v ih =>
    obtain ⟨n, mark, entry⟩ := h.exists_mark
    have prov : v.prov.remark σ = v.prov := by
      rw [Provenance.remark, show v.prov.mark = some n from mark, Option.map_some, fixed n v entry]
      exact congrArg (Provenance.mk v.prov.origin) mark.symm
    have part (u : Value) (hu : u ∈ v.parts) : u.remark σ = u := ih u hu (h.parts u hu)
    have parts : v.parts.map (remark σ) = v.parts :=
      (List.map_congr_left part).trans (List.map_id _)
    cases v with
    | object p closed fs =>
      have fields : Entries.mapValues (remark σ) fs = fs :=
        (List.map_congr_left fun f hf =>
          show (f.1, f.2.remark σ) = id f from Prod.ext rfl (part _ (mem_parts_of_mem_fields hf))).trans
          (List.map_id _)
      rw [remark_object, fields]
      exact congrArg (object · closed fs) prov
    | list p xs =>
      rw [remark_list]
      exact congrArg₂ list prov parts
    | concat p ps =>
      rw [remark_concat]
      exact congrArg₂ concat prov parts
    | merge p k ls =>
      rw [remark_merge]
      exact congrArg₂ (merge · k) prov parts
    | null p => exact congrArg null prov
    | bool p b => exact congrArg (bool · b) prov
    | number p n t => exact congrArg (number · n t) prov
    | string p t quoted => exact congrArg (string · t quoted) prov
    | reference p r => exact congrArg (reference · r) prov

/-- Other marks are all that is different. -/
theorem alike_remark (v : Value) : v.Alike (v.remark σ) := by
  induction v using parts_induction with
  | node v ih =>
    have origin (p : Provenance) : p.origin = (p.remark σ).origin := rfl
    have part (i : Nat) (x y : Value) (hx : v.parts[i]? = some x)
        (hy : (v.parts.map (remark σ))[i]? = some y) : x.Alike y := by
      rw [List.getElem?_map, hx] at hy
      cases hy
      exact ih x (List.mem_of_getElem? hx)
    have length : v.parts.length = (v.parts.map (remark σ)).length := (List.length_map (remark σ)).symm
    cases v with
    | object p closed fs =>
      rw [remark_object]
      refine .object (origin p) closed ?_ fun k x y hx hy => ?_
      · rw [Entries.keys_mapValues]
      · rw [Entries.get?_mapValues, hx] at hy
        cases hy
        exact ih x (mem_parts_of_mem_fields (Entries.mem_of_get? hx))
    | list p xs =>
      rw [remark_list]
      exact .list (origin p) length part
    | concat p ps =>
      rw [remark_concat]
      exact .concat (origin p) length part
    | merge p k ls =>
      rw [remark_merge]
      exact .merge (origin p) k length part
    | null p => exact .null (origin p)
    | bool p b => exact .bool (origin p) b
    | number p n t => exact .number (origin p) n t
    | string p t quoted => exact .string (origin p) t quoted
    | reference p r => exact .reference (origin p) r

/-! ### Merging and joining -/

theorem withFallback_remark (v w : Value) :
    (v.remark σ).withFallback (w.remark σ) = (v.withFallback w).remark σ := by
  rw [remark_eq, withFallback_relabel]

theorem mergeLayers?_remark (ls : List Value) :
    mergeLayers? (ls.map (remark σ)) = (mergeLayers? ls).map (remark σ) := by
  rw [remark_eq, mergeLayers?_relabel]

theorem joinRun_remark {nullIsEmpty : Bool} {ps ws : List Value}
    (h : joinRun nullIsEmpty ps = .ok ws) :
    joinRun nullIsEmpty (ps.map (remark σ)) = .ok (ws.map (remark σ)) := by
  have run := joinRun_relabel (L := σ.relabelling) nullIsEmpty ps
  rw [← remark_eq, h] at run
  generalize joinRun nullIsEmpty (ps.map (remark σ)) = x at run ⊢
  cases x with
  | error => cases run
  | ok => exact congrArg Except.ok (Option.some.inj run)

/-! ### Looking through -/

theorem peekLayers_remark {path : Path} {o : Origin} {ls : List Value} {found : Option Value}
    (h : peekLayers path o ls = .ok found) :
    peekLayers path o (ls.map (remark σ)) = .ok (found.map (remark σ)) := by
  induction ls with
  | nil => cases h
  | cons l ls ih =>
    rw [peekLayers] at h
    rw [List.map_cons, peekLayers, fields?_remark]
    cases hf : l.fields? with
    | none =>
      simp only [hf, Option.map_none, isPending_remark] at h ⊢
      split_ifs at h ⊢
      cases h
      rfl
    | some fs =>
      simp only [hf, Option.map_some, Entries.get?_mapValues] at h ⊢
      cases hg : Entries.get? fs path.first with
      | none =>
        simp only [hg, Option.map_none] at h ⊢
        exact ih h
      | some v =>
        simp only [hg, Option.map_some, ignoresFallbacks_remark] at h ⊢
        split_ifs at h ⊢
        · cases h
          rfl
        · exact ih h

theorem peekFirst_remark {path : Path} {found : Option Value} (h : v.peekFirst path = .ok found) :
    (v.remark σ).peekFirst path = .ok (found.map (remark σ)) := by
  cases v with
  | object p closed fs =>
    cases h
    rw [remark_object, peekFirst, Entries.get?_mapValues]
  | merge p k ls =>
    cases k with
    | object =>
      rw [remark_merge]
      exact peekLayers_remark h
    | value =>
      cases h
      rfl
  | _ =>
    cases h
    rfl

theorem peekThrough_remark {first : String} {rest : List String} {found : Option Value}
    (h : v.peekThrough first rest = .ok found) :
    (v.remark σ).peekThrough first rest = .ok (found.map (remark σ)) := by
  induction rest generalizing v first with
  | nil => exact peekFirst_remark h
  | cons next rest ih =>
    rw [peekThrough] at h ⊢
    cases hx : v.peekFirst ⟨first, next :: rest⟩ with
    | error e => simp [hx, bind, Except.bind] at h
    | ok x =>
      rw [peekFirst_remark hx]
      cases x with
      | none =>
        simp only [hx, bind, Except.bind, pure, Except.pure, Except.ok.injEq] at h
        cases h
        rfl
      | some x =>
        simp only [hx, bind, Except.bind, Option.map_some, isObjectValued_remark] at h ⊢
        split_ifs at h ⊢
        · exact ih h
        · cases h
          rfl

/-! ### Marking -/

/-- Marking with other marks from the other mark on comes to the same. -/
def MarksAlong (σ : Remarking) (v : Value) : Prop :=
  ∀ n, σ.low ≤ n → (v.remark σ).markFrom (σ.of n)
    = ((v.markFrom n).1.remark σ, σ.of (v.markFrom n).2)

theorem markItems_remark {xs : List Value} (h : ∀ x ∈ xs, MarksAlong σ x) {n : Nat}
    (le : σ.low ≤ n) :
    markItems (σ.of n) (xs.map (remark σ))
      = ((markItems n xs).1.map (remark σ), σ.of (markItems n xs).2) := by
  induction xs generalizing n with
  | nil => rfl
  | cons x xs ih =>
    obtain ⟨hx, h⟩ := List.forall_mem_cons.1 h
    rw [List.map_cons, markItems, markItems]
    simp only [hx n le, ih h (Nat.le_trans le (le_markFrom x n)), List.map_cons]

theorem markFields_remark {fs : Entries Value} (h : ∀ f ∈ fs, MarksAlong σ f.2) {n : Nat}
    (le : σ.low ≤ n) :
    markFields (σ.of n) (Entries.mapValues (remark σ) fs)
      = (Entries.mapValues (remark σ) (markFields n fs).1, σ.of (markFields n fs).2) := by
  induction fs generalizing n with
  | nil => rfl
  | cons f fs ih =>
    obtain ⟨key, x⟩ := f
    obtain ⟨hx, h⟩ := List.forall_mem_cons.1 h
    show markFields _ ((key, x.remark σ) :: Entries.mapValues (remark σ) fs) = _
    rw [markFields, markFields]
    simp only [hx n le, ih h (Nat.le_trans le (le_markFrom x n))]
    rfl

theorem markFrom_remark (v : Value) : MarksAlong σ v := by
  induction v using parts_induction with
  | node v ih =>
    intro n le
    cases mark : v.mark with
    | some k =>
      have mark' : (v.remark σ).mark = some (σ.of k) := by rw [mark_remark, mark]; rfl
      rw [markFrom_of_mark mark, markFrom_of_mark mark']
    | none =>
      have unmarked : ¬ v.prov.isMarked = true := by
        rw [Provenance.isMarked, show v.prov.mark = none from mark]
        exact Bool.false_ne_true
      have unmarked' : ¬ (v.prov.remark σ).isMarked = true := by
        rwa [Provenance.isMarked, Provenance.remark, Option.isSome_map]
      have items := markItems_remark ih (Nat.le_succ_of_le le)
      rw [σ.succ n le] at items
      cases v <;> simp only [prov, parts] at unmarked unmarked' items
        <;> rw [remark, markFrom, if_neg unmarked', markFrom, if_neg unmarked]
      case object p closed fs =>
        have fields := markFields_remark
          (fun f hf => ih f.2 (mem_parts_of_mem_fields hf)) (Nat.le_succ_of_le le)
        rw [σ.succ n le] at fields
        simp only [remarkFields_eq, fields, remark]
        rfl
      case list | concat | merge =>
        simp only [remarkItems_eq, items, remark]
        rfl
      all_goals
        rw [← σ.succ n le]
        rfl

theorem referenceMarks_remark (v : Value) :
    (v.remark σ).referenceMarks = v.referenceMarks.map σ.of := by
  induction v using parts_induction with
  | node v ih =>
    have below : (v.remark σ).parts.flatMap referenceMarks
        = (v.parts.flatMap referenceMarks).map σ.of := by
      rw [parts_remark, List.flatMap_map, List.map_flatMap, List.flatMap_def, List.flatMap_def,
        List.map_congr_left ih]
    rw [referenceMarks_eq, referenceMarks_eq v]
    cases v with
    | reference p r => cases h : p.mark <;> simp [remark, Provenance.remark, h]
    | _ => exact below

end Value

end Hocon
