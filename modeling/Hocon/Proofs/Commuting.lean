import Hocon.Proofs.Rewriting
import Hocon.Proofs.Shapes

/-!
# Moving commutes with merging and joining

An included document is moved under the path of the field that includes it, and what it holds is
merged and joined with what stands around.  Trees may as well be moved before that or after it
(`Value.relocate_commutes`): moving changes references and nothing else, and no reference is looked
at before it is resolved.  A part without references stays the very same node where a tree is moved,
and so do the parts that merging leaves alone.
-/

namespace Hocon

namespace Value

variable (place : Path)

/-! ### What moving leaves alone -/

theorem origin_relocate (v : Value) : (v.relocate place).origin = v.origin := by
  cases v <;> unfold relocate <;> first | rfl | (split <;> rfl)

theorem isBlankText_relocate (v : Value) : (v.relocate place).isBlankText = v.isBlankText := by
  cases v <;> unfold relocate <;> first | rfl | (split <;> rfl)

theorem joinText?_relocate (nullIsEmpty : Bool) (v : Value) :
    joinText? nullIsEmpty (v.relocate place) = joinText? nullIsEmpty v := by
  cases v <;> unfold relocate <;> first | rfl | (split <;> rfl)

/-- The fields of what is moved are moved, whether any of them waits or not. -/
theorem fields?_relocate_eq (v : Value) :
    (v.relocate place).fields? = v.fields?.map (Entries.mapValues (relocate place)) := by
  cases v with
  | object p closed fs =>
    obtain ⟨q, eq, -⟩ := exists_relocate_object p closed fs place
    rw [eq, relocateFields_eq]
    rfl
  | _ => unfold relocate; first | rfl | (split <;> rfl)

theorem items?_relocate (v : Value) :
    (v.relocate place).items? = v.items?.map (List.map (relocate place)) := by
  cases v with
  | list p xs =>
    obtain ⟨q, eq, -⟩ := exists_relocate_list p xs place
    rw [eq, relocateItems_eq]
    rfl
  | _ => unfold relocate; first | rfl | (split <;> rfl)

theorem layers_relocate (v : Value) :
    (v.relocate place).layers = v.layers.map (relocate place) := by
  cases v with
  | merge p k ls => rw [relocate, relocateItems_eq]; rfl
  | object p closed fs =>
    obtain ⟨q, eq, -⟩ := exists_relocate_object p closed fs place
    simp only [layers, eq, List.map_cons, List.map_nil]
  | list p xs =>
    obtain ⟨q, eq, -⟩ := exists_relocate_list p xs place
    simp only [layers, eq, List.map_cons, List.map_nil]
  | _ => unfold relocate; rfl

theorem flattenPieces_relocate (v : Value) :
    flattenPieces [v.relocate place] = (flattenPieces [v]).map (relocate place) := by
  cases v with
  | concat p ps => simp [flattenPieces, relocate, relocateItems_eq]
  | object p closed fs =>
    obtain ⟨q, eq, -⟩ := exists_relocate_object p closed fs place
    simp [flattenPieces, eq]
  | list p xs =>
    obtain ⟨q, eq, -⟩ := exists_relocate_list p xs place
    simp [flattenPieces, eq]
  | _ => unfold relocate; rfl

/-! ### New nodes -/

/-- A new object is not told from the one that is made anew. -/
theorem relocate_new_object (o : Origin) (closed : Bool) (fs : Entries Value) :
    (object { origin := o } closed fs).relocate place
      = object { origin := o } closed (Entries.mapValues (relocate place) fs) := by
  rw [relocate]
  split
  · next resolved =>
    have same : fs.map (fun f => (f.1, f.2.relocate place)) = fs.map id :=
      List.map_congr_left fun f hf =>
        Prod.ext rfl (relocate_of_isResolved (fieldsResolved_iff.1 resolved f hf) place)
    rw [Entries.mapValues, same, List.map_id]
  · rw [relocateFields_eq]
    rfl

theorem relocate_ofItems (o : Origin) (xs : List Value) :
    (ofItems o xs).relocate place = ofItems o (xs.map (relocate place)) := by
  rw [ofItems, relocate]
  split
  · next resolved =>
    have same : xs.map (relocate place) = xs.map id :=
      List.map_congr_left fun x hx =>
        relocate_of_isResolved (itemsResolved_iff.1 resolved x hx) place
    rw [same, List.map_id]
    rfl
  · rw [relocateItems_eq]
    rfl

end Value

open Value in
/-- Moving trees is a change that merging and joining do not notice. -/
def Rewriting.moving (place : Path) : Rewriting where
  of := relocate place
  origin := id
  origin_of := origin_relocate place
  origin_merge := Function.Semiconj₂.id_left Origin.merge
  origin_nothing := id_eq _
  fields?_of := fields?_relocate_eq place
  items?_of := items?_relocate place
  layers_of := layers_relocate place
  pieces_of := flattenPieces_relocate place
  isPending_of v := isPending_relocate v place
  isObjectValued_of v := isObjectValued_relocate v place
  isResolved_of v := isResolved_relocate v place
  ignoresFallbacks_of v := ignoresFallbacks_relocate v place
  isBlankText_of := isBlankText_relocate place
  joinText?_of := joinText?_relocate place
  new_object := relocate_new_object place
  new_list := relocate_ofItems place
  new_text _ _ := by unfold ofText relocate; rfl
  new_concat _ _ := by rw [relocate, relocateItems_eq]; rfl
  new_merge _ _ _ := by rw [relocate, relocateItems_eq]; rfl

/-! ### Moving twice -/

/-- The path of the second move comes in front of that of the first. -/
theorem Path.prepend_prepend (p q r : Path) :
    (p.prepend q).prepend r = p.prepend (q.prepend r) := by
  simp only [Path.prepend, Path.keys, List.append_assoc, List.cons_append]

theorem Path.length_prepend (p q : Path) : (p.prepend q).length = p.length + q.length := by
  rw [Path.length, Path.keys_prepend, List.length_append, Nat.add_comm]
  rfl

namespace Value

theorem relocate_relocate (v : Value) (p q : Path) :
    (v.relocate p).relocate q = v.relocate (p.prepend q) := by
  induction v using parts_induction with
  | node v ih =>
    have items {xs : List Value}
        (h : ∀ x ∈ xs, (x.relocate p).relocate q = x.relocate (p.prepend q)) :
        relocateItems q (relocateItems p xs) = relocateItems (p.prepend q) xs := by
      simp only [relocateItems_eq, List.map_map]
      exact List.map_congr_left h
    cases hv : v.isResolved with
    | true =>
      rw [relocate_of_isResolved hv p, relocate_of_isResolved hv q, relocate_of_isResolved hv]
    | false =>
      have waits : (v.relocate p).isResolved = false := (isResolved_relocate v p).trans hv
      cases v with
      | object o closed fs =>
        have fields : relocateFields q (relocateFields p fs) = relocateFields (p.prepend q) fs := by
          simp only [relocateFields_eq, List.map_map]
          exact List.map_congr_left fun f hf =>
            Prod.ext rfl (ih f.2 (mem_parts_of_mem_fields hf))
        rw [isResolved] at hv
        rw [relocate, hv, if_neg Bool.false_ne_true] at waits ⊢
        rw [isResolved] at waits
        rw [relocate, waits, if_neg Bool.false_ne_true, fields, relocate, hv,
          if_neg Bool.false_ne_true]
      | list o xs =>
        rw [isResolved] at hv
        rw [relocate, hv, if_neg Bool.false_ne_true] at waits ⊢
        rw [isResolved] at waits
        rw [relocate, waits, if_neg Bool.false_ne_true, items (show ∀ x ∈ xs, _ from ih), relocate,
          hv, if_neg Bool.false_ne_true]
      | reference o r =>
        simp only [relocate, Path.prepend_prepend, Path.length_prepend, Nat.add_assoc]
      | concat o ps =>
        rw [relocate, relocate, relocate, items (show ∀ x ∈ ps, _ from ih)]
      | merge o k ls =>
        rw [relocate, relocate, relocate, items (show ∀ x ∈ ls, _ from ih)]
      | _ => cases hv

/-- **Moving commutes** with merging, and with joining, which fails for trees if it fails for the
moved ones; and to move twice is to move once, by both paths. -/
theorem relocate_commutes (v w : Value) (ps : List Value) (p q : Path) :
    (v.withFallback w).relocate p = (v.relocate p).withFallback (w.relocate p)
      ∧ (concatenate (ps.map (relocate p))).toOption
        = (concatenate ps).toOption.map (Option.map (relocate p))
      ∧ (v.relocate p).relocate q = v.relocate (p.prepend q) :=
  ⟨((Rewriting.moving p).withFallback_of v w).symm, (Rewriting.moving p).concatenate_of ps,
    relocate_relocate v p q⟩

end Value

end Hocon
