import Mathlib.Logic.Function.Basic
import Hocon.Proofs.References
import Hocon.Proofs.Including
import Hocon.Proofs.Rewriting

/-!
# Trees with other labels

Nothing that is done to trees looks at where their nodes come from.  To merge, to join or to move
trees whose nodes are labelled in another way gives what it gives without, labelled in that way
(`Value.relabel`), as long as the origins of nodes made of several are relabelled along with them.
-/

namespace Hocon

/-! ### Other labels -/

/-- Other labels in place of labels: origins are merged as before, and a new node stays one. -/
structure Relabelling where
  of : Provenance → Provenance
  origin : Origin → Origin
  origin_of : ∀ p, (of p).origin = origin p.origin
  fresh : ∀ o, of { origin := o } = { origin := origin o }
  merge : ∀ a b, origin (a.merge b) = (origin a).merge (origin b)
  /-- What is made of nothing has an origin all the same. -/
  nothing : origin (Value.mergedOrigin []) = Value.mergedOrigin []

variable {L : Relabelling}

namespace Value

mutual

/-- The tree with other labels. -/
def relabel (L : Relabelling) : Value → Value
  | null p => null (L.of p)
  | bool p b => bool (L.of p) b
  | number p n t => number (L.of p) n t
  | string p t quoted => string (L.of p) t quoted
  | reference p r => reference (L.of p) r
  | object p closed fs => object (L.of p) closed (relabelFields L fs)
  | list p xs => list (L.of p) (relabelItems L xs)
  | concat p ps => concat (L.of p) (relabelItems L ps)
  | merge p k ls => merge (L.of p) k (relabelItems L ls)

def relabelFields (L : Relabelling) : Entries Value → Entries Value
  | [] => []
  | (k, v) :: fs => (k, v.relabel L) :: relabelFields L fs

def relabelItems (L : Relabelling) : List Value → List Value
  | [] => []
  | v :: vs => v.relabel L :: relabelItems L vs

end

variable {u v w : Value}

@[simp] theorem relabelFields_eq (fs : Entries Value) :
    relabelFields L fs = Entries.mapValues (relabel L) fs := by
  induction fs with
  | nil => rfl
  | cons f fs ih => exact congrArg ((f.1, f.2.relabel L) :: ·) ih

@[simp] theorem relabelItems_eq (vs : List Value) : relabelItems L vs = vs.map (relabel L) := by
  induction vs with
  | nil => rfl
  | cons v vs ih => exact congrArg (v.relabel L :: ·) ih

theorem relabel_object (p : Provenance) (closed : Bool) (fs : Entries Value) :
    (object p closed fs).relabel L
      = object (L.of p) closed (Entries.mapValues (relabel L) fs) :=
  congrArg (object (L.of p) closed) (relabelFields_eq fs)

theorem relabel_list (p : Provenance) (xs : List Value) :
    (list p xs).relabel L = list (L.of p) (xs.map (relabel L)) :=
  congrArg (list (L.of p)) (relabelItems_eq xs)

theorem relabel_concat (p : Provenance) (ps : List Value) :
    (concat p ps).relabel L = concat (L.of p) (ps.map (relabel L)) :=
  congrArg (concat (L.of p)) (relabelItems_eq ps)

theorem relabel_merge (p : Provenance) (k : MergeKind) (ls : List Value) :
    (merge p k ls).relabel L = merge (L.of p) k (ls.map (relabel L)) :=
  congrArg (merge (L.of p) k) (relabelItems_eq ls)

/-! ### What stays the same -/

@[simp] theorem origin_relabel (v : Value) : (v.relabel L).origin = L.origin v.origin := by
  cases v <;> exact L.origin_of _

@[simp] theorem isPending_relabel (v : Value) : (v.relabel L).isPending = v.isPending := by
  cases v <;> rfl

@[simp] theorem isObjectValued_relabel (v : Value) :
    (v.relabel L).isObjectValued = v.isObjectValued := by
  cases v with
  | merge p k ls => cases k <;> rfl
  | _ => rfl

@[simp] theorem isBlankText_relabel (v : Value) : (v.relabel L).isBlankText = v.isBlankText := by
  cases v with
  | string p t quoted => cases quoted <;> rfl
  | _ => rfl

@[simp] theorem joinText?_relabel (nullIsEmpty : Bool) (v : Value) :
    joinText? nullIsEmpty (v.relabel L) = joinText? nullIsEmpty v := by
  cases v <;> rfl

@[simp] theorem fields?_relabel (v : Value) :
    (v.relabel L).fields? = v.fields?.map (Entries.mapValues (relabel L)) := by
  cases v with
  | object p closed fs => rw [relabel_object, fields?, fields?, Option.map_some]
  | _ => rfl

@[simp] theorem items?_relabel (v : Value) :
    (v.relabel L).items? = v.items?.map fun xs => xs.map (relabel L) := by
  cases v with
  | list p xs => rw [relabel_list, items?, items?, Option.map_some]
  | _ => rfl

@[simp] theorem layers_relabel (v : Value) :
    (v.relabel L).layers = v.layers.map (relabel L) := by
  cases v with
  | merge p k ls => rw [relabel_merge, layers, layers]
  | _ => rfl

@[simp] theorem parts_relabel (v : Value) : (v.relabel L).parts = v.parts.map (relabel L) := by
  cases v with
  | object p closed fs =>
    rw [relabel_object, parts, parts, Entries.mapValues, List.map_map, List.map_map]
    rfl
  | list p xs => rw [relabel_list, parts, parts]
  | concat p ps => rw [relabel_concat, parts, parts]
  | merge p k ls => rw [relabel_merge, parts, parts]
  | _ => rfl

@[simp] theorem isResolved_relabel (v : Value) : (v.relabel L).isResolved = v.isResolved := by
  induction v using parts_induction with
  | node v ih =>
    rw [Bool.eq_iff_iff, isResolved_iff, isResolved_iff, isPending_relabel, parts_relabel,
      List.forall_mem_map]
    exact and_congr_right fun _ => forall₂_congr fun u hu => by rw [ih u hu]

theorem fieldsResolved_relabel (fs : Entries Value) :
    fieldsResolved (Entries.mapValues (relabel L) fs) = fieldsResolved fs := by
  rw [Bool.eq_iff_iff, fieldsResolved_iff, fieldsResolved_iff, Entries.mapValues,
    List.forall_mem_map]
  simp only [isResolved_relabel]

theorem itemsResolved_relabel (xs : List Value) :
    itemsResolved (xs.map (relabel L)) = itemsResolved xs := by
  rw [Bool.eq_iff_iff, itemsResolved_iff, itemsResolved_iff, List.forall_mem_map]
  simp only [isResolved_relabel]

@[simp] theorem ignoresFallbacks_relabel (v : Value) :
    (v.relabel L).ignoresFallbacks = v.ignoresFallbacks := by
  induction v using parts_induction with
  | node v ih =>
    cases v with
    | list p xs =>
      rw [relabel_list]
      exact itemsResolved_relabel xs
    | merge p k ls =>
      replace ih : ∀ l ∈ ls, (l.relabel L).ignoresFallbacks = l.ignoresFallbacks := ih
      rw [relabel_merge, ignoresFallbacks, ignoresFallbacks]
      induction ls with
      | nil => rfl
      | cons l ls step =>
        cases ls with
        | nil => exact ih l List.mem_cons_self
        | cons l' ls => exact step fun x hx => ih x (List.mem_cons_of_mem _ hx)
    | _ => rfl

/-! ### Merging and joining -/

theorem flattenPieces_relabel (v : Value) :
    flattenPieces [v.relabel L] = (flattenPieces [v]).map (relabel L) := by
  cases v with
  | concat p ps =>
    rw [relabel_concat]
    simp [flattenPieces]
  | _ => rfl

end Value

open Value in
/-- Other labels are a change that merging and joining do not notice. -/
def Relabelling.rewriting (L : Relabelling) : Rewriting where
  of := relabel L
  origin := L.origin
  origin_of := origin_relabel
  origin_merge := L.merge
  origin_nothing := L.nothing
  fields?_of := fields?_relabel
  items?_of := items?_relabel
  layers_of := layers_relabel
  pieces_of := flattenPieces_relabel
  isPending_of := isPending_relabel
  isObjectValued_of := isObjectValued_relabel
  isResolved_of := isResolved_relabel
  ignoresFallbacks_of := ignoresFallbacks_relabel
  isBlankText_of := isBlankText_relabel
  joinText?_of := joinText?_relabel
  new_object o closed fs := by rw [relabel_object, L.fresh]
  new_list o xs := by rw [ofItems, relabel_list, L.fresh, ofItems]
  new_text o t := congrArg (string · t true) (L.fresh o)
  new_concat o ps := by rw [relabel_concat, L.fresh]
  new_merge o k ls := by rw [relabel_merge, L.fresh]

namespace Value

theorem withFallback_relabel (v w : Value) :
    (v.relabel L).withFallback (w.relabel L) = (v.withFallback w).relabel L :=
  L.rewriting.withFallback_of v w

theorem mergeLayers?_relabel (ls : List Value) :
    mergeLayers? (ls.map (relabel L)) = (mergeLayers? ls).map (relabel L) :=
  L.rewriting.mergeLayers?_of ls

theorem joinRun_relabel (nullIsEmpty : Bool) (ps : List Value) :
    (joinRun nullIsEmpty (ps.map (relabel L))).toOption
      = (joinRun nullIsEmpty ps).toOption.map (List.map (relabel L)) :=
  L.rewriting.joinRun_of nullIsEmpty ps

theorem concatenate_relabel (ps : List Value) :
    (concatenate (ps.map (relabel L))).toOption
      = (concatenate ps).toOption.map (Option.map (relabel L)) :=
  L.rewriting.concatenate_of ps

/-! ### Moving under a path -/

variable (place : Path)

theorem relocate_relabel (v : Value) :
    (v.relabel L).relocate place = (v.relocate place).relabel L := by
  induction v using parts_induction with
  | node v ih =>
    have fields {fs : Entries Value}
        (h : ∀ f ∈ fs, (f.2.relabel L).relocate place = (f.2.relocate place).relabel L) :
        relocateFields place (Entries.mapValues (relabel L) fs)
          = Entries.mapValues (relabel L) (relocateFields place fs) := by
      rw [relocateFields_eq, relocateFields_eq, Entries.mapValues, Entries.mapValues,
        List.map_map, List.map_map]
      exact List.map_congr_left fun f hf => Prod.ext rfl (h f hf)
    have items {xs : List Value}
        (h : ∀ x ∈ xs, (x.relabel L).relocate place = (x.relocate place).relabel L) :
        relocateItems place (xs.map (relabel L)) = (relocateItems place xs).map (relabel L) := by
      rw [relocateItems_eq, relocateItems_eq, List.map_map, List.map_map]
      exact List.map_congr_left h
    cases v with
    | object p closed fs =>
      rw [relabel_object, relocate, relocate, fieldsResolved_relabel]
      split
      · rw [relabel_object]
      · rw [relabel_object, L.fresh, L.origin_of,
          fields fun f hf => ih f.2 (mem_parts_of_mem_fields hf)]
    | list p xs =>
      rw [relabel_list, relocate, relocate, itemsResolved_relabel]
      split
      · rw [relabel_list]
      · rw [relabel_list, L.fresh, L.origin_of, items (show ∀ x ∈ xs, _ from ih)]
    | concat p ps =>
      rw [relabel_concat, relocate, relocate, relabel_concat, L.fresh, L.origin_of,
        items (show ∀ x ∈ ps, _ from ih)]
    | merge p k ls =>
      rw [relabel_merge, relocate, relocate, relabel_merge, L.fresh, L.origin_of,
        items (show ∀ x ∈ ls, _ from ih)]
    | reference p r =>
      show relocate place (reference (L.of p) r) = relabel L (relocate place (reference p r))
      rw [relocate, relocate]
      show _ = reference (L.of _) _
      rw [L.fresh, L.origin_of]
    | _ => rfl

end Value

/-! ### No labels -/

/-- One label for all: that of what is made of nothing. -/
def Relabelling.blank : Relabelling where
  of _ := { origin := Value.mergedOrigin [] }
  origin _ := Value.mergedOrigin []
  origin_of _ := rfl
  fresh _ := rfl
  merge _ _ := rfl
  nothing := rfl

namespace Value

/-- The tree without origins and marks. -/
def unplaced (v : Value) : Value := v.relabel .blank

/-- The same tree but for origins and marks. -/
def SameTree (v w : Value) : Prop := v.unplaced = w.unplaced

/-- The same trees in order. -/
abbrev SameTrees (xs ys : List Value) : Prop := xs.map unplaced = ys.map unplaced

/-- The same fields in order. -/
abbrev SameEntries (fs gs : Entries Value) : Prop :=
  Entries.mapValues unplaced fs = Entries.mapValues unplaced gs

variable {v v' w w' : Value} {fs gs fs' gs' : Entries Value} {xs ys : List Value}

theorem SameTree.withProv (h : v.SameTree w) (p : Provenance) : (v.withProv p).SameTree w := by
  refine Eq.trans ?_ h
  cases v <;> rfl

theorem SameTree.withFallback (hv : v.SameTree v') (hw : w.SameTree w') :
    (v.withFallback w).SameTree (v'.withFallback w') := by
  have both : v.unplaced.withFallback w.unplaced = v'.unplaced.withFallback w'.unplaced := by
    rw [show v.unplaced = v'.unplaced from hv, show w.unplaced = w'.unplaced from hw]
  exact (withFallback_relabel v w).symm.trans (both.trans (withFallback_relabel v' w'))

theorem SameTree.relocate (h : v.SameTree w) (place : Path) :
    (v.relocate place).SameTree (w.relocate place) := by
  have both : v.unplaced.relocate place = w.unplaced.relocate place := congrArg _ h
  exact (relocate_relabel place v).symm.trans (both.trans (relocate_relabel place w))

theorem SameTree.fields? (h : v.SameTree w) :
    v.fields?.map (Entries.mapValues unplaced) = w.fields?.map (Entries.mapValues unplaced) := by
  have both : v.unplaced.fields? = w.unplaced.fields? := congrArg Value.fields? h
  exact (fields?_relabel v).symm.trans (both.trans (fields?_relabel w))

theorem SameTree.scalarText? (h : v.SameTree w) : v.scalarText? = w.scalarText? := by
  have both : joinText? false v.unplaced = joinText? false w.unplaced := congrArg _ h
  exact (joinText?_relabel false v).symm.trans (both.trans (joinText?_relabel false w))

theorem SameEntries.ofFields (h : SameEntries fs gs) (o o' : Origin) :
    (Value.ofFields o fs).SameTree (Value.ofFields o' gs) := by
  show (object _ _ _).relabel _ = (object _ _ _).relabel _
  rw [relabel_object, relabel_object]
  exact congrArg (object _ false) h

theorem SameTrees.ofItems (h : SameTrees xs ys) (o o' : Origin) :
    (Value.ofItems o xs).SameTree (Value.ofItems o' ys) := by
  show (list _ _).relabel _ = (list _ _).relabel _
  rw [relabel_list, relabel_list]
  exact congrArg (list _) h

theorem SameTrees.concatenate (h : SameTrees xs ys) :
    (concatenate xs).toOption.map (Option.map unplaced)
      = (Value.concatenate ys).toOption.map (Option.map unplaced) := by
  have both : (Value.concatenate (xs.map unplaced)).toOption
      = (Value.concatenate (ys.map unplaced)).toOption := by rw [h]
  have left := concatenate_relabel (L := .blank) xs
  have right := concatenate_relabel (L := .blank) ys
  exact left.symm.trans (both.trans right)

end Value

end Hocon
