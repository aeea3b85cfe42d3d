import Mathlib.Data.List.Nodup
import Hocon.Proofs.Alongside
import Hocon.Proofs.Including
import Hocon.Proofs.Lookback
import Hocon.Proofs.RoundTrip
import Hocon.Value.Edit

/-!
# Documents under a path

A document that is moved under a path resolves as it did before: both runs go the same way
(`Resolution.follows`), so they come to the same tree or to no tree (`Value.resolve_relocate`).

A reference that came with an included document has two paths, one of them without the keys that
including put in front.  Where the document is moved once more, this second path leads out of it.
So what is moved is not the document as it is, but `Value.confined`: its references look no further
than the document in which they were written.
-/

namespace Hocon

namespace Value

/-! ### References that are looked up once -/

mutual

/-- The value with references that do not know which keys including put in front of them: none of
them is looked up a second time without these. -/
def confined : Value → Value
  | reference p r => reference p { r with included := 0 }
  | object p closed fs => object p closed (confinedFields fs)
  | list p xs => list p (confinedItems xs)
  | concat p ps => concat p (confinedItems ps)
  | merge p k ls => merge p k (confinedItems ls)
  | v => v

def confinedFields : Entries Value → Entries Value
  | [] => []
  | (k, v) :: fs => (k, v.confined) :: confinedFields fs

def confinedItems : List Value → List Value
  | [] => []
  | v :: vs => v.confined :: confinedItems vs

end

variable {place : Path} {W : Pairing} {v w : Value}

theorem confinedFields_eq (fs : Entries Value) :
    confinedFields fs = fs.map fun f => (f.1, f.2.confined) := by
  induction fs with
  | nil => rfl
  | cons f fs ih => rw [confinedFields, ih, List.map_cons]

theorem confinedItems_eq (xs : List Value) : confinedItems xs = xs.map confined := by
  induction xs with
  | nil => rfl
  | cons x xs ih => rw [confinedItems, ih, List.map_cons]

theorem mark_confined (v : Value) : v.confined.mark = v.mark := by
  cases v <;> (unfold confined; rfl)

/-- The parts of a tree are confined with it. -/
theorem parts_confined (v : Value) : v.confined.parts = v.parts.map confined := by
  cases v with
  | object p closed fs =>
    rw [confined, confinedFields_eq]
    simp only [parts, List.map_map, Function.comp_def]
  | list p xs => rw [confined, confinedItems_eq]; rfl
  | concat p xs => rw [confined, confinedItems_eq]; rfl
  | merge p k xs => rw [confined, confinedItems_eq]; rfl
  | _ => rfl

theorem fields?_confined (v : Value) : v.confined.fields? = none ↔ v.fields? = none := by
  cases v <;> simp [confined, fields?]

theorem isObjectValued_confined (v : Value) : v.confined.isObjectValued = v.isObjectValued := by
  cases v with
  | merge p k ls => cases k <;> rfl
  | _ => rfl

theorem Stacked.confined {k : MergeKind} {ls : List Value} (h : Stacked k ls) :
    Stacked k (ls.map Value.confined) :=
  h.map (fun v => by cases v <;> rfl) fields?_confined isObjectValued_confined
    fun v => by cases v <;> rfl

/-- A document of which no reference is looked up twice is like one in which nothing was
included. -/
theorem FromText.confined (h : v.FromDocument) : v.confined.FromText (Plain True) := by
  induction v using parts_induction with
  | node v ih =>
    have parts : ∀ u ∈ v.confined.parts, u.FromText (Plain True) := by
      rw [parts_confined]
      exact List.forall_mem_map.2 fun u hu => ih u hu (h.parts u hu)
    have unmarked : v.Unmarked := h.markable
    have lines : v.origin.Commented IsLine := h.wellFormed.lines
    refine ⟨?_, .fresh ((mark_confined v).trans unmarked.mark) (fun _ => trivial)
      fun u hu => (parts u hu).markable⟩
    replace parts : ∀ u ∈ v.confined.parts, u.WellFormed (.ofTexts (Plain True)) :=
      fun u hu => (parts u hu).wellFormed
    cases h.wellFormed with
    | null => exact .null lines
    | bool _ b => exact .bool lines b
    | number _ spelled => exact .number lines spelled
    | string _ t quoted => exact .string lines t quoted
    | object _ closed nodup _ =>
      rw [Value.confined] at parts ⊢
      refine .object lines closed ?_ fun k u hu => parts u (mem_parts_of_mem_fields (c := closed) hu)
      rw [confinedFields_eq]
      simpa only [Entries.keys, List.map_map, Function.comp_def] using nodup
    | list => exact .list lines parts
    | reference => exact .reference lines ⟨rfl, fun _ => trivial⟩
    | concat => exact .concat lines trivial parts
    | merge _ stacked _ =>
      rw [Value.confined] at parts ⊢
      refine .merge lines ?_ parts
      rw [confinedItems_eq]
      exact stacked.confined

/-- Where nothing was included, every reference is looked up once anyway. -/
theorem confined_of_included_eq_zero
    (h : ∀ p r, (reference p r).Within v → r.included = 0) : v.confined = v := by
  induction v using parts_induction with
  | node v ih =>
    have parts (x : Value) (hx : x ∈ v.parts) : x.confined = x :=
      ih x hx fun p r hr => h p r (.part hr hx)
    have items (xs : List Value) (hxs : ∀ x ∈ xs, x ∈ v.parts) : confinedItems xs = xs := by
      rw [confinedItems_eq]
      exact List.map_congr_left (fun x hx => parts x (hxs x hx)) |>.trans (List.map_id xs)
    cases v with
    | reference p r => rw [confined, ← h p r .self]
    | object p closed fs =>
      rw [confined, confinedFields_eq]
      congr 1
      refine List.map_congr_left (g := id) (fun f hf => ?_) |>.trans (List.map_id fs)
      rw [parts f.2 (mem_parts_of_mem_fields hf)]
      rfl
    | list p xs => rw [confined, items xs fun _ => id]
    | concat p xs => rw [confined, items xs fun _ => id]
    | merge p k xs => rw [confined, items xs fun _ => id]
    | _ => rfl

/-! ### Moving gives twins -/

/-- What needs nothing stays as it is. -/
theorem relocate_of_isResolved (h : v.isResolved = true) (place : Path) : v.relocate place = v := by
  cases v with
  | object p closed fs =>
    rw [isResolved] at h
    rw [relocate, if_pos h]
  | list p xs =>
    rw [isResolved] at h
    rw [relocate, if_pos h]
  | reference | concat | merge => cases h
  | _ => rfl

/-- Moving an object moves its fields. -/
theorem exists_relocate_object (p : Provenance) (closed : Bool) (fs : Entries Value) (place : Path) :
    ∃ q, (object p closed fs).relocate place = object q closed (relocateFields place fs)
      ∧ (p.mark = none → q.mark = none) := by
  rw [relocate]
  split
  · next h =>
    refine ⟨p, ?_, id⟩
    rw [relocateFields_eq]
    congr 1
    refine ((List.map_congr_left (g := id) fun f hf => ?_).trans (List.map_id fs)).symm
    rw [relocate_of_isResolved (fieldsResolved_iff.1 h f hf)]
    rfl
  · exact ⟨_, rfl, fun _ => rfl⟩

/-- Moving a list moves its items. -/
theorem exists_relocate_list (p : Provenance) (xs : List Value) (place : Path) :
    ∃ q, (list p xs).relocate place = list q (relocateItems place xs)
      ∧ (p.mark = none → q.mark = none) := by
  rw [relocate]
  split
  · next h =>
    refine ⟨p, ?_, id⟩
    rw [relocateItems_eq]
    congr 1
    refine ((List.map_congr_left (g := id) fun x hx => ?_).trans (List.map_id xs)).symm
    exact relocate_of_isResolved (itemsResolved_iff.1 h x hx) place
  · exact ⟨_, rfl, fun _ => rfl⟩

/-- Nothing is at the first key of the place that a reference of the value may be looked up at. -/
def LeadsElsewhere (place : Path) (v : Value) : Prop :=
  ∀ p r, (reference p r).Within v → ∀ q, r.target.path.drop? r.included = some q →
    q.first ≠ place.first

theorem LeadsElsewhere.part {x : Value} (h : v.LeadsElsewhere place) (hx : x ∈ v.parts) :
    x.LeadsElsewhere place := fun p r hr => h p r (.part hr hx)

/-- What a reference becomes where it is moved to. -/
theorem moved_relocate {r : Reference}
    (elsewhere : ∀ q, r.target.path.drop? r.included = some q → q.first ≠ place.first) :
    Moved place { r with included := 0 }
      { target := { r.target with path := r.target.path.prepend place }
        included := r.included + place.length } where
  path := rfl
  optional := rfl
  own := rfl
  included := Nat.le_add_left _ _
  elsewhere q hq := by
    refine elsewhere q ?_
    rw [← hq]
    unfold Path.drop?
    rw [Path.keys_prepend, Nat.add_comm, ← List.drop_drop, show place.length = place.keys.length from rfl,
      List.drop_left]

/-- **Moving gives twins**, if no references lead to where the tree is moved. -/
theorem twin_relocate (unmarked : v.Unmarked) (elsewhere : v.LeadsElsewhere place) :
    Twin place W v.confined (v.relocate place) := by
  induction v using parts_induction with
  | node v ih =>
    have parts (x : Value) (hx : x ∈ v.parts) : Twin place W x.confined (x.relocate place) :=
      ih x hx (unmarked.parts x hx) (elsewhere.part hx)
    have items (xs : List Value) (hxs : ∀ x ∈ xs, x ∈ v.parts) :
        List.Forall₂ (Twin place W) (confinedItems xs) (relocateItems place xs) := by
      rw [confinedItems_eq, relocateItems_eq]
      exact List.forall₂_map_left_iff.2 (List.forall₂_map_right_iff.2
        (List.forall₂_same.2 fun x hx => parts x (hxs x hx)))
    have mark := unmarked.mark
    cases v with
    | object p closed fs =>
      obtain ⟨q, eq, mark'⟩ := exists_relocate_object p closed fs place
      rw [confined, eq, confinedFields_eq, relocateFields_eq]
      refine .fresh (.object _ _ _ ?_) mark (mark' mark)
      exact List.forall₂_map_left_iff.2 (List.forall₂_map_right_iff.2
        (List.forall₂_same.2 fun f hf => ⟨rfl, parts f.2 (mem_parts_of_mem_fields hf)⟩))
    | list p xs =>
      obtain ⟨q, eq, mark'⟩ := exists_relocate_list p xs place
      rw [confined, eq]
      exact .fresh (.list _ _ (items xs fun _ => id)) mark (mark' mark)
    | reference p r =>
      rw [confined, relocate]
      exact .fresh (.reference _ _ (moved_relocate (elsewhere p r .self))) mark rfl
    | concat p ps =>
      rw [confined, relocate]
      exact .fresh (.concat _ _ (items ps fun _ => id)) mark rfl
    | merge p k ls =>
      rw [confined, relocate]
      exact .fresh (.merge _ _ _ (items ls fun _ => id)) mark rfl
    | null p => exact .fresh (.null p p) mark mark
    | bool p b => exact .fresh (.bool p p b) mark mark
    | number p n t => exact .fresh (.number p p n t) mark mark
    | string p t q => exact .fresh (.string p p t q) mark mark

/-! ### The way to a document gets marks -/

theorem Unmarked.eq_of_object {p : Provenance} {closed : Bool} {fs : Entries Value}
    (h : (object p closed fs).Unmarked) : p = { origin := p.origin } := by
  have mark : p.mark = none := h.mark
  cases p
  cases mark
  rfl

theorem unmarked_of_below {keys : List String} (below : Below keys v w) (unmarked : w.Unmarked) :
    v.Unmarked := by
  induction below with
  | here => exact unmarked
  | inside _ ih => exact ih (unmarked.parts _ (mem_parts_of_mem_fields List.mem_cons_self))

/-- Marking a document with the objects above it marks these first, one after the other. -/
theorem exists_way {keys : List String} (below : Below keys v w) (unmarked : w.Unmarked) (n : Nat) :
    ∃ way : Nat → Value, way 0 = (w.markFrom n).1
      ∧ way keys.length = (v.markFrom (n + keys.length)).1
      ∧ (w.markFrom n).2 = (v.markFrom (n + keys.length)).2
      ∧ (∀ i, i ≤ keys.length → (way i).mark = some (n + i))
      ∧ ∀ i (h : i < keys.length), ∃ p, way i = object p false [(keys[i], way (i + 1))] := by
  induction below generalizing n with
  | here v =>
    refine ⟨fun _ => (v.markFrom n).1, rfl, rfl, rfl, fun i le => ?_, fun i lt => absurd lt (Nat.not_lt_zero i)⟩
    obtain rfl : i = 0 := Nat.le_zero.1 le
    exact (markFrom_of_no_mark unmarked.mark n).1
  | @inside p key keys v w _ ih =>
    have inner : w.Unmarked := unmarked.parts w (mem_parts_of_mem_fields List.mem_cons_self)
    obtain ⟨way, first, last, next, marks, step⟩ := ih inner (n + 1)
    have length : n + (key :: keys).length = n + 1 + keys.length := by
      rw [List.length_cons]
      omega
    rw [unmarked.eq_of_object, Resolution.markFrom_single, length]
    refine ⟨fun i => i.casesOn (object { origin := p.origin, mark := some n } false
      [(key, (w.markFrom (n + 1)).1)]) way, rfl, last, next, fun i le => ?_, fun i lt => ?_⟩
    · cases i with
      | zero => rfl
      | succ i =>
        rw [show n + (i + 1) = n + 1 + i by omega]
        exact marks i (Nat.le_of_succ_le_succ le)
    · cases i with
      | zero =>
        refine ⟨{ origin := p.origin, mark := some n }, ?_⟩
        rw [List.getElem_cons_zero, ← first]
        rfl
      | succ i => exact step i (Nat.lt_of_succ_lt_succ lt)

/-! ### The references of twins -/

/-- The references below related nodes are twins if those of related parts are. -/
theorem Sides.referenceMarks {R : Value → Value → Prop} (h : Sides place R v w)
    (notReference : ∀ p r, v ≠ Value.reference p r)
    (parts : ∀ x y, R x y → List.Forall₂ (Resolution.Joins W) x.referenceMarks y.referenceMarks) :
    List.Forall₂ (Resolution.Joins W) v.referenceMarks w.referenceMarks := by
  have below := List.rel_flatMap h.parts parts
  rw [referenceMarks_eq v, referenceMarks_eq w]
  cases h with
  | reference => exact absurd rfl (notReference _ _)
  | _ => exact below

/-- The references of twins are twins. -/
theorem Twin.referenceMarks (h : Twin place W v w) :
    List.Forall₂ (Resolution.Joins W) v.referenceMarks w.referenceMarks := by
  induction h using Twin.induction with
  | node v w h sides =>
    have parts (notReference : ∀ p r, v ≠ reference p r) :=
      sides.referenceMarks (W := W) notReference fun x y h => h.2
    cases v with
    | reference p r =>
      cases sides with
      | @reference _ q _ t =>
        rw [Value.referenceMarks, Value.referenceMarks]
        cases h.marks with
        | fresh left right =>
          rw [show p.mark = none from left, show q.mark = none from right]
          exact .nil
        | @known n k left right entry =>
          rw [show p.mark = some n from left, show q.mark = some k from right]
          exact .cons ⟨_, _, entry, right⟩ .nil
    | _ => exact parts (by rintro _ _ ⟨⟩)

end Value

namespace Resolution

open Value

variable {place : Path} {v w root : Value}

/-- The way to the moved document adds no references. -/
theorem Transfer.referenceMarks_way (t : Transfer) :
    (t.way 0).referenceMarks = t.moved.referenceMarks := by
  have same (d i : Nat) (le : i + d = t.place.length) :
      (t.way i).referenceMarks = t.moved.referenceMarks := by
    induction d generalizing i with
    | zero => rw [Transfer.moved, ← le, Nat.add_zero]
    | succ d ih =>
      obtain ⟨p, eq⟩ := t.step i (by omega)
      rw [eq, referenceMarks, referenceMarksOfFields, referenceMarksOfFields, List.append_nil,
        ih (i + 1) (by omega)]
  exact same t.place.length 0 (Nat.zero_add _)

/-- The document on its own and the root above the moved one are marked, and nothing is known yet. -/
theorem exists_start {D D' root : Value} (sides : Sides place (Twin place fun _ => none) D D')
    (waits : D.isResolved = false) (unmarked : D.Unmarked) (unmarked' : root.Unmarked)
    (below : Value.Below place.keys D' root) (n n' : Nat) :
    ∃ (t : Transfer) (W : Pairing), t.place = place ∧ t.own = (D.markFrom n).1
      ∧ t.way 0 = (root.markFrom n').1
      ∧ InStep t W { next := (D.markFrom n).2 } { next := (root.markFrom n').2 } := by
  obtain ⟨way, first, last, next, marks, step⟩ := exists_way below unmarked' n'
  have mark : D.mark = none := unmarked.mark
  have mark' : D'.mark = none := (unmarked_of_below below unmarked').mark
  obtain ⟨own_mark, own_parts, own_next, -⟩ := markFrom_of_no_mark mark n
  obtain ⟨-, moved_parts, moved_next, -⟩ := markFrom_of_no_mark mark' (n' + place.keys.length)
  have start : Pairing.Fits (n + 1) (n' + place.keys.length + 1) (fun _ => none) (n + 1)
      (n' + place.keys.length + 1) :=
    ⟨Nat.le_refl _, Nat.le_refl _, by rintro _ _ _ ⟨⟩, by rintro _ _ _ ⟨⟩, by rintro _ _ _ _ _ _ ⟨⟩⟩
  have parts : List.Forall₂ (MarksTwins place (n + 1) (n' + place.keys.length + 1)) D.parts D'.parts :=
    sides.parts.imp fun _ _ => marksTwins
  obtain ⟨W, -, fits, twins⟩ := exists_twins_markItems parts start sides.parts
  rw [← own_parts, ← moved_parts] at twins
  rw [← own_next, ← moved_next, ← next] at fits
  have resolved : (D.markFrom n).1.isResolved = false := by
    rw [← waits, Bool.eq_iff_iff]
    exact isResolved_markFrom_iff
  refine ⟨{ place, own := (D.markFrom n).1, mark := n, way, base := n', own_mark, waits := resolved
            way_mark := marks, step }, W, rfl, rfl, first, ?_⟩
  constructor
  case fits => exact fits
  case document =>
    show Sides place (Twin place W) (D.markFrom n).1 (way place.keys.length)
    rw [last]
    exact ((sides.mono fun _ _ _ => trivial).markFrom mark mark' n _).of_parts fun x y =>
      List.forall₂_zip twins
  case memo => exact fun _ _ _ _ => .none
  case way => exact fun _ _ _ => .none
  all_goals exact fun _ _ _ => by first | rfl | rintro ⟨⟩

/-- **A document and a moved one come to the same**: to trees of which the one is around the other,
or to errors. -/
theorem both_resolve {D D' root : Value} (sides : Sides place (Twin place fun _ => none) D D')
    (object : D.fields?.isSome = true) (unmarked : D.Unmarked) (unmarked' : root.Unmarked)
    (below : Value.Below place.keys D' root) (next next' : Nat) :
    ∃ W, Both (Around place W place.keys) (D.resolve {} next) (root.resolve {} next') := by
  by_cases resolved : D.isResolved = true
  · have resolved' : root.isResolved = true := by
      rw [below.isResolved_eq, ← sides.isResolved_eq, resolved]
    rw [Value.resolve, Value.resolve, if_pos resolved, if_pos resolved']
    exact ⟨_, .ok ⟨object, D', sides, below⟩⟩
  have waits : D.isResolved = false := by simpa using resolved
  have waits' : root.isResolved = false := by rw [below.isResolved_eq, ← sides.isResolved_eq, waits]
  obtain ⟨t, W, rfl, own, way, inStep⟩ := exists_start sides waits unmarked unmarked' below
    (max next D.freeMark) (max next' root.freeMark)
  have isObject : t.own.fields?.isSome = true := by
    rw [own, (alike_markFrom D _).fields?_isSome_eq, object]
  -- the document is no reference itself
  have references : List.Forall₂ (Joins W) t.own.referenceMarks (t.way 0).referenceMarks := by
    rw [t.referenceMarks_way]
    refine inStep.document.referenceMarks (fun p r eq => ?_) fun _ _ => Twin.referenceMarks
    rw [eq] at isObject
    cases isObject
  have amid : Amid t W { available := t.own.referenceMarks ++ t.own.referenceMarks }
      { available := (t.way 0).referenceMarks ++ (t.way 0).referenceMarks } :=
    ⟨List.rel_append references references, .nil⟩
  obtain ⟨W', -, -, ends⟩ := (follows isObject _ t.own none).2 rfl W _ _ _ inStep amid
  refine ⟨W', ?_⟩
  have left : D.resolve {} next = outcome ((resolve t.here
      { available := t.own.referenceMarks ++ t.own.referenceMarks } t.own none).run.run
      { next := (D.markFrom (max next D.freeMark)).2 }).1 := by
    rw [Value.resolve, if_neg resolved]
    simp only [← own]
    rfl
  have right : root.resolve {} next' = outcome ((resolve t.there
      { available := (t.way 0).referenceMarks ++ (t.way 0).referenceMarks } (t.way 0) none).run.run
      { next := (root.markFrom (max next' root.freeMark)).2 }).1 := by
    rw [Value.resolve, if_neg (by rw [waits']; exact Bool.false_ne_true)]
    simp only [← way]
    rfl
  rw [onto_none] at ends
  rw [left, right]
  generalize ((resolve t.here _ t.own none).run.run _).1 = x at ends ⊢
  generalize ((resolve t.there _ (t.way 0) none).run.run _).1 = y at ends ⊢
  cases ends with
  | ok related =>
    obtain ⟨r, r', rfl, rfl, around⟩ := related
    exact .ok around
  | cycle => exact .error _ _
  | error => exact .error _ _

end Resolution

namespace Value

variable {place : Path} {W : Pairing} {v w : Value} {manner : Manner}

/-! ### What a document comes to under a path -/

/-- Nodes whose parts are echoed by those of the other are echoed by it. -/
theorem Sides.echoes {R : Value → Value → Prop} (h : Sides place R v w) (wf : v.WellFormed manner)
    (waits : v.isPending = false) (parts : ∀ x y, x ∈ v.parts → R x y → y.Echoes x) : w.Echoes v := by
  cases h with
  | null p q => exact .null _ _
  | bool p q b => exact .bool _ _ b
  | number p q n t => exact .number _ _ n t
  | string p q t quoted => exact .string _ _ t quoted quoted
  | @object p q closed fs gs fields =>
    refine .object _ _ _ _ wf.nodup (by rw [fields.keys_eq]) fun k y x hy hx => ?_
    have here := fields.get? k
    rw [hx, hy] at here
    cases here with
    | some related => exact parts x y (mem_parts_of_mem_fields (Entries.mem_of_get? hx)) related
  | @list p q xs ys items =>
    refine .list _ _ items.length_eq.symm fun i y x hy hx => ?_
    obtain ⟨hi, rfl⟩ := List.getElem?_eq_some_iff.1 hx
    obtain ⟨hi', rfl⟩ := List.getElem?_eq_some_iff.1 hy
    exact parts _ _ (List.getElem_mem hi) (items.get hi hi')
  | reference | concat | merge => cases waits

/-- The twin of a resolved tree holds the same. -/
theorem Twin.echoes (h : Twin place W v w) (wf : v.WellFormed manner) (resolved : v.isResolved = true) :
    w.Echoes v := by
  induction h using Twin.induction with
  | node v w h sides =>
    exact sides.echoes wf (isPending_of_isResolved resolved) fun x y hx hy =>
      hy.2 (wf.parts x hx) ((isResolved_iff.1 resolved).2 x hx)

/-- What is below the keys echoes what is put there. -/
theorem Below.echoes {keys : List String} {u : Value} (below : Below keys w u) (h : w.Echoes v) :
    u.Echoes (v.atKeys keys) := by
  induction below with
  | here => exact h
  | @inside p key keys w u _ ih =>
    refine .object _ _ _ _ (List.nodup_singleton key) (.refl _) fun k x y hx hy => ?_
    rw [Entries.get?] at hx hy
    split at hx
    · next same =>
      rw [if_pos same] at hy
      cases hx
      cases hy
      exact ih h
    · cases hx

theorem WellFormed.atKeys (h : v.WellFormed .spelled) (keys : List String) :
    (v.atKeys keys).WellFormed .spelled := by
  induction keys with
  | nil => exact h
  | cons key keys ih =>
    refine .object (fun _ _ => trivial) _ (List.nodup_singleton key) fun k u hu => ?_
    cases List.mem_singleton.1 hu
    exact ih

/-- What a document comes to below a place equals what it comes to on its own, put there. -/
theorem equals_of_around {x y : Value} (h : Resolution.Around place W place.keys x y)
    (wf : x.WellFormed .spelled) (resolved : x.isResolved = true) :
    y.equals (x.atPath place) = true := by
  obtain ⟨-, u, sides, below⟩ := h
  have echoes : u.Echoes x := sides.echoes wf (isPending_of_isResolved resolved) fun z z' hz twin =>
    twin.echoes (wf.parts z hz) ((isResolved_iff.1 resolved).2 z hz)
  exact (below.echoes echoes).equals (fun _ _ => id) (wf.atKeys place.keys)

theorem below_atKeys (v : Value) (keys : List String) : Below keys v (v.atKeys keys) := by
  induction keys with
  | nil => exact .here v
  | cons key keys ih => exact .inside ih

theorem Unmarked.atKeys (h : v.Unmarked) (keys : List String) : (v.atKeys keys).Unmarked := by
  induction keys with
  | nil => exact h
  | cons key keys ih => exact .new rfl rfl (List.forall_mem_singleton.2 ih)

/-- A document for itself and the twin of it below a place come to the same. -/
theorem both_resolve_equals {D D' root : Value} (sound : D.FromText (Plain True))
    (object : D.fields?.isSome = true) (sides : Sides place (Twin place fun _ => none) D D')
    (below : Below place.keys D' root) (unmarked : root.Unmarked) (next next' : Nat) :
    Both (fun r r' => r'.equals (r.atPath place) = true) (D.resolve {} next)
      (root.resolve {} next') := by
  obtain ⟨W, both⟩ := Resolution.both_resolve sides object sound.markable unmarked below next next'
  have spec := Resolution.resolve_spec sound object none next
  rw [Option.map_none] at spec
  generalize D.resolve {} next = x at both spec ⊢
  generalize root.resolve {} next' = y at both ⊢
  cases both with
  | error e e' => exact .error e e'
  | ok around =>
    obtain ⟨resolved, -, wf⟩ := spec
    exact .ok (equals_of_around around (wf.mono (fun _ _ _ => trivial) (fun _ _ => trivial)
      fun _ _ => id) resolved)

/-- **A document that is moved under a path resolves as it did before**, if no path that it refers to
starts with the first key of the path: the moved document comes to what the document comes to, put
under the path, or both come to nothing. -/
theorem resolve_relocate {files : FileTree} {text : String} {root : Value}
    (parsed : ((parseText files {} text).run.run []).1 = .ok root)
    (alone : Document.IncludesNothing text) (place : Path)
    (elsewhere : ∀ p r, (reference p r).Within root → r.target.path.first ≠ place.first)
    (next next' : Nat) :
    Both (fun r r' => r'.equals (r.atPath place) = true) (root.resolve {} next)
      (((root.relocate place).atPath place).resolve {} next') := by
  obtain ⟨-, sound, object⟩ := Document.parseText_spec parsed alone
  have own (p : Provenance) (r : Reference) (hr : (reference p r).Within root) : r.included = 0 := by
    cases sound.wellFormed.within hr with
    | reference _ h => exact h.1
  have leads : root.LeadsElsewhere place := by
    intro p r hr q hq
    rw [own p r hr] at hq
    cases hq
    exact elsewhere p r hr
  have unmarked : root.Unmarked := sound.markable
  have document : root.FromDocument := (@Parsed.text root files {} trivial text parsed).isRoot.1
  have unmarked' : (root.relocate place).Unmarked := (FromText.relocate document place).markable
  have twin := twin_relocate (W := fun _ => none) unmarked leads
  rw [confined_of_included_eq_zero own] at twin
  exact both_resolve_equals sound object twin.sides (below_atKeys _ place.keys)
    (unmarked'.atKeys place.keys) next next'

/-- A document with a merge that waits, one that looks back, and references through both, under a
path of two keys. -/
theorem resolve_relocate_example :
    let text := "a = $\x7bb.c\x7d x, b = $\x7bd\x7d, b = \x7bc = 1, e = $\x7b?f\x7d\x7d, d.g = [$\x7bb.c\x7d], d.g += 2"
    let place : Path := ⟨"p", ["a"]⟩
    ∃ root, ((parseText {} {} text).run.run []).1 = .ok root ∧ Document.IncludesNothing text
      ∧ (∀ p r, (reference p r).Within root → r.target.path.first ≠ place.first)
      ∧ Both (fun r r' => r'.equals (r.atPath place) = true) (root.resolve {} 0)
        (((root.relocate place).atPath place).resolve {} 0) := by
  intro text place
  obtain ⟨root, parsed, alone⟩ := Document.exists_parsed {} (by decide +kernel :
    (Document.readAlone text).toOption.any (·.fields?.isSome) = true)
  have check : (Document.readAlone text).toOption.any (fun v => v.allNodes (referencePasses fun r =>
      r.target.path.first != place.first)) = true := by
    decide +kernel
  rw [(Document.parseText_spec parsed alone).1] at check
  have elsewhere (p : Provenance) (r : Reference) (hr : (reference p r).Within root) :
      r.target.path.first ≠ place.first := by
    simpa [referencePasses] using hr.check check
  exact ⟨root, parsed, alone, elsewhere, resolve_relocate parsed alone place elsewhere 0 0⟩

end Value

end Hocon
