import Hocon.Proofs.Ensures
import Hocon.Proofs.Merging

/-!
# The references of a tree

No operation on trees makes a reference: merging, joining and looking through only put those
together that are there, and marking gives marks to them.  So whatever is true of all references of
some trees (`Value.RefersBy`) is true of all references of what they become.
-/

namespace Hocon

namespace Value

variable {P : Provenance → Reference → Prop} {u v w : Value}

/-- All references of the tree have the property. -/
def RefersBy (P : Provenance → Reference → Prop) (v : Value) : Prop :=
  ∀ p r, (reference p r).Within v → P p r

namespace RefersBy

theorem part (h : v.RefersBy P) (hu : u ∈ v.parts) : u.RefersBy P :=
  fun p r hr => h p r (.part hr hu)

/-- A node that is no reference refers to what its parts refer to. -/
theorem of_parts (node : ∀ p r, v ≠ reference p r) (parts : ∀ u ∈ v.parts, u.RefersBy P) :
    v.RefersBy P := by
  intro p r hr
  generalize hx : reference p r = x at hr
  cases hr with
  | self => exact absurd hx.symm (node p r)
  | part hr hu => exact parts _ hu p r (hx ▸ hr)

theorem object {p : Provenance} {c : Bool} {fs : Entries Value}
    (fields : ∀ f ∈ fs, f.2.RefersBy P) : (Value.object p c fs).RefersBy P := by
  refine of_parts nofun fun u hu => ?_
  obtain ⟨f, hf, rfl⟩ := List.mem_map.1 hu
  exact fields f hf

theorem field {p : Provenance} {c : Bool} {fs : Entries Value}
    (h : (Value.object p c fs).RefersBy P) : ∀ f ∈ fs, f.2.RefersBy P :=
  fun _ hf => h.part (mem_parts_of_mem_fields hf)

theorem layers (h : v.RefersBy P) : ∀ l ∈ v.layers, l.RefersBy P := by
  intro l hl
  cases v with
  | merge p k ls => exact h.part hl
  | _ => exact List.mem_singleton.1 hl ▸ h

theorem within (h : v.RefersBy P) (hu : u.Within v) : u.RefersBy P :=
  fun p r hr => h p r (hr.trans hu)

end RefersBy

end Value

theorem Entries.mem_put {α : Type} {es : Entries α} {key : String} {value : α} {f : String × α}
    (h : f ∈ put es key value) : f = (key, value) ∨ f ∈ es := by
  induction es with
  | nil => exact .inl (List.mem_singleton.1 h)
  | cons e es ih =>
    rw [put] at h
    split at h
    · exact (List.mem_cons.1 h).imp_right (List.mem_cons_of_mem _)
    · rcases List.mem_cons.1 h with rfl | h
      · exact .inr List.mem_cons_self
      · exact (ih h).imp_right (List.mem_cons_of_mem _)

namespace Value

/-- What merged fields have in common: own fields, those of the fallback, and what becomes of the
one over the other. -/
theorem forall_mem_absorbFields {P : Value → Prop} {own other : Entries Value}
    (merged : ∀ f ∈ own, ∀ w u, P w → f.2.absorb? w = some u → P u)
    (hown : ∀ f ∈ own, P f.2) (hother : ∀ f ∈ other, P f.2) :
    ∀ f ∈ (absorbFields own other).1, P f.2 := by
  induction own generalizing other with
  | nil => exact hother
  | cons f own ih =>
    obtain ⟨key, v⟩ := f
    obtain ⟨hv, hown⟩ := List.forall_mem_cons.1 hown
    obtain ⟨step, merged⟩ := List.forall_mem_cons.1 merged
    have put (x : Value) (hx : P x) : ∀ f ∈ Entries.put other key x, P f.2 := by
      intro f hf
      rcases Entries.mem_put hf with rfl | hf
      · exact hx
      · exact hother f hf
    rw [absorbFields]
    split
    · exact ih merged hown (put v hv)
    · next w hw =>
      split
      · exact ih merged hown (put v hv)
      · next u hu => exact ih merged hown (put u (step w u (hother _ (Entries.mem_of_get? hw)) hu))

variable {P : Provenance → Reference → Prop} {u v w : Value}

theorem RefersBy.stack {top : Value} {ls : List Value} (h : ∀ l ∈ ls, l.RefersBy P) :
    (Value.stack top ls).RefersBy P :=
  .of_parts nofun h

/-- Merging makes no references. -/
theorem RefersBy.absorb? (hv : v.RefersBy P) (hw : w.RefersBy P)
    (h : v.absorb? w = some u) : u.RefersBy P := by
  induction v using parts_induction generalizing w u with
  | node v ih =>
    have both : ∀ l ∈ v.layers ++ w.layers, l.RefersBy P := fun l hl =>
      (List.mem_append.1 hl).elim (hv.layers l) (hw.layers l)
    have onto (vs : List Value) (hvs : ∀ l ∈ vs, l.RefersBy P) :
        ∀ l ∈ vs ++ [w], l.RefersBy P := fun l hl =>
      (List.mem_append.1 hl).elim (hvs l) fun hl => List.mem_singleton.1 hl ▸ hw
    cases hf : v.fields? with
    | none =>
      rw [absorb?_of_fields?_eq_none hf] at h
      split at h
      · cases h
      · split at h <;> cases h
        · exact .stack both
        · exact .stack (onto _ hv.layers)
    | some own =>
      obtain ⟨p, c, rfl⟩ := eq_object_of_fields? hf
      cases hg : w.fields? with
      | none =>
        rw [absorb?_object_of_fields?_eq_none hg] at h
        simp only [] at h
        split at h
        · cases h
        split at h
        · cases h
          exact .stack both
        split at h
        · cases c <;> cases h
          exact .object hv.field
        · cases h
          exact .stack (onto [_] (List.forall_mem_singleton.2 hv))
      | some other =>
        obtain ⟨q, c', rfl⟩ := eq_object_of_fields? hg
        have fields := forall_mem_absorbFields (P := RefersBy P)
          (fun f hf w u hw hu =>
            ih f.2 (mem_parts_of_mem_fields hf) (hv.field f hf) hw hu)
          hv.field hw.field
        rw [absorb?_object] at h
        simp only [] at h
        split at h
        · cases h
        split at h
        · cases h
          exact .object fields
        split at h <;> cases h
        exact .object fields

theorem RefersBy.withFallback (hv : v.RefersBy P) (hw : w.RefersBy P) :
    (v.withFallback w).RefersBy P := by
  unfold Value.withFallback
  cases h : v.absorb? w with
  | none => exact hv
  | some u => exact hv.absorb? hw h

theorem RefersBy.mergeLayers? {ls : List Value} (h : ∀ l ∈ ls, l.RefersBy P)
    (hw : Value.mergeLayers? ls = some w) : w.RefersBy P := by
  cases ls with
  | nil => cases hw
  | cons l ls =>
    cases hw
    obtain ⟨hl, hls⟩ := List.forall_mem_cons.1 h
    clear h
    induction ls generalizing l with
    | nil => exact hl
    | cons l' ls ih =>
      obtain ⟨hl', hls⟩ := List.forall_mem_cons.1 hls
      exact ih _ (hl.withFallback hl') hls

/-- Joining makes no references. -/
theorem RefersBy.joinClosed : JoinClosed (RefersBy P) where
  merged _ _ hv hw := hw.withFallback hv
  appended _ _ _ _ hx hy := .of_parts nofun fun _ hu => (List.mem_append.1 hu).elim hx.part hy.part
  text _ _ _ _ _ := .of_parts nofun nofun
  split _ _ h := fun _ => h.part

theorem RefersBy.reference {p : Provenance} {r : Reference} (h : P p r) :
    (Value.reference p r).RefersBy P := by
  intro q t ht
  cases ht with
  | self => exact h
  | part _ hu => cases hu

/-- A reference has the property still if it gets a mark. -/
def MarkStable (P : Provenance → Reference → Prop) : Prop :=
  ∀ p r n, p.mark = none → P p r → P (p.withMark n) r

/-- Marking gives marks to references without one. -/
theorem RefersBy.markFrom (h : v.RefersBy P) (stable : MarkStable P) (next : Nat) :
    (v.markFrom next).1.RefersBy P := by
  induction v using parts_induction generalizing next with
  | node v ih =>
    cases mark : v.mark with
    | some n => rwa [markFrom_of_mark mark]
    | none =>
      obtain ⟨-, parts, -, -⟩ := markFrom_of_no_mark mark next
      have marks : ∀ u ∈ (v.markFrom next).1.parts, u.RefersBy P := by
        intro u hu
        rw [parts] at hu
        obtain ⟨i, hi⟩ := List.mem_iff_getElem?.1 hu
        obtain ⟨x, hx⟩ := Alike.exists_getElem? (length_markItems _ _) hi
        obtain ⟨n, rfl⟩ := getElem?_markItems hx hi
        have hx := List.mem_of_getElem? hx
        exact ih x hx (h.part hx) n
      cases v with
      | reference p r =>
        rw [Value.markFrom]
        split
        · exact h
        · exact .reference (stable p r next mark (h p r .self))
      | _ =>
        refine .of_parts (fun p r e => ?_) marks
        rw [Value.markFrom] at e
        split at e <;> cases e

/-- What shows of an open merge has its references. -/
theorem RefersBy.showing {c : Resolution.Surroundings} (hv : v.RefersBy P) (stable : MarkStable P)
    (h : c.showing? v = some (some w)) : w.RefersBy P := by
  cases v with
  | merge p k layers =>
    obtain ⟨o, -, hm⟩ := Option.map_eq_some_iff.1 h
    obtain ⟨u, hu, rfl⟩ := Option.map_eq_some_iff.1 hm
    exact (mergeLayers? (fun l hl => hv.layers l (List.mem_of_mem_drop hl)) hu).markFrom stable _
  | _ => cases h

/-! ### Looking through -/

theorem within_of_peekLayers {path : Path} {whole : Origin} {ls : List Value}
    (h : peekLayers path whole ls = .ok (some u)) : ∃ l ∈ ls, u.Within l := by
  induction ls with
  | nil => cases h
  | cons l ls ih =>
    have below (h : peekLayers path whole ls = .ok (some u)) : ∃ l' ∈ l :: ls, u.Within l' := by
      obtain ⟨l', hl', hu⟩ := ih h
      exact ⟨l', List.mem_cons_of_mem _ hl', hu⟩
    rw [peekLayers] at h
    split at h
    · next fs hf =>
      obtain ⟨p, c, rfl⟩ := eq_object_of_fields? hf
      split at h
      · next v hv =>
        split at h
        · cases h
          exact ⟨_, List.mem_cons_self, .part .self
            (mem_parts_of_mem_fields (Entries.mem_of_get? hv))⟩
        · exact below h
      · exact below h
    · split at h <;> cases h

theorem within_of_peekFirst {path : Path} (h : v.peekFirst path = .ok (some u)) : u.Within v := by
  cases v with
  | object p c fs =>
    simp only [peekFirst, Except.ok.injEq] at h
    exact .part .self (mem_parts_of_mem_fields (Entries.mem_of_get? h))
  | merge p k ls =>
    cases k with
    | value => cases h
    | object =>
      obtain ⟨l, hl, hu⟩ := within_of_peekLayers h
      exact hu.trans (.part .self hl)
  | _ => cases h

/-- What is seen through objects and merges is a node of the tree. -/
theorem within_of_peekThrough {first : String} {rest : List String}
    (h : v.peekThrough first rest = .ok (some u)) : u.Within v := by
  induction rest generalizing v first with
  | nil => exact within_of_peekFirst h
  | cons next rest ih =>
    rw [peekThrough] at h
    cases hx : v.peekFirst ⟨first, next :: rest⟩ with
    | error e => simp [hx, bind, Except.bind] at h
    | ok found =>
      cases found with
      | none => simp [hx, bind, Except.bind, pure, Except.pure] at h
      | some x =>
        simp only [hx, bind, Except.bind] at h
        split at h
        · exact (ih h).trans (within_of_peekFirst hx)
        · cases h

/-! ### Marks of references -/

theorem referenceMarks_eq (v : Value) :
    v.referenceMarks = match v with
      | reference p _ => p.mark.toList
      | v => v.parts.flatMap referenceMarks := by
  have items (xs : List Value) : referenceMarksOfItems xs = xs.flatMap referenceMarks := by
    induction xs with
    | nil => rfl
    | cons x xs ih => rw [referenceMarksOfItems, ih, List.flatMap_cons]
  have fields (fs : Entries Value) :
      referenceMarksOfFields fs = (fs.map (·.2)).flatMap referenceMarks := by
    induction fs with
    | nil => rfl
    | cons f fs ih => rw [referenceMarksOfFields, ih, List.map_cons, List.flatMap_cons]
  cases v with
  | object p closed fs => exact fields fs
  | list p xs => exact items xs
  | concat p xs => exact items xs
  | merge p k xs => exact items xs
  | _ => rfl

/-- The references of a part are references of the whole. -/
theorem referenceMarks_of_mem_parts (h : u ∈ v.parts) {n : Nat} (hn : n ∈ u.referenceMarks) :
    n ∈ v.referenceMarks := by
  have below : n ∈ v.parts.flatMap referenceMarks := List.mem_flatMap.2 ⟨u, h, hn⟩
  rw [referenceMarks_eq]
  cases v with
  | reference => exact absurd h List.not_mem_nil
  | _ => exact below

theorem mem_referenceMarks_of_within {p : Provenance} {r : Reference} {n : Nat}
    (h : (reference p r).Within v) (mark : p.mark = some n) : n ∈ v.referenceMarks := by
  generalize hu : reference p r = u at h
  induction h with
  | self =>
    subst hu
    simp [referenceMarks, mark]
  | part _ hw ih => exact referenceMarks_of_mem_parts hw ih

end Value

/-! ### What a resolution remembers and builds -/

namespace Resolution

open Value

variable {P : Provenance → Reference → Prop} {s : Setting} {m : Memory} {v w : Value}
  {along : Option Path}

/-- All that is remembered has references with the property only. -/
def Memory.RefersBy (P : Provenance → Reference → Prop) (m : Memory) : Prop :=
  ∀ memo ∈ m.memos, memo.result.RefersBy P

theorem Memory.RefersBy.recall (h : m.RefersBy P) (hw : m.recall? v along = some w) :
    w.RefersBy P := by
  have find {n : Nat} {along : Option Path} (hn : m.find? n along = some w) : w.RefersBy P := by
    obtain ⟨memo, hm, rfl⟩ := Option.map_eq_some_iff.1 hn
    exact h memo (List.mem_of_find?_eq_some hm)
  unfold Memory.recall? at hw
  split at hw
  · cases hw
  split at hw
  · next h => exact find (h.trans hw)
  split at hw
  · exact find hw
  · cases hw

theorem Memory.RefersBy.remember (h : m.RefersBy P) (hw : w.RefersBy P) (v : Value)
    (along : Option Path) : (m.remember v along w).RefersBy P := by
  unfold Memory.remember
  split
  · exact h
  · exact List.forall_mem_cons.2 ⟨hw, h⟩

/-- What a computation gives that resolves something. -/
def ResultRefersBy (P : Provenance → Reference → Prop) (result : Option Value) : Prop :=
  ∀ w, result = some w → w.RefersBy P

theorem keep_ensures (hm : m.RefersBy P) (hw : w.RefersBy P) :
    Ensures (keep s v along w) m fun out m' => m'.RefersBy P ∧ ∀ a, out = .ok a → True := by
  unfold keep
  split
  · exact Ensures.modify ⟨hm.remember hw v none, fun _ _ => trivial⟩
  split
  · exact Ensures.modify ⟨hm.remember hw v along, fun _ _ => trivial⟩
  · exact Ensures.throw ⟨hm, nofun⟩

theorem renew_ensures (stable : MarkStable P) (hm : m.RefersBy P) (hw : w.RefersBy P) :
    Ensures (renew w) m fun out m' => m'.RefersBy P ∧ ∀ u, out = .ok u → u.RefersBy P :=
  Ensures.modifyGet ⟨hm, by rintro _ ⟨⟩; exact hw.markFrom stable m.next⟩

theorem reserve_ensures (hm : m.RefersBy P) (below : List Value) :
    Ensures (reserve below) m fun out m' => m'.RefersBy P ∧ ∀ a, out = .ok a → True :=
  Ensures.modifyGet ⟨hm, fun _ _ => trivial⟩

theorem rebuildObject_ensures {fs : Entries Value} {rs : Entries (Option Value)}
    (stable : MarkStable P) (hm : m.RefersBy P) (hv : v.RefersBy P)
    (hrs : ∀ f ∈ rs, ResultRefersBy P f.2) :
    Ensures (rebuildObject v fs rs) m
      fun out m' => m'.RefersBy P ∧ ∀ u, out = .ok u → u.RefersBy P := by
  unfold rebuildObject
  split
  · exact Ensures.pure ⟨hm, by rintro _ ⟨⟩; exact hv⟩
  · refine renew_ensures stable hm (.object fun f hf => ?_)
    obtain ⟨r, hr, he⟩ := List.mem_filterMap.1 hf
    obtain ⟨w, hw, rfl⟩ := Option.map_eq_some_iff.1 he
    exact hrs r hr w hw

theorem rebuildList_ensures {xs : List Value} {rs : List (Option Value)}
    (stable : MarkStable P) (hm : m.RefersBy P) (hv : v.RefersBy P)
    (hrs : ∀ r ∈ rs, ResultRefersBy P r) :
    Ensures (rebuildList v xs rs) m
      fun out m' => m'.RefersBy P ∧ ∀ u, out = .ok u → u.RefersBy P := by
  unfold rebuildList
  split
  · exact Ensures.pure ⟨hm, by rintro _ ⟨⟩; exact hv⟩
  · refine renew_ensures stable hm (.of_parts nofun fun u hu => ?_)
    obtain ⟨r, hr, he⟩ := List.mem_filterMap.1 hu
    exact hrs r hr u he

theorem joinPieces_ensures {ps : List Value} (stable : MarkStable P) (hm : m.RefersBy P)
    (hps : ∀ x ∈ ps, x.RefersBy P) :
    Ensures (joinPieces s v ps) m
      fun out m' => m'.RefersBy P ∧ ∀ r, out = .ok r → ResultRefersBy P r := by
  have single {w : Value} (hw : w.RefersBy P) :
      Ensures (do return some (← renew w)) m
        fun out m' => m'.RefersBy P ∧ ∀ r, out = .ok r → ResultRefersBy P r :=
    (renew_ensures stable hm hw).bind (fun u m' h => Ensures.pure ⟨h.1, by
      rintro _ ⟨⟩ _ ⟨⟩
      exact h.2 u rfl⟩) fun e m' h => ⟨h.1, nofun⟩
  unfold joinPieces
  split
  · exact Ensures.throw ⟨hm, nofun⟩
  · exact Ensures.pure ⟨hm, by rintro _ ⟨⟩ _ ⟨⟩⟩
  · next w hw => exact single (RefersBy.joinClosed.joinRun hps hw w List.mem_cons_self)
  · next ws _ _ hw =>
    split
    · exact single (.of_parts nofun (RefersBy.joinClosed.joinRun hps hw))
    · exact Ensures.throw ⟨hm, nofun⟩

end Resolution

end Hocon
