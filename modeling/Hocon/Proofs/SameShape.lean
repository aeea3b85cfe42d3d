import Hocon.Proofs.Enclosing

/-!
# Values of the same shape

Whether neighbours can be joined hangs on their kinds, not on what objects and lists hold.  So two
readings of the same pieces, which include different documents, are joined alike or fail alike
(`Value.concatenate_sameShape`).
-/

namespace Hocon

open Value

/-- Two values as readings of the same items may give them: objects, lists, or the same value. -/
inductive Value.SameShape : Value → Value → Prop
  | objects {v w : Value} (hv : v.fields?.isSome = true) (hw : w.fields?.isSome = true) : SameShape v w
  | lists {v w : Value} (hv : v.items?.isSome = true) (hw : w.items?.isSome = true) : SameShape v w
  | same {v : Value} (single : v.isPiece = true) (plain : v.fields? = none) : SameShape v v

namespace Value

variable {v w v' w' : Value}

theorem exists_object_of_fields? (h : v.fields?.isSome = true) :
    ∃ p closed fs, v = object p closed fs := by
  obtain ⟨fs, hfs⟩ := Option.isSome_iff_exists.1 h
  obtain ⟨p, closed, rfl⟩ := eq_object_of_fields? hfs
  exact ⟨p, closed, fs, rfl⟩

theorem exists_list_of_items? (h : v.items?.isSome = true) : ∃ p xs, v = list p xs := by
  cases v with
  | list p xs => exact ⟨p, xs, rfl⟩
  | _ => cases h

/-- An object over an object is one. -/
theorem fields?_withFallback_isSome (hv : v.fields?.isSome = true) (hw : w.fields?.isSome = true) :
    (v.withFallback w).fields?.isSome = true := by
  obtain ⟨p, closed, own, rfl⟩ := exists_object_of_fields? hv
  obtain ⟨q, closed', other, rfl⟩ := exists_object_of_fields? hw
  unfold withFallback
  rw [absorb?_object]
  simp only []
  split
  · rfl
  · split
    · rfl
    · split <;> rfl

namespace SameShape

/-- What the outcome of joining hangs on. -/
theorem traits (h : SameShape v w) :
    v.isObjectValued = w.isObjectValued ∧ v.items?.isSome = w.items?.isSome
      ∧ v.isBlankText = w.isBlankText ∧ v.isPending = w.isPending
      ∧ (∀ n, (joinText? n v).isSome = (joinText? n w).isSome)
      ∧ v.fields?.isSome = w.fields?.isSome := by
  cases h with
  | objects hv hw =>
    obtain ⟨p, closed, fs, rfl⟩ := exists_object_of_fields? hv
    obtain ⟨q, closed', fs', rfl⟩ := exists_object_of_fields? hw
    exact ⟨rfl, rfl, rfl, rfl, fun n => by cases n <;> rfl, rfl⟩
  | lists hv hw =>
    obtain ⟨p, xs, rfl⟩ := exists_list_of_items? hv
    obtain ⟨q, ys, rfl⟩ := exists_list_of_items? hw
    exact ⟨rfl, rfl, rfl, rfl, fun n => by cases n <;> rfl, rfl⟩
  | same => exact ⟨rfl, rfl, rfl, rfl, fun _ => rfl, rfl⟩

theorem fields?_of_isObjectValued (h : SameShape v w) (object : v.isObjectValued = true) :
    v.fields?.isSome = true := by
  cases h with
  | objects hv => exact hv
  | lists hv =>
    obtain ⟨p, xs, rfl⟩ := exists_list_of_items? hv
    cases object
  | same single =>
    cases v with
    | object => rfl
    | merge => cases single
    | _ => cases object

theorem eq_of_joinText? {nullIsEmpty : Bool} (h : SameShape v w)
    (text : (joinText? nullIsEmpty v).isSome = true) : v = w := by
  cases h with
  | objects hv =>
    obtain ⟨p, closed, fs, rfl⟩ := exists_object_of_fields? hv
    cases nullIsEmpty <;> cases text
  | lists hv =>
    obtain ⟨p, xs, rfl⟩ := exists_list_of_items? hv
    cases nullIsEmpty <;> cases text
  | same => rfl

end SameShape

/-- Two outcomes that are both failures, or both results that are in a relation. -/
inductive EndAlike {α β : Type} (R : α → β → Prop) : Except Error α → Except Error β → Prop
  | ok {a : α} {b : β} (h : R a b) : EndAlike R (.ok a) (.ok b)
  | error (e e' : Error) : EndAlike R (.error e) (.error e')

/-- Neighbours of the same shapes are joined to values of the same shape, or not at all. -/
theorem join?_sameShape (nullIsEmpty : Bool) (hv : SameShape v v') (hw : SameShape w w') :
    EndAlike (Option.Rel SameShape) (join? nullIsEmpty v w) (join? nullIsEmpty v' w') := by
  obtain ⟨object, items, blank, pending, text, -⟩ := hv.traits
  obtain ⟨object', items', blank', pending', text', -⟩ := hw.traits
  by_cases objects : (v.isObjectValued && w.isObjectValued) = true
  · have objects' : (v'.isObjectValued && w'.isObjectValued) = true := by rwa [← object, ← object']
    rw [join?_of_objects objects, join?_of_objects objects']
    obtain ⟨hv₁, hw₁⟩ := Bool.and_eq_true_iff.1 objects
    have upper := hw.fields?_of_isObjectValued hw₁
    have lower := hv.fields?_of_isObjectValued hv₁
    refine .ok (.some (.objects (fields?_withFallback_isSome upper lower) ?_))
    exact fields?_withFallback_isSome (hw.traits.2.2.2.2.2 ▸ upper) (hv.traits.2.2.2.2.2 ▸ lower)
  have objects' : ¬(v'.isObjectValued && w'.isObjectValued) = true := by rwa [← object, ← object']
  by_cases lists : v.items?.isSome = true ∧ w.items?.isSome = true
  · obtain ⟨xs, hxs⟩ := Option.isSome_iff_exists.1 lists.1
    obtain ⟨ys, hys⟩ := Option.isSome_iff_exists.1 lists.2
    obtain ⟨xs', hxs'⟩ := Option.isSome_iff_exists.1 (items ▸ lists.1)
    obtain ⟨ys', hys'⟩ := Option.isSome_iff_exists.1 (items' ▸ lists.2)
    rw [join?_of_lists objects hxs hys, join?_of_lists objects' hxs' hys']
    exact .ok (.some (.lists rfl rfl))
  have apart {x y : Value} (h : ¬(x.items?.isSome = true ∧ y.items?.isSome = true)) :
      x.items? = none ∨ y.items? = none := by
    rw [← Option.not_isSome_iff_eq_none, ← Option.not_isSome_iff_eq_none]
    exact Classical.not_and_iff_not_or_not.1 h
  rw [join?_of_scalars objects (apart lists),
    join?_of_scalars objects' (apart (by rwa [← items, ← items']))]
  unfold joinScalars
  rw [← object, ← items, ← blank', ← pending, ← pending']
  split
  · exact .ok (.some hv)
  split
  · exact .ok .none
  by_cases texts : (joinText? nullIsEmpty v).isSome = true ∧ (joinText? nullIsEmpty w).isSome = true
  · -- only the very same text has any
    obtain rfl := hv.eq_of_joinText? texts.1
    obtain rfl := hw.eq_of_joinText? texts.2
    obtain ⟨s, hs⟩ := Option.isSome_iff_exists.1 texts.1
    obtain ⟨t, ht⟩ := Option.isSome_iff_exists.1 texts.2
    rw [hs, ht]
    exact .ok (.some (.same rfl rfl))
  · have texts' : ¬((joinText? nullIsEmpty v').isSome = true
        ∧ (joinText? nullIsEmpty w').isSome = true) := by rwa [← text, ← text']
    split
    · next hs ht => exact absurd ⟨by rw [hs]; rfl, by rw [ht]; rfl⟩ texts
    split
    · next hs ht => exact absurd ⟨by rw [hs]; rfl, by rw [ht]; rfl⟩ texts'
    · exact .error _ _

theorem joinOnto_sameShape {nullIsEmpty : Bool} {todo todo' : List Value}
    (h : List.Forall₂ SameShape todo todo') {done done' : List Value}
    (hd : List.Forall₂ SameShape done done') :
    EndAlike (List.Forall₂ SameShape) (joinOnto nullIsEmpty done todo)
      (joinOnto nullIsEmpty done' todo') := by
  induction h generalizing done done' with
  | nil => exact .ok (List.rel_reverse hd)
  | @cons r r' todo todo' hr h ih =>
    cases hd with
    | nil => exact ih (.cons hr .nil)
    | @cons l l' before before' hl hb =>
      rw [joinOnto, joinOnto]
      have joined := join?_sameShape nullIsEmpty hl hr
      generalize join? nullIsEmpty l r = x at joined ⊢
      generalize join? nullIsEmpty l' r' = y at joined ⊢
      cases joined with
      | error => exact .error _ _
      | ok h =>
        cases h with
        | some h => exact ih (.cons h hb)
        | none => exact ih (.cons hr (.cons hl hb))

/-- No piece is a concatenation that would be taken apart. -/
theorem flattenPieces_of_sameShape {ps qs : List Value} (h : List.Forall₂ SameShape ps qs) :
    flattenPieces ps = ps := by
  have flat {p q : Value} (h : SameShape p q) : flattenPieces [p] = [p] := by
    cases h with
    | objects hv =>
      obtain ⟨p, closed, fs, rfl⟩ := exists_object_of_fields? hv
      rfl
    | lists hv =>
      obtain ⟨p, xs, rfl⟩ := exists_list_of_items? hv
      rfl
    | same single => cases p <;> first | rfl | cases single
  induction h with
  | nil => rfl
  | @cons p q ps qs h _ ih =>
    have split : flattenPieces ([p] ++ ps) = flattenPieces [p] ++ flattenPieces ps :=
      List.flatMap_append
    rwa [flat h, ih] at split

theorem SameShape.symm (h : SameShape v w) : SameShape w v := by
  cases h with
  | objects hv hw => exact .objects hw hv
  | lists hv hw => exact .lists hw hv
  | same single plain => exact .same single plain

/-- Pieces of the same shapes come to a value, to nothing or to a failure alike. -/
theorem concatenate_sameShape {ps qs : List Value} (h : List.Forall₂ SameShape ps qs) :
    EndAlike (fun v w => v.isSome = w.isSome) (concatenate ps) (concatenate qs) := by
  have flip : List.Forall₂ SameShape qs ps := h.flip.imp fun _ _ => SameShape.symm
  have joined : EndAlike (List.Forall₂ SameShape) (joinRun false ps) (joinRun false qs) := by
    unfold joinRun
    rw [h.length_eq, flattenPieces_of_sameShape h, flattenPieces_of_sameShape flip]
    split
    · exact .ok h
    · exact joinOnto_sameShape h .nil
  unfold concatenate
  generalize joinRun false ps = x at joined ⊢
  generalize joinRun false qs = y at joined ⊢
  cases joined with
  | error => exact .error _ _
  | ok h =>
    cases h with
    | nil => exact .ok rfl
    | cons _ h =>
      cases h with
      | nil => exact .ok rfl
      | cons => exact .ok rfl

end Value

end Hocon
