import Mathlib
import Hocon.Proofs.History
import Hocon.Proofs.Layers
import Hocon.Proofs.Reading

/-!
# Joining early and late

The neighbours of a value are joined when a document is read, as far as they are known then, and
the rest when the references among them are.
-/

namespace Hocon

namespace Content

/-! ### Two neighbours in front of and behind others -/

variable {a l r v : Content}

theorem joinTwo_of_texts {s t : String} (ha : a.joinText? = some s) (hr : r.joinText? = some t) :
    joinTwo a r = some (text (s ++ t) true) := by
  cases a with
  | fields | items | absent => cases ha
  | _ =>
    cases r with
    | fields | items | absent => cases hr
    | _ =>
      cases ha
      cases hr
      rfl

theorem joinTwo_container_text {t : String} (ha : a.isContainer = true)
    (hr : r.joinText? = some t) : joinTwo a r = if r.isBlankText then some a else none := by
  cases a with
  | fields | items =>
    cases r with
    | fields | items | absent => cases hr
    | text t quoted => exact joinTwo_of_isContainer ha t quoted
    | _ => rfl
  | _ => cases ha

theorem joinTwo_text_container {s : String} (ha : a.joinText? = some s)
    (hr : r.isContainer = true) : joinTwo a r = none := by
  cases r with
  | fields | items =>
    cases a with
    | fields | items | absent => cases ha
    | _ => rfl
  | _ => cases hr

/-- What is present is a container or has a text. -/
theorem isContainer_or_joinText? (present : a ≠ absent) :
    a.isContainer = true ∨ ∃ s, a.joinText? = some s := by
  cases a with
  | absent => exact absurd rfl present
  | fields | items => exact .inl rfl
  | _ => exact .inr ⟨_, rfl⟩

/-- `v` is what `l` and `r` come to by themselves, and whatever stands in front of them. -/
structure Pairs (l r : Content) (v : Option Content) : Prop where
  alone : joinTwo l r = v
  behind : ∀ a : Content, a ≠ absent → (joinTwo a l).bind (joinTwo · r) = v.bind (joinTwo a ·)

theorem Pairs.fields (c d : Bool) (f g : String → Content) :
    Pairs (fields c f) (fields d g) (some ((fields d g).upon (fields c f))) where
  alone := rfl
  behind a present := by
    have merged : ∃ e h, (Content.fields d g).upon (Content.fields c f) = Content.fields e h := by
      cases d <;> exact ⟨_, _, rfl⟩
    obtain ⟨e, h, merged⟩ := merged
    cases a with
    | absent => exact absurd rfl present
    | fields b k =>
      have first : ∃ e' h', (Content.fields c f).upon (Content.fields b k) = Content.fields e' h' := by
        cases c <;> exact ⟨_, _, rfl⟩
      obtain ⟨e', h', first⟩ := first
      have assoc := upon_assoc (Content.fields d g) (Content.fields c f) (Content.fields b k)
      rw [merged, first] at assoc
      simp only [merged, joinTwo, first, Option.bind_some, assoc]
    | _ =>
      rw [merged]
      rfl

theorem Pairs.items (xs ys : List Content) :
    Pairs (items xs) (items ys) (some (items (xs ++ ys))) where
  alone := rfl
  behind a present := by
    cases a with
    | absent => exact absurd rfl present
    | items zs => simp only [joinTwo, Option.bind_some, List.append_assoc]
    | _ => rfl

/-- Two texts; what is in front of them either is one too, or takes neither. -/
theorem Pairs.texts {s t : String} (hl : l.joinText? = some s) (hr : r.joinText? = some t)
    (blank : l.isBlankText = true → r.isBlankText = false) :
    Pairs l r (some (text (s ++ t) true)) where
  alone := joinTwo_of_texts hl hr
  behind a present := by
    have joined : (text (s ++ t) true).joinText? = some (s ++ t) := rfl
    obtain container | ⟨u, hu⟩ := isContainer_or_joinText? present
    · rw [Option.bind_some, joinTwo_container_text container hl,
        joinTwo_container_text container joined]
      cases hb : l.isBlankText with
      | false => rfl
      | true =>
        show joinTwo a r = none
        rw [joinTwo_container_text container hr, blank hb]
        rfl
    · rw [joinTwo_of_texts hu hl, Option.bind_some, Option.bind_some, joinTwo_of_texts hu joined,
        joinTwo_of_texts rfl hr, String.append_assoc]

/-- What takes a container is one of the same kind. -/
theorem isContainer_of_joinTwo (hr : r.isContainer = true) (h : joinTwo a r = some v) :
    v.isContainer = true ∧ v.isFields = r.isFields := by
  cases r with
  | fields d g =>
    cases a with
    | fields c f =>
      cases h
      cases d <;> exact ⟨rfl, rfl⟩
    | _ => cases h
  | items ys =>
    cases a with
    | items xs =>
      cases h
      exact ⟨rfl, rfl⟩
    | _ => cases h
  | _ => cases hr

theorem joinTwo_containers (hl : l.isContainer = true) (hr : r.isContainer = true)
    (different : l.isFields ≠ r.isFields) : joinTwo l r = none := by
  cases l with
  | fields | items =>
    cases r with
    | fields | items => first | rfl | exact absurd rfl different
    | _ => cases hr
  | _ => cases hl

/-- Blanks behind a container. -/
theorem Pairs.separated (hl : l.isContainer = true) {t : String} (hr : r.joinText? = some t)
    (blank : r.isBlankText = true) : Pairs l r (some l) where
  alone := by rw [joinTwo_container_text hl hr, if_pos blank]
  behind a _ := by
    cases h : joinTwo a l with
    | none => exact h.symm
    | some b =>
      have both := isContainer_of_joinTwo hl h
      rw [Option.bind_some, joinTwo_container_text both.1 hr, if_pos blank]
      exact h.symm

/-- Two neighbours that cannot be joined, and nothing in front of them changes that. -/
theorem Pairs.container_text (hl : l.isContainer = true) {t : String} (hr : r.joinText? = some t)
    (blank : r.isBlankText = false) : Pairs l r none where
  alone := by rw [joinTwo_container_text hl hr, blank]; rfl
  behind a _ := by
    cases h : joinTwo a l with
    | none => rfl
    | some b =>
      rw [Option.bind_some, joinTwo_container_text (isContainer_of_joinTwo hl h).1 hr, blank]
      rfl

theorem Pairs.text_container {s : String} (hl : l.joinText? = some s)
    (blank : l.isBlankText = false) (hr : r.isContainer = true) : Pairs l r none where
  alone := joinTwo_text_container hl hr
  behind a present := by
    obtain container | ⟨u, hu⟩ := isContainer_or_joinText? present
    · rw [joinTwo_container_text container hl, blank]
      rfl
    · have text : (text (u ++ s) true).joinText? = some (u ++ s) := rfl
      rw [joinTwo_of_texts hu hl]
      exact joinTwo_text_container text hr

theorem Pairs.containers (hl : l.isContainer = true) (hr : r.isContainer = true)
    (different : l.isFields ≠ r.isFields) : Pairs l r none where
  alone := joinTwo_containers hl hr different
  behind a _ := by
    cases h : joinTwo a l with
    | none => rfl
    | some b =>
      obtain ⟨container, kind⟩ := isContainer_of_joinTwo hl h
      exact joinTwo_containers container hr (kind ▸ different)

/-! ### Two neighbours among others -/

theorem Pairs.joinAll {v : Option Content} (h : Pairs l r v) (P R : List Content)
    (present : ∀ c ∈ P, c ≠ absent) :
    joinAll (P ++ l :: r :: R) = v.bind fun x => joinAll (P ++ x :: R) := by
  cases P with
  | nil =>
    show (r :: R).foldlM joinTwo l = _
    rw [List.foldlM_cons, h.alone]
    rfl
  | cons p P =>
    show (P ++ l :: r :: R).foldlM joinTwo p = v.bind fun x => (P ++ x :: R).foldlM joinTwo p
    simp only [List.foldlM_append, List.foldlM_cons]
    cases ha : P.foldlM joinTwo p with
    | none => cases v <;> rfl
    | some a =>
      have a_present : a ≠ absent := by
        rintro rfl
        exact foldlM_joinTwo_ne_absent (present p List.mem_cons_self) P ha
      let rest (c : Content) := R.foldlM joinTwo c
      show ((joinTwo a l).bind fun b => (joinTwo b r).bind rest)
        = v.bind fun x => (joinTwo a x).bind rest
      calc
        _ = ((joinTwo a l).bind (joinTwo · r)).bind rest := (Option.bind_assoc ..).symm
        _ = (v.bind (joinTwo a ·)).bind rest := by rw [h.behind a a_present]
        _ = v.bind fun x => (joinTwo a x).bind rest := Option.bind_assoc ..

end Content

namespace Value

/-! ### Pieces as they are collected -/

/-- Whether this is an object or a list. -/
def isContainer (v : Value) : Bool := v.fields?.isSome || v.items?.isSome

/-- Behind a blank stands a scalar or a reference, and not another blank. -/
def Spaced (v w : Value) : Prop :=
  v.isBlankText = true → w.isContainer = false ∧ w.isBlankText = false

/-- Of a null and its neighbour, the neighbour is no scalar. -/
def NullApart (v w : Value) : Prop :=
  (v.isNull = true → w.scalarText? = none) ∧ (w.isNull = true → v.scalarText? = none)

/-- Whether this is neither joined from others nor merged. -/
def isSingle : Value → Bool
  | concat _ _ => false
  | merge _ _ _ => false
  | _ => true

/-- The neighbours that make up one value. -/
structure Collected (ps : List Value) : Prop where
  single : ∀ x ∈ ps, x.isSingle = true
  spaced : ps.IsChain Spaced

/-! ### Filling in -/

/-- The piece with what is known of it, if it is a reference; nothing, if that vanishes. -/
def fill (σ : Reference → Option Value) : Value → Option Value
  | reference _ r => σ r
  | v => some v

/-- Pieces joined as far as they are known without their references, and again with them. -/
def joinEarly (σ : Reference → Option Value) (ps : List Value) : Except Error (List Value) := do
  match ← concatenate ps with
  | some v => joinRun true (v.pieces.filterMap (fill σ))
  | none => .ok []

/-- Pieces joined with what their references are. -/
def joinLate (σ : Reference → Option Value) (ps : List Value) : Except Error (List Value) :=
  joinRun true (ps.filterMap (fill σ))

variable {σ : Reference → Option Value} {known : List String → Content} {left right v w : Value}
  {nullIsEmpty : Bool}

theorem fill_of_isPending (h : v.isPending = false) : fill σ v = some v := by
  cases v <;> first | rfl | cases h

/-! ### The contents of neighbours -/

theorem isContainer_content (h : v.isPending = false) :
    (v.content known).isContainer = v.isContainer := by
  cases v <;> first | rfl | cases h

theorem joinText?_content (h : v.isPending = false) :
    (v.content known).joinText? = joinText? true v := by
  cases v <;> first | rfl | cases h

theorem joinText?_of_isNull (notNull : v.isNull = false) (nullIsEmpty : Bool) :
    joinText? nullIsEmpty v = v.scalarText? := by
  rw [joinText?, notNull, Bool.and_false]
  rfl

/-- What waits for nothing is a container or a scalar. -/
theorem isContainer_or_scalarText? (h : v.isPending = false) :
    v.isContainer = true ∧ v.scalarText? = none ∧ v.isNull = false
      ∨ v.isContainer = false ∧ ∃ s, v.scalarText? = some s := by
  cases v with
  | reference | concat | merge => cases h
  | object | list => exact .inl ⟨rfl, rfl, rfl⟩
  | _ => exact .inr ⟨rfl, _, rfl⟩

theorem joinText?_of_scalarText? (h : v.isPending = false) {s : String}
    (scalar : v.scalarText? = some s) : ∃ t, (v.content known).joinText? = some t := by
  rw [joinText?_content h, joinText?]
  split
  · exact ⟨_, rfl⟩
  · exact ⟨s, scalar⟩

/-- How two neighbours go together that wait for nothing more than their references. -/
theorem join?_cases (hl : left.isSingle = true) (hr : right.isSingle = true)
    {P : Except Error (Option Value) → Prop}
    (objects : ∀ p q c d fs gs, left = object p c fs → right = object q d gs →
      P (.ok (some (right.withFallback left))))
    (lists : ∀ p q xs ys, left = list p xs → right = list q ys →
      P (.ok (some (ofItems (p.origin.merge q.origin) (xs ++ ys)))))
    (separated : left.isPending = false → left.isContainer = true → right.isBlankText = true →
      P (.ok (some left)))
    (waiting : P (.ok none))
    (texts : left.isPending = false → right.isPending = false → ∀ s t,
      joinText? nullIsEmpty left = some s → joinText? nullIsEmpty right = some t →
      P (.ok (some (ofText (left.origin.merge right.origin) (s ++ t)))))
    (refused : left.isPending = false → right.isPending = false →
      (left.isContainer = true → right.isContainer = true →
        left.fields?.isSome ≠ right.fields?.isSome) →
      (left.isContainer = true → right.isBlankText = false) →
      joinText? nullIsEmpty left = none ∨ joinText? nullIsEmpty right = none →
      P (.error (.wrongType left.origin (.cannotJoin left right)))) :
    P (join? nullIsEmpty left right) := by
  by_cases both : (left.isObjectValued && right.isObjectValued) = true
  · rw [join?_of_objects both]
    obtain ⟨first, second⟩ := (Bool.and_eq_true _ _).mp both
    cases left with
    | object p c fs =>
      cases right with
      | object q d gs => exact objects p q c d fs gs rfl rfl
      | merge => cases hr
      | _ => cases second
    | merge => cases hl
    | _ => cases first
  by_cases apart : left.items? = none ∨ right.items? = none
  · rw [join?_of_scalars both apart, joinScalars]
    have waits : left.isContainer = true → left.isPending = false := by
      intro container
      cases left with
      | reference | concat | merge => cases container
      | _ => rfl
    have holds : (left.isObjectValued || left.items?.isSome) = left.isContainer := by
      cases left with
      | merge => cases hl
      | _ => rfl
    rw [holds]
    split
    · next blank =>
      obtain ⟨container, blank⟩ := (Bool.and_eq_true _ _).mp blank
      exact separated (waits container) container blank
    · next notBlank =>
      split
      · exact waiting
      · next free =>
        obtain ⟨freeLeft, freeRight⟩ := Bool.or_eq_false_iff.1 (Bool.eq_false_iff.2 free)
        have different : left.isContainer = true → right.isContainer = true →
            left.fields?.isSome ≠ right.fields?.isSome := by
          intro first second
          cases left with
          | object =>
            cases right with
            | object => exact absurd rfl both
            | list => simp [fields?]
            | _ => cases second
          | list =>
            cases right with
            | object => simp [fields?]
            | list => exact absurd apart (by simp [items?])
            | _ => cases second
          | _ => cases first
        have text : left.isContainer = true → right.isBlankText = false := by
          intro container
          rwa [container, Bool.true_and, Bool.not_eq_true] at notBlank
        cases hs : joinText? nullIsEmpty left with
        | none => exact refused freeLeft freeRight different text (.inl hs)
        | some s =>
          cases ht : joinText? nullIsEmpty right with
          | none => exact refused freeLeft freeRight different text (.inr ht)
          | some t => exact texts freeLeft freeRight s t hs ht
  · obtain ⟨first, second⟩ := not_or.1 apart
    cases left with
    | list p xs =>
      cases right with
      | list q ys =>
        rw [join?_of_lists both rfl rfl]
        exact lists p q xs ys rfl rfl
      | _ => exact absurd rfl second
    | _ => exact absurd rfl first

section Neighbours

variable {manner : Manner} (hl : left.isSingle = true) (hr : right.isSingle = true)
  (spaced : Spaced left right)

include hl hr spaced

/-- What neighbours are joined to when they are read is what they come to among any others. -/
theorem pairs_of_join? (wl : left.WellFormed manner) (wr : right.WellFormed manner)
    (apart : NullApart left right) (h : join? false left right = .ok (some v)) :
    Content.Pairs (left.content known) (right.content known) (some (v.content known)) := by
  revert h
  refine join?_cases hl hr (P := fun joined => joined = .ok (some v) → _) ?objects ?lists
    ?separated ?waiting ?texts ?refused
  case objects =>
    rintro p q c d fs gs rfl rfl ⟨⟩
    rw [content_withFallback wr wl, content, content]
    exact .fields c d _ _
  case lists =>
    rintro p q xs ys rfl rfl ⟨⟩
    simp only [ofItems, content, contentsOf_eq, List.map_append, List.filter_append]
    exact .items _ _
  case separated =>
    rintro free container blank ⟨⟩
    have freeRight : right.isPending = false := by
      cases right with
      | string => rfl
      | _ => cases blank
    have scalar : ∃ t, (right.content known).joinText? = some t := by
      cases right with
      | string p t quoted => exact ⟨t, rfl⟩
      | _ => cases blank
    obtain ⟨t, ht⟩ := scalar
    exact .separated (by rw [isContainer_content free, container]) ht
      (by rw [isBlankText_content freeRight, blank])
  case waiting => rintro ⟨⟩
  case texts =>
    rintro freeLeft freeRight s t hs ht ⟨⟩
    have scalars : left.scalarText? = some s ∧ right.scalarText? = some t := ⟨hs, ht⟩
    have notNull : left.isNull = false ∧ right.isNull = false := by
      constructor
      · by_contra null
        have := apart.1 (Bool.eq_true_of_not_eq_false null)
        rw [scalars.2] at this
        cases this
      · by_contra null
        have := apart.2 (Bool.eq_true_of_not_eq_false null)
        rw [scalars.1] at this
        cases this
    refine .texts ?_ ?_ fun blank => ?_
    · rw [joinText?_content freeLeft, joinText?_of_isNull notNull.1, scalars.1]
    · rw [joinText?_content freeRight, joinText?_of_isNull notNull.2, scalars.2]
    · rw [isBlankText_content freeLeft] at blank
      rw [isBlankText_content freeRight]
      exact (spaced blank).2
  case refused => rintro - - - - - ⟨⟩

/-- Neighbours that are not joined when they are read are not joined among any others. -/
theorem pairs_of_error {e : Error} (h : join? false left right = .error e) :
    Content.Pairs (left.content known) (right.content known) none := by
  revert h
  refine join?_cases hl hr (P := fun joined => joined = .error e → _) ?objects ?lists
    ?separated ?waiting ?texts ?refused
  case objects => rintro - - - - - - - - ⟨⟩
  case lists => rintro - - - - - - ⟨⟩
  case separated => rintro - - - ⟨⟩
  case waiting => rintro ⟨⟩
  case texts => rintro - - - - - - ⟨⟩
  case refused =>
    rintro freeLeft freeRight different notBlank missing -
    have kinds : (left.content known).isFields = left.fields?.isSome
        ∧ (right.content known).isFields = right.fields?.isSome :=
      ⟨isFields_content freeLeft, isFields_content freeRight⟩
    obtain ⟨first, noText, -⟩ | ⟨first, s, hs⟩ := isContainer_or_scalarText? freeLeft <;>
      obtain ⟨second, noText', -⟩ | ⟨second, t, ht⟩ := isContainer_or_scalarText? freeRight
    · refine .containers (by rw [isContainer_content freeLeft, first])
        (by rw [isContainer_content freeRight, second]) ?_
      rw [kinds.1, kinds.2]
      exact different first second
    · obtain ⟨u, hu⟩ : ∃ u, (right.content known).joinText? = some u :=
        joinText?_of_scalarText? freeRight ht
      exact .container_text (by rw [isContainer_content freeLeft, first]) hu
        (by rw [isBlankText_content freeRight, notBlank first])
    · obtain ⟨u, hu⟩ : ∃ u, (left.content known).joinText? = some u :=
        joinText?_of_scalarText? freeLeft hs
      refine .text_container hu ?_ (by rw [isContainer_content freeRight, second])
      rw [isBlankText_content freeLeft]
      by_contra blank
      have := (spaced (Bool.eq_true_of_not_eq_false blank)).1
      rw [second] at this
      cases this
    · have texts : joinText? false left = some s ∧ joinText? false right = some t := ⟨hs, ht⟩
      rw [texts.1, texts.2] at missing
      obtain none | none := missing <;> cases none

end Neighbours

/-! ### What neighbours become when they are read -/

/-- What two neighbours became, told by how it goes with others. -/
structure Combined (left right v : Value) : Prop where
  free : v.isPending = false
  notBlank : v.isBlankText = false
  notNull : v.isNull = false
  container : v.isContainer = true → left.isContainer = true
  scalar : left.scalarText? = none ∨ right.scalarText? = none → v.scalarText? = none

/-- Only neighbours that are there are joined, and what they become is there. -/
theorem combined_of_join? (hl : left.isSingle = true) (hr : right.isSingle = true)
    (h : join? false left right = .ok (some v)) :
    left.isPending = false ∧ right.isPending = false ∧ Combined left right v := by
  revert h
  refine join?_cases hl hr (P := fun joined => joined = .ok (some v) → _) ?objects ?lists
    ?separated ?waiting ?texts ?refused
  case objects =>
    rintro p q c d fs gs rfl rfl ⟨⟩
    have merged := isSome_fields?_withFallback (v := object q d gs) (w := object p c fs) rfl rfl
    obtain ⟨hs, hhs⟩ := Option.isSome_iff_exists.1 merged
    obtain ⟨p', c', eq⟩ := eq_object_of_fields? hhs
    rw [eq]
    exact ⟨rfl, rfl, rfl, rfl, rfl, fun _ => rfl, fun _ => rfl⟩
  case lists =>
    rintro p q xs ys rfl rfl ⟨⟩
    exact ⟨rfl, rfl, rfl, rfl, rfl, fun _ => rfl, fun _ => rfl⟩
  case separated =>
    rintro free container blank ⟨⟩
    have freeRight : right.isPending = false := by
      cases right with
      | string => rfl
      | _ => cases blank
    refine ⟨free, freeRight, ?_⟩
    cases left with
    | object | list => exact ⟨rfl, rfl, rfl, fun _ => rfl, fun _ => rfl⟩
    | _ => cases container
  case waiting => rintro ⟨⟩
  case texts =>
    rintro freeLeft freeRight s t hs ht ⟨⟩
    have scalars : left.scalarText? = some s ∧ right.scalarText? = some t := ⟨hs, ht⟩
    refine ⟨freeLeft, freeRight, rfl, rfl, rfl, Bool.noConfusion, fun missing => ?_⟩
    rw [scalars.1, scalars.2] at missing
    obtain none | none := missing <;> cases none
  case refused => rintro - - - - - ⟨⟩

theorem isPending_of_join?_error {e : Error} (hl : left.isSingle = true)
    (hr : right.isSingle = true) (h : join? false left right = .error e) :
    left.isPending = false ∧ right.isPending = false ∧ ∃ o fault, e = .wrongType o fault := by
  revert h
  refine join?_cases hl hr (P := fun joined => joined = .error e → _) ?objects ?lists
    ?separated ?waiting ?texts ?refused
  case objects => rintro - - - - - - - - ⟨⟩
  case lists => rintro - - - - - - ⟨⟩
  case separated => rintro - - - ⟨⟩
  case waiting => rintro ⟨⟩
  case texts => rintro - - - - - - ⟨⟩
  case refused =>
    rintro freeLeft freeRight - - - ⟨⟩
    exact ⟨freeLeft, freeRight, _, _, rfl⟩

/-- Two neighbours may be replaced by one that gets along with what they got along with. -/
theorem isChain_combine {R : Value → Value → Prop} (front : ∀ x, R x left → R x v)
    (back : ∀ y, R right y → R v y) {before rest : List Value}
    (h : (before ++ left :: right :: rest).IsChain R) : (before ++ v :: rest).IsChain R := by
  obtain ⟨first, -, second⟩ := List.isChain_append_cons_cons.1 h
  refine List.isChain_split.2 ⟨?_, ?_⟩
  · rw [List.isChain_append] at first ⊢
    refine ⟨first.1, List.isChain_singleton v, fun x hx y hy => ?_⟩
    cases hy
    exact front x (first.2.2 x hx left rfl)
  · cases rest with
    | nil => exact List.isChain_singleton v
    | cons y rest =>
      rw [List.isChain_cons_cons] at second ⊢
      exact ⟨back y second.1, second.2⟩

/-- Neighbours with no null beside a scalar, and what `P` says of those that are there. -/
structure Ready (P : Value → Prop) (ps : List Value) : Prop extends Collected ps where
  apart : ps.IsChain NullApart
  holds : ∀ x ∈ ps, x.isPending = false → P x

variable {P : Value → Prop} {before rest ps : List Value}

theorem flattenPieces_of_isSingle (h : ∀ x ∈ ps, x.isSingle = true) : flattenPieces ps = ps := by
  rw [flattenPieces, List.flatMap_congr fun x hx => ?_, List.flatMap_singleton']
  have single := h x hx
  cases x <;> first | rfl | cases single

theorem Collected.combine (h : Collected (before ++ left :: right :: rest))
    (combined : Combined left right v) : Collected (before ++ v :: rest) where
  single x hx := by
    obtain hx | hx := List.mem_append.1 hx
    · exact h.single x (List.mem_append_left _ hx)
    obtain rfl | hx := List.mem_cons.1 hx
    · have free := combined.free
      cases x <;> first | rfl | cases free
    · exact h.single x (by simp [hx])
  spaced := by
    refine isChain_combine (fun x spaced => ?_) (fun y _ blank => ?_) h.spaced
    · intro blank
      refine ⟨?_, combined.notBlank⟩
      by_contra container
      have := combined.container (Bool.eq_true_of_not_eq_false container)
      rw [(spaced blank).1] at this
      cases this
    · rw [combined.notBlank] at blank
      cases blank

theorem Ready.combine (closed : JoinClosed P) (h : Ready P (before ++ left :: right :: rest))
    (freeLeft : left.isPending = false) (freeRight : right.isPending = false)
    (joined : join? false left right = .ok (some v)) (combined : Combined left right v) :
    Ready P (before ++ v :: rest) where
  toCollected := h.toCollected.combine combined
  apart := by
    refine isChain_combine (fun x apart => ⟨fun null => ?_, fun null => ?_⟩)
      (fun y apart => ⟨fun null => ?_, fun null => ?_⟩) h.apart
    · exact combined.scalar (.inl (apart.1 null))
    · rw [combined.notNull] at null
      cases null
    · rw [combined.notNull] at null
      cases null
    · exact combined.scalar (.inr (apart.2 null))
  holds x hx := by
    obtain hx | hx := List.mem_append.1 hx
    · exact h.holds x (List.mem_append_left _ hx)
    obtain rfl | hx := List.mem_cons.1 hx
    · intro _
      exact closed.join? (h.holds left (by simp) freeLeft) (h.holds right (by simp) freeRight) joined
    · exact h.holds x (by simp [hx])

/-! ### Runs of neighbours -/

/-- Answers that do not wait, and what `P` says of them. -/
def Answers (P : Value → Prop) (σ : Reference → Option Value) : Prop :=
  ∀ r v, σ r = some v → P v ∧ v.isPending = false

/-- What filled-in pieces hold together. -/
def together (σ : Reference → Option Value) (known : List String → Content) (ps : List Value) :
    Option Content :=
  Content.joinAll ((ps.filterMap (fill σ)).map (content known))

theorem Ready.filled (h : Ready P ps) (answers : Answers P σ) :
    ∀ x ∈ ps.filterMap (fill σ), P x ∧ x.isPending = false := by
  intro x hx
  obtain ⟨y, hy, filled⟩ := List.mem_filterMap.1 hx
  have single := h.single y hy
  cases y with
  | reference p r => exact answers r x filled
  | concat | merge => cases single
  | _ =>
    cases filled
    exact ⟨h.holds _ hy rfl, rfl⟩

/-- Pieces in a row, two of which are there, hold what they hold with these put together. -/
theorem Ready.together_eq (h : Ready P (before ++ left :: right :: rest))
    (answers : Answers P σ) (freeLeft : left.isPending = false)
    (freeRight : right.isPending = false) {c : Option Content}
    (pairs : Content.Pairs (left.content known) (right.content known) c) :
    together σ known (before ++ left :: right :: rest) = c.bind fun x =>
      Content.joinAll ((before.filterMap (fill σ)).map (content known)
        ++ x :: (rest.filterMap (fill σ)).map (content known)) := by
  rw [together, List.filterMap_append, List.filterMap_cons_some (fill_of_isPending freeLeft),
    List.filterMap_cons_some (fill_of_isPending freeRight), List.map_append, List.map_cons,
    List.map_cons]
  refine pairs.joinAll _ _ fun c hc => ?_
  obtain ⟨x, hx, rfl⟩ := List.mem_map.1 hc
  refine content_ne_absent (h.filled answers x ?_).2
  rw [List.filterMap_append]
  exact List.mem_append_left _ hx

section Runs

variable {manner : Manner} (closed : JoinClosed P) (wellFormed : ∀ x, P x → x.WellFormed manner)
  (answers : Answers P σ)

include closed wellFormed answers

/-- **One pass over pieces as they are read** changes nothing about what they hold once their
references are filled in, and fails only where they cannot be joined. -/
theorem Ready.joinOnto {done todo : List Value} (h : Ready P (done.reverse ++ todo)) :
    (∃ es, joinOnto false done todo = .ok es ∧ Ready P es
      ∧ ∀ known, together σ known es = together σ known (done.reverse ++ todo))
    ∨ ∃ o fault, joinOnto false done todo = .error (.wrongType o fault)
      ∧ ∀ known, together σ known (done.reverse ++ todo) = none := by
  induction todo generalizing done with
  | nil =>
    rw [List.append_nil] at h ⊢
    exact .inl ⟨done.reverse, rfl, h, fun _ => rfl⟩
  | cons right rest ih =>
    cases done with
    | nil => exact @ih [right] h
    | cons left before =>
      rw [List.reverse_cons, List.append_assoc, List.singleton_append] at h ⊢
      have hl : left.isSingle = true := h.single left (by simp)
      have hr : right.isSingle = true := h.single right (by simp)
      have spaced : Spaced left right := (List.isChain_append_cons_cons.1 h.spaced).2.1
      rw [Value.joinOnto]
      cases hj : join? false left right with
      | error e =>
        obtain ⟨freeLeft, freeRight, o, fault, rfl⟩ := isPending_of_join?_error hl hr hj
        exact .inr ⟨o, fault, rfl, fun known =>
          h.together_eq answers freeLeft freeRight (pairs_of_error hl hr spaced hj)⟩
      | ok joined =>
        cases joined with
        | none =>
          have step := @ih (right :: left :: before)
          rw [List.reverse_cons, List.reverse_cons, List.append_assoc, List.append_assoc,
            List.singleton_append, List.singleton_append] at step
          exact step h
        | some v =>
          obtain ⟨freeLeft, freeRight, combined⟩ := combined_of_join? hl hr hj
          have same (known : List String → Content) :
              together σ known (before.reverse ++ left :: right :: rest)
                = together σ known (before.reverse ++ v :: rest) := by
            have pairs : Content.Pairs (left.content known) (right.content known)
                (some (v.content known)) := pairs_of_join? hl hr spaced
              (wellFormed left (h.holds left (by simp) freeLeft))
              (wellFormed right (h.holds right (by simp) freeRight))
              (List.isChain_append_cons_cons.1 h.apart).2.1 hj
            rw [h.together_eq answers freeLeft freeRight pairs, together, List.filterMap_append,
              List.filterMap_cons_some (fill_of_isPending combined.free), List.map_append]
            rfl
          have step := @ih (v :: before)
          rw [List.reverse_cons, List.append_assoc, List.singleton_append] at step
          simp only [same]
          exact step (h.combine closed freeLeft freeRight hj combined)

/-- Pieces joined when they are read are others that hold the same, or they cannot be joined. -/
theorem Ready.joinEarly (h : Ready P ps) :
    (∃ es, joinEarly σ ps = joinRun true (es.filterMap (fill σ)) ∧ Ready P es
      ∧ ∀ known, together σ known es = together σ known ps)
    ∨ ∃ o fault, joinEarly σ ps = .error (.wrongType o fault)
      ∧ ∀ known, together σ known ps = none := by
  have run : (∃ es, joinRun false ps = .ok es ∧ Ready P es
      ∧ ∀ known, together σ known es = together σ known ps)
      ∨ ∃ o fault, joinRun false ps = .error (.wrongType o fault)
        ∧ ∀ known, together σ known ps = none := by
    rw [joinRun, flattenPieces_of_isSingle h.single]
    split
    · exact .inl ⟨ps, rfl, h, fun _ => rfl⟩
    · exact @Ready.joinOnto σ P manner closed wellFormed answers [] ps h
  obtain ⟨es, run, ready, same⟩ | ⟨o, fault, run, none⟩ := run
  · refine .inl ⟨es, ?_, ready, same⟩
    rw [Value.joinEarly, concatenate, run]
    cases es with
    | nil => rfl
    | cons v es =>
      cases es with
      | cons => rfl
      | nil =>
        have single := ready.single v List.mem_cons_self
        have pieces : v.pieces = [v] := by
          cases v <;> first | rfl | cases single
        show joinRun true (v.pieces.filterMap (fill σ)) = _
        rw [pieces]
  · refine .inr ⟨o, fault, ?_, none⟩
    rw [Value.joinEarly, concatenate, run]
    rfl

/-- Filled-in pieces are joined to one value or none, which holds what they hold together. -/
theorem Ready.joinRun (h : Ready P ps) :
    (∃ w : Option Value, joinRun true (ps.filterMap (fill σ)) = .ok w.toList
      ∧ (∀ x ∈ w, P x ∧ ∀ known, x.content known ≠ .absent)
      ∧ ∀ known, together σ known ps = some ((w.map (content known)).getD .absent))
    ∨ ∃ o fault, joinRun true (ps.filterMap (fill σ)) = .error (.wrongType o fault)
      ∧ ∀ known, together σ known ps = none := by
  have filled := h.filled answers
  have held (known : List String → Content) := content_joinRun known fun x hx =>
    ⟨wellFormed x (filled x hx).1, (filled x hx).2⟩
  rcases (joinRun_of_isPending fun x hx => (filled x hx).2 :
    (∃ ws, Value.joinRun true (ps.filterMap (fill σ)) = .ok ws ∧ ws.length ≤ 1) ∨ _)
    with ⟨ws, run, one⟩ | ⟨o, fault, run⟩
  · simp only [run] at held
    refine .inl ⟨ws.head?, ?_, fun x hx => ⟨?_, fun known => ?_⟩, held⟩
    · rw [run]
      match ws, one with
      | [], _ => rfl
      | [w], _ => rfl
    · exact closed.joinRun (fun y hy => (filled y hy).1) run x (List.mem_of_head? hx)
    · have all := held known
      rw [show ws.head? = some x from hx, Option.map_some, Option.getD_some] at all
      cases hf : ps.filterMap (fill σ) with
      | nil =>
        rw [hf] at run
        cases run
        cases hx
      | cons y ys =>
        rw [hf] at all filled
        intro absent
        rw [absent] at all
        exact Content.foldlM_joinTwo_ne_absent (content_ne_absent (filled y List.mem_cons_self).2) _ all
  · simp only [run] at held
    exact .inr ⟨o, fault, run, held⟩

end Runs

/-- Two outcomes of joining: values that are related or none, or neighbours that do not go
together. -/
inductive SameOutcome (R : Value → Value → Prop) :
    Except Error (List Value) → Except Error (List Value) → Prop
  | joined {v w : Option Value} (h : Option.Rel R v w) :
      SameOutcome R (.ok v.toList) (.ok w.toList)
  | wrongType (o o' : Origin) (fault fault' : TypeFault) :
      SameOutcome R (.error (.wrongType o fault)) (.error (.wrongType o' fault'))

theorem SameOutcome.mono {R S : Value → Value → Prop} {a b : Except Error (List Value)}
    (h : SameOutcome R a b) (le : ∀ v w, R v w → S v w) : SameOutcome S a b := by
  cases h with
  | wrongType o o' fault fault' => exact .wrongType o o' fault fault'
  | joined h =>
    cases h with
    | none => exact .joined .none
    | some h => exact .joined (.some (le _ _ h))

theorem SameOutcome.rel {R : Value → Value → Prop} {a b : Except Error (List Value)}
    (h : SameOutcome R a b) {v w : Value} (hv : a = .ok [v]) (hw : b = .ok [w]) : R v w := by
  cases h with
  | wrongType => cases hv
  | joined h =>
    cases h with
    | none => cases hv
    | some h =>
      cases hv
      cases hw
      exact h

/-- Two values that hold the same, whatever the references in them come to. -/
def HoldsSame (v w : Value) : Prop := ∀ known, v.content known = w.content known

/-- What pieces come to that are joined early is as if they were joined late. -/
theorem Ready.sameOutcome {manner : Manner} (closed : JoinClosed P)
    (wellFormed : ∀ x, P x → x.WellFormed manner) (answers : Answers P σ) (h : Ready P ps) :
    SameOutcome (fun v w => P v ∧ P w ∧ HoldsSame v w) (Value.joinEarly σ ps) (joinLate σ ps) := by
  obtain ⟨w, late, hw, holdsLate⟩ | ⟨o', fault', late, failsLate⟩ :=
    h.joinRun closed wellFormed answers
  all_goals
    rw [joinLate, late]
    obtain ⟨es, early, ready, same⟩ | ⟨o, fault, early, failsEarly⟩ :=
      h.joinEarly closed wellFormed answers
  · obtain ⟨v, run, hv, holdsEarly⟩ | ⟨o, fault, run, failsEarly⟩ :=
      ready.joinRun closed wellFormed answers
    · rw [early, run]
      have both (known : List String → Content) :
          (v.map (content known)).getD .absent = (w.map (content known)).getD .absent := by
        have := (holdsEarly known).symm.trans ((same known).trans (holdsLate known))
        exact Option.some.inj this
      cases v with
      | none =>
        cases w with
        | none => exact .joined .none
        | some w => exact absurd (both fun _ => .absent).symm ((hw w rfl).2 _)
      | some v =>
        cases w with
        | none => exact absurd (both fun _ => .absent) ((hv v rfl).2 _)
        | some w => exact .joined (.some ⟨(hv v rfl).1, (hw w rfl).1, both⟩)
    · have := (failsEarly fun _ => .absent).symm.trans ((same _).trans (holdsLate _))
      cases this
  · have := (failsEarly fun _ => .absent).symm.trans (holdsLate _)
    cases this
  · obtain ⟨v, run, hv, holdsEarly⟩ | ⟨o, fault, run, failsEarly⟩ :=
      ready.joinRun closed wellFormed answers
    · have := (holdsEarly fun _ => .absent).symm.trans ((same _).trans (failsLate _))
      cases this
    · rw [early, run]
      exact .wrongType ..
  · rw [early]
    exact .wrongType ..

/-- Pieces without a null beside a scalar come to the same early and late. -/
theorem sameOutcome_of_apart {manner : Manner} (collected : Collected ps)
    (apart : ps.IsChain NullApart) (wellFormed : ∀ x ∈ ps, x.WellFormed manner)
    (answers : ∀ r v, σ r = some v → v.WellFormed manner ∧ v.isPending = false) :
    SameOutcome HoldsSame (joinEarly σ ps) (joinLate σ ps)
      ∧ ((∀ x ∈ ps, x.isPending = false → x.isResolved = true) →
        (∀ r v, σ r = some v → v.isResolved = true) →
        SameOutcome Same (joinEarly σ ps) (joinLate σ ps)) := by
  constructor
  · have ready : Ready (WellFormed manner) ps := ⟨collected, apart, fun x hx _ => wellFormed x hx⟩
    exact (ready.sameOutcome WellFormed.joinClosed (fun _ => id) answers).mono fun v w h => h.2.2
  · intro resolved resolvedAnswers
    let Done (x : Value) : Prop := x.WellFormed manner ∧ Settled none x
    have ready : Ready Done ps := ⟨collected, apart, fun x hx free =>
      ⟨wellFormed x hx, .resolved (resolved x hx free)⟩⟩
    have done : Answers Done σ := fun r v hv =>
      ⟨⟨(answers r v hv).1, .resolved (resolvedAnswers r v hv)⟩, (answers r v hv).2⟩
    refine (ready.sameOutcome Settled.joinClosed (fun _ => And.left) done).mono fun v w h => ?_
    obtain ⟨⟨wv, sv⟩, ⟨ww, sw⟩, same⟩ := h
    exact (Final.of_wellFormed wv sv.isResolved).same_of_content_eq (fun _ => .absent)
      (.of_wellFormed ww sw.isResolved) (same _)

/-! ### Nulls beside scalars -/

/-- Whether this is a scalar. -/
def isScalar (v : Value) : Bool := v.scalarText?.isSome

/-- A null as the text that it is written as. -/
def spelled : Value → Value
  | null p => string p "null" true
  | v => v

/-- Pieces with each null that stands beside a scalar as text; `after` tells whether a scalar stands
in front of them. -/
def spellNulls (after : Bool) : List Value → List Value
  | [] => []
  | v :: vs =>
    (if after || vs.head?.any isScalar then v.spelled else v) :: spellNulls v.isScalar vs

section Spelling

variable {after : Bool} {a b : Except Error (List Value)}

@[simp] theorem isPending_spelled (v : Value) : v.spelled.isPending = v.isPending := by
  cases v <;> rfl

@[simp] theorem isContainer_spelled (v : Value) : v.spelled.isContainer = v.isContainer := by
  cases v <;> rfl

@[simp] theorem isBlankText_spelled (v : Value) : v.spelled.isBlankText = v.isBlankText := by
  cases v <;> rfl

@[simp] theorem isSingle_spelled (v : Value) : v.spelled.isSingle = v.isSingle := by
  cases v <;> rfl

@[simp] theorem scalarText?_spelled (v : Value) : v.spelled.scalarText? = v.scalarText? := by
  cases v <;> rfl

theorem isNull_spelled (v : Value) : v.spelled.isNull = false := by
  cases v <;> rfl

/-- Only a null, which is a scalar, is spelled out. -/
theorem spelled_of_isScalar (h : v.isScalar = false) : v.spelled = v := by
  cases v <;> first | rfl | cases h

/-- A piece is as it was, or spelled out. -/
def SpelledAs (v w : Value) : Prop := w = v ∨ w = v.spelled

theorem SpelledAs.of_ite (c : Bool) (v : Value) : SpelledAs v (if c then v.spelled else v) := by
  cases c
  · exact .inl rfl
  · exact .inr rfl

/-- What is to be shown of the pieces of which some are spelled out. -/
theorem forall_mem_spellNulls {Q : Value → Prop} (holds : ∀ x ∈ ps, Q x)
    (spelled : ∀ x ∈ ps, Q x → Q x.spelled) : ∀ x ∈ spellNulls after ps, Q x := by
  induction ps generalizing after with
  | nil => exact List.forall_mem_nil _
  | cons v vs ih =>
    obtain ⟨here, holds⟩ := List.forall_mem_cons.1 holds
    obtain ⟨here', spelled⟩ := List.forall_mem_cons.1 spelled
    rw [spellNulls]
    refine List.forall_mem_cons.2 ⟨?_, ih holds spelled⟩
    split
    · exact here' here
    · exact here

/-- Neighbours of which some are spelled out. -/
theorem isChain_spellNulls {R S : Value → Value → Prop} (chain : ps.IsChain R)
    (next : ∀ (after : Bool) (v w : Value) (vs : List Value), R v w →
      S (if after || w.isScalar then v.spelled else v)
        (if v.isScalar || vs.head?.any isScalar then w.spelled else w)) :
    (spellNulls after ps).IsChain S := by
  induction ps generalizing after with
  | nil => exact .nil
  | cons v vs ih =>
    cases vs with
    | nil => exact .singleton _
    | cons w vs =>
      obtain ⟨first, more⟩ := List.isChain_cons_cons.1 chain
      exact .cons_cons (next after v w vs first) (ih more)

theorem Collected.spellNulls (h : Collected ps) : Collected (spellNulls after ps) where
  single := forall_mem_spellNulls h.single fun x _ single => (isSingle_spelled x).trans single
  spaced := by
    refine isChain_spellNulls h.spaced fun after v w vs spaced => ?_
    have same (c : Bool) (x : Value) : (if c then x.spelled else x).isBlankText = x.isBlankText
        ∧ (if c then x.spelled else x).isContainer = x.isContainer := by
      cases c
      · exact ⟨rfl, rfl⟩
      · exact ⟨isBlankText_spelled x, isContainer_spelled x⟩
    unfold Spaced
    rwa [(same _ v).1, (same _ w).1, (same _ w).2]

/-- A null that is not spelled out has no scalar beside it. -/
theorem apart_spellNulls (ps : List Value) : (spellNulls after ps).IsChain NullApart := by
  refine isChain_spellNulls ps.isChain_isInfix fun after v w vs _ => ?_
  have text (c : Bool) (x : Value) : (if c then x.spelled else x).scalarText? = x.scalarText? := by
    cases c
    · rfl
    · exact scalarText?_spelled x
  have kept (c : Bool) (x : Value) (null : (if c then x.spelled else x).isNull = true) :
      c = false := by
    cases c
    · rfl
    · exact (Bool.noConfusion ((isNull_spelled x).symm.trans null))
  have missing (x : Value) (h : x.isScalar = false) : x.scalarText? = none :=
    Option.isSome_eq_false_iff.1 h |> Option.isNone_iff_eq_none.1
  constructor
  · intro null
    rw [text]
    exact missing w (Bool.or_eq_false_iff.1 (kept _ v null)).2
  · intro null
    rw [text]
    exact missing v (Bool.or_eq_false_iff.1 (kept _ w null)).1

/-- Two outcomes are the same, or neighbours that do not go together. -/
def Agree {α : Type} (a b : Except Error α) : Prop :=
  a = b ∨ ∃ o o' fault fault', a = .error (.wrongType o fault) ∧ b = .error (.wrongType o' fault')

theorem join?_of_texts {s t : String} (hl : left.scalarText? = some s)
    (hr : right.scalarText? = some t) :
    join? false left right = .ok (some (ofText (left.origin.merge right.origin) (s ++ t))) := by
  cases left with
  | object | list | reference | concat | merge => cases hl
  | _ =>
    cases right with
    | object | list | reference | concat | merge => cases hr
    | _ =>
      cases hl
      cases hr
      rfl

/-- Two neighbours go together alike where nulls are spelled out, the first one in front of a scalar
only. -/
theorem agree_join? {left' right' : Value} (hl : SpelledAs left left') (hr : SpelledAs right right')
    (front : right.isScalar = false → left' = left) :
    Agree (join? false left right) (join? false left' right') := by
  have same {x y : Value} (h : SpelledAs x y) (noScalar : x.isScalar = false) : y = x := by
    obtain rfl | rfl := h
    · rfl
    · exact spelled_of_isScalar noScalar
  have alike {x y : Value} (h : SpelledAs x y) :
      y.scalarText? = x.scalarText? ∧ y.origin = x.origin := by
    obtain rfl | rfl := h
    · exact ⟨rfl, rfl⟩
    · exact ⟨scalarText?_spelled x, by cases x <;> rfl⟩
  cases second : right.isScalar with
  | false =>
    rw [front second, same hr second]
    exact .inl rfl
  | true =>
    obtain ⟨t, ht⟩ := Option.isSome_iff_exists.1 second
    cases first : left.isScalar with
    | true =>
      obtain ⟨s, hs⟩ := Option.isSome_iff_exists.1 first
      rw [join?_of_texts hs ht, join?_of_texts ((alike hl).1.trans hs) ((alike hr).1.trans ht),
        (alike hl).2, (alike hr).2]
      exact .inl rfl
    | false =>
      -- a null behind a container does not go with it, whatever it is written as
      rw [same hl first]
      obtain rfl | rfl := hr
      · exact .inl rfl
      cases right with
      | null =>
        cases left with
        | object | list => exact .inr ⟨_, _, _, _, rfl, rfl⟩
        | merge _ kind => cases kind <;> exact .inl rfl
        | reference | concat => exact .inl rfl
        | _ => cases first
      | _ => exact .inl rfl

/-- Neighbours stay apart only if one of them waits. -/
theorem isPending_of_join?_none (h : join? false left right = .ok none) :
    left.isPending = true ∨ right.isPending = true := by
  by_contra free
  simp only [not_or, Bool.not_eq_true] at free
  obtain ⟨v, joined⟩ | ⟨o, fault, joined⟩ := join?_of_isPending free.1 free.2
  · cases h.symm.trans joined
  · cases h.symm.trans joined

theorem isScalar_of_isPending (h : v.isPending = true) : v.isScalar = false := by
  cases v <;> first | rfl | cases h

/-- Nulls that stand beside scalars may be spelled out before the pieces are joined. -/
theorem agree_joinOnto {todo : List Value} (single : ∀ x ∈ left :: todo, x.isSingle = true)
    (before : List Value) (free : after = true → left.isPending = false)
    (noScalar : after = false → left.isScalar = false) :
    Agree (joinOnto false (left :: before) todo)
      (joinOnto false ((if todo.head?.any isScalar then left.spelled else left) :: before)
        (spellNulls after todo)) := by
  induction todo generalizing left before after with
  | nil => exact .inl rfl
  | cons right rest ih =>
    obtain ⟨hl, single⟩ := List.forall_mem_cons.1 single
    obtain ⟨hr, others⟩ := List.forall_mem_cons.1 single
    have agree := agree_join? (.of_ite right.isScalar left)
      (.of_ite (after || rest.head?.any isScalar) right) fun last => by
        rw [last]
        rfl
    rw [spellNulls, joinOnto, joinOnto, List.head?_cons, Option.any_some]
    obtain eq | ⟨o, o', fault, fault', error, error'⟩ := agree
    · rw [← eq]
      cases hj : join? false left right with
      | error e => exact .inl rfl
      | ok joined =>
        cases joined with
        | some v =>
          obtain ⟨-, -, combined⟩ := combined_of_join? hl hr hj
          have alone : ∀ x ∈ v :: rest, x.isSingle = true := by
            refine List.forall_mem_cons.2 ⟨?_, others⟩
            have free := combined.free
            cases v <;> first | rfl | cases free
          have kept : v.spelled = v := by
            have notNull := combined.notNull
            cases v <;> first | rfl | cases notNull
          have step := @ih v right.isScalar alone before (fun _ => combined.free) fun last =>
            Option.isSome_eq_false_iff.2 (Option.isNone_iff_eq_none.2
              (combined.scalar (.inr (Option.isNone_iff_eq_none.1 (Option.isSome_eq_false_iff.1 last)))))
          rwa [kept, ite_self] at step
        | none =>
          have waits := isPending_of_join?_none hj
          have first : (if right.isScalar then left.spelled else left) = left := by
            obtain waits | waits := waits
            · rw [spelled_of_isScalar (isScalar_of_isPending waits), ite_self]
            · rw [isScalar_of_isPending waits]
              rfl
          have second : (if after || rest.head?.any isScalar then right.spelled else right)
              = if rest.head?.any isScalar then right.spelled else right := by
            obtain waits | waits := waits
            · cases after with
              | false => rfl
              | true => cases waits.symm.trans (free rfl)
            · rw [spelled_of_isScalar (isScalar_of_isPending waits), ite_self, ite_self]
          rw [first, second]
          refine ih single (left :: before) (fun scalar => ?_) id
          by_contra waits
          rw [isScalar_of_isPending (Bool.eq_true_of_not_eq_false waits)] at scalar
          cases scalar
    · rw [error, error']
      exact .inr ⟨_, _, _, _, rfl, rfl⟩

theorem agree_joinEarly (h : ∀ x ∈ ps, x.isSingle = true) :
    Agree (joinEarly σ ps) (joinEarly σ (spellNulls false ps)) := by
  have run : Agree (joinRun false ps) (joinRun false (spellNulls false ps)) := by
    match ps with
    | [] => exact .inl rfl
    | [v] => exact .inl rfl
    | v :: w :: vs =>
      have h' := @forall_mem_spellNulls _ false _ h fun x _ single => (isSingle_spelled x).trans single
      rw [joinRun, joinRun, flattenPieces_of_isSingle h, flattenPieces_of_isSingle h']
      refine agree_joinOnto h [] (fun scalar => ?_) id
      by_contra waits
      rw [isScalar_of_isPending (Bool.eq_true_of_not_eq_false waits)] at scalar
      cases scalar
  unfold joinEarly concatenate
  obtain eq | ⟨o, o', fault, fault', error, error'⟩ := run
  · rw [eq]
    exact .inl rfl
  · rw [error, error']
    exact .inr ⟨o, o', fault, fault', rfl, rfl⟩

theorem SameOutcome.of_agree {R : Value → Value → Prop} {a b c : Except Error (List Value)}
    (h : SameOutcome R b c) (agree : Agree a b) : SameOutcome R a c := by
  obtain rfl | ⟨o, o', fault, fault', rfl, rfl⟩ := agree
  · exact h
  · cases h with
    | wrongType => exact .wrongType ..

end Spelling

/-- **Joining early makes no difference**, but that a null beside a scalar is text then.  Pieces
that are joined as far as they are known, and again with what their references are, come to a value
that holds the same as if they were joined only then, with the nulls beside scalars as text; or
neighbours do not go together either way. -/
theorem joinEarly_joinLate {manner : Manner} (collected : Collected ps)
    (wellFormed : ∀ x ∈ ps, x.WellFormed manner)
    (answers : ∀ r v, σ r = some v → v.WellFormed manner ∧ v.isPending = false) :
    SameOutcome HoldsSame (joinEarly σ ps) (joinLate σ (spellNulls false ps))
      ∧ ((∀ x ∈ ps, x.isPending = false → x.isResolved = true) →
        (∀ r v, σ r = some v → v.isResolved = true) →
        SameOutcome Same (joinEarly σ ps) (joinLate σ (spellNulls false ps))) := by
  have agree : Agree (joinEarly σ ps) (joinEarly σ (spellNulls false ps)) :=
    agree_joinEarly collected.single
  have wellFormed' : ∀ x ∈ spellNulls false ps, x.WellFormed manner :=
    forall_mem_spellNulls wellFormed fun x _ wf => by
      cases x with
      | null =>
        cases wf with
        | null lines => exact .string lines _ _
      | _ => exact wf
  obtain ⟨same, same'⟩ :=
    sameOutcome_of_apart collected.spellNulls (apart_spellNulls ps) wellFormed' answers
  refine ⟨same.of_agree agree, fun resolved resolvedAnswers => ?_⟩
  refine (same' (forall_mem_spellNulls resolved fun x _ resolved => ?_) resolvedAnswers).of_agree agree
  cases x with
  | null => exact fun _ => rfl
  | _ => exact resolved

/-- A null in front of a blank and a reference. -/
def nullInFront (o : Origin) : List Value :=
  [.null { origin := o }, bareText o " ", ofReference o { path := .ofKey "x", optional := false }]

theorem collected_nullInFront (o : Origin) : Collected (nullInFront o) where
  single := by simp [nullInFront, isSingle, bareText, ofReference]
  spaced := by
    refine .cons_cons (fun blank => ?_) (.cons_cons (fun _ => ⟨rfl, rfl⟩) (.singleton _))
    cases blank

theorem wellFormed_nullInFront (o : Origin) : ∀ x ∈ nullInFront o, x.WellFormed .any := by
  have lines : o.Commented fun _ => True := fun _ _ => trivial
  refine List.forall_mem_cons.2 ⟨.null lines, List.forall_mem_cons.2 ⟨.string lines _ _, ?_⟩⟩
  exact List.forall_mem_singleton.2 (.reference lines trivial)

/-- The reference is to a text. -/
theorem joinEarly_joinLate_example :
    let o := Origin.named "example"
    let σ : Reference → Option Value := fun _ => some (bareText o "foo")
    joinEarly σ (nullInFront o) = .ok [ofText (o.merge o) "null foo"]
      ∧ SameOutcome Same (joinEarly σ (nullInFront o))
        (joinLate σ (spellNulls false (nullInFront o))) := by
  intro o σ
  have answers : ∀ r v, σ r = some v → v.WellFormed .any ∧ v.isPending = false := by
    rintro r v ⟨⟩
    exact ⟨.string (fun _ _ => trivial) _ _, rfl⟩
  have resolved : ∀ x ∈ nullInFront o, x.isPending = false → x.isResolved = true := by
    simp [nullInFront, bareText, ofReference, isPending, isResolved]
  refine ⟨by cbv, (joinEarly_joinLate (collected_nullInFront o) (wellFormed_nullInFront o)
    answers).2 resolved ?_⟩
  rintro r v ⟨⟩
  rfl

/-- A null that is left as it is is gone when the pieces are joined late. -/
theorem joinEarly_joinLate_counterexample :
    let o := Origin.named "example"
    let σ : Reference → Option Value := fun _ => some (bareText o "foo")
    Collected (nullInFront o) ∧ (∀ x ∈ nullInFront o, x.WellFormed .any)
      ∧ (∀ r v, σ r = some v → v.WellFormed .any ∧ v.isPending = false)
      ∧ ¬ SameOutcome HoldsSame (joinEarly σ (nullInFront o)) (joinLate σ (nullInFront o)) := by
  intro o σ
  refine ⟨collected_nullInFront o, wellFormed_nullInFront o, ?_, fun same => ?_⟩
  · rintro r v ⟨⟩
    exact ⟨.string (fun _ _ => trivial) _ _, rfl⟩
  · have early : joinEarly σ (nullInFront o) = .ok [ofText (o.merge o) "null foo"] := by cbv
    have late : joinLate σ (nullInFront o) = .ok [ofText (o.merge o) " foo"] := by cbv
    have texts := congrArg Content.joinText? (same.rel early late fun _ => .absent)
    exact absurd texts (by simp [content, ofText, Content.joinText?])

end Value

end Hocon
