import Mathlib.Data.List.Induction
import Hocon.Proofs.Fieldwise
import Hocon.Proofs.Layers
import Hocon.Proofs.Moving

/-!
# Copies of trees

A text that is read in two places gives two trees that are the same but for origins.  Where
nothing in them waits these are `Value.Copies` of each other, and remain so whatever a reader of
documents does: joining neighbours, putting fields over others (`Document.Overlays`).  Copies hold
the same, and what fields come to over others is known from what they come to by themselves
(`Document.content_includeFields`).
-/

namespace Hocon

namespace Value

/-! ### Copies -/

/-- Two trees that are the same but for origins, and nothing in them waits. -/
structure Copies (v w : Value) : Prop where
  left : v.Final
  right : w.Final
  -- where nothing refers to anything, no place matters and no mark
  twin : Twin (.ofKey "") (fun _ => none) v w

variable {v w v' w' : Value} {p q : Provenance}

theorem mark_withProv (v : Value) (p : Provenance) : (v.withProv p).mark = p.mark := by
  cases v <;> rfl

theorem Final.withProv (h : v.Final) (p : Provenance) : (v.withProv p).Final := by
  have wf := h.wellFormed.withOrigin (fun _ _ _ => trivial) (o := p.origin) fun _ _ => trivial
  have alike : (v.withOrigin p.origin).Alike (v.withProv p) := by
    have := Alike.withProv (v.withOrigin p.origin) (p := p) (by cases v <;> rfl)
    rwa [show (v.withOrigin p.origin).withProv p = v.withProv p by cases v <;> rfl] at this
  refine ⟨wf.alike (fun _ _ _ _ => trivial) alike, ?_⟩
  rw [← h.resolved]
  cases v <;> rfl

theorem Final.ofItems (p : Provenance) {xs : List Value} (items : ∀ x ∈ xs, x.Final) :
    (list p xs).Final where
  wellFormed := .list (fun _ _ => trivial) fun x hx => (items x hx).wellFormed
  resolved := isResolved_iff.2 ⟨rfl, fun x hx => (items x hx).resolved⟩

/-- Comments change nothing but the provenance. -/
theorem exists_withComments (unmarked : v.mark = none) (comments : List String) :
    ∃ p : Provenance, p.mark = none ∧ Document.withComments v comments = v.withProv p := by
  unfold Document.withComments
  split
  · exact ⟨v.prov, unmarked, by cases v <;> rfl⟩
  · exact ⟨_, rfl, rfl⟩

theorem forall_mem_of_forall₂ {α β : Type} {R : α → β → Prop} {P : α → Prop} {Q : β → Prop}
    (each : ∀ a b, R a b → P a ∧ Q b) {xs : List α} {ys : List β} (h : List.Forall₂ R xs ys) :
    (∀ a ∈ xs, P a) ∧ ∀ b ∈ ys, Q b := by
  induction h with
  | nil => exact ⟨nofun, nofun⟩
  | cons head _ ih =>
    exact ⟨List.forall_mem_cons.2 ⟨(each _ _ head).1, ih.1⟩,
      List.forall_mem_cons.2 ⟨(each _ _ head).2, ih.2⟩⟩

namespace Copies

theorem mark_eq_none (h : v.Copies w) : v.mark = none ∧ w.mark = none := by
  cases h.twin.marks with
  | fresh left right => exact ⟨left, right⟩
  | known _ _ entry => cases entry

theorem withProv (h : v.Copies w) (hp : p.mark = none) (hq : q.mark = none) :
    (v.withProv p).Copies (w.withProv q) := by
  refine ⟨h.left.withProv p, h.right.withProv q,
    .fresh ?_ ((mark_withProv v p).trans hp) ((mark_withProv w q).trans hq)⟩
  cases h.twin.sides with
  | null => exact .null _ _
  | bool => exact .bool _ _ _
  | number => exact .number _ _ _ _
  | string => exact .string _ _ _ _
  | object _ _ _ fields => exact .object _ _ _ fields
  | list _ _ items => exact .list _ _ items
  | reference _ _ moved => exact .reference _ _ moved
  | concat _ _ pieces => exact .concat _ _ pieces
  | merge _ _ _ layers => exact .merge _ _ _ layers

theorem withComments (h : v.Copies w) (comments comments' : List String) :
    (Document.withComments v comments).Copies (Document.withComments w comments') := by
  obtain ⟨left, right⟩ := h.mark_eq_none
  obtain ⟨p, hp, eq⟩ := exists_withComments left comments
  obtain ⟨q, hq, eq'⟩ := exists_withComments right comments'
  rw [eq, eq']
  exact h.withProv hp hq

theorem withFallback (hv : v.Copies v') (hw : w.Copies w') :
    (v.withFallback w).Copies (v'.withFallback w') :=
  ⟨hv.left.withFallback hw.left, hv.right.withFallback hw.right, hv.twin.withFallback hw.twin⟩

theorem literal (o o' : Origin) (literal : Literal) :
    (Document.literalValue o literal).Copies (Document.literalValue o' literal) := by
  have final (o : Origin) : (Document.literalValue o literal).Final := by
    cases literal with
    | null => exact .leaf (.null fun _ _ => trivial) rfl rfl
    | bool => exact .leaf (.bool (fun _ _ => trivial) _) rfl rfl
    | whole => exact .leaf (.number (fun _ _ => trivial) trivial) rfl rfl
    | double => exact .leaf (.number (fun _ _ => trivial) trivial) rfl rfl
    | string => exact .leaf (.string (fun _ _ => trivial) _ _) rfl rfl
  refine ⟨final o, final o', ?_⟩
  cases literal with
  | null => exact .fresh (.null _ _) rfl rfl
  | bool => exact .fresh (.bool _ _ _) rfl rfl
  | whole => exact .fresh (.number _ _ _ _) rfl rfl
  | double => exact .fresh (.number _ _ _ _) rfl rfl
  | string => exact .fresh (.string _ _ _ _) rfl rfl

theorem bareText (o o' : Origin) (text : String) :
    (Value.bareText o text).Copies (Value.bareText o' text) where
  left := .leaf (.string (fun _ _ => trivial) _ _) rfl rfl
  right := .leaf (.string (fun _ _ => trivial) _ _) rfl rfl
  twin := .fresh (.string _ _ _ _) rfl rfl

theorem ofItems {xs ys : List Value} (items : List.Forall₂ Copies xs ys) (o o' : Origin) :
    (Value.ofItems o xs).Copies (Value.ofItems o' ys) := by
  obtain ⟨left, right⟩ := forall_mem_of_forall₂ (fun _ _ h => ⟨h.left, h.right⟩) items
  exact ⟨.ofItems _ left, .ofItems _ right, .fresh (.list _ _ (items.imp fun _ _ h => h.twin)) rfl rfl⟩

theorem ofFields {fs gs : Entries Value} (fields : FieldsBoth Copies fs gs)
    (nodup : (Entries.keys fs).Nodup) (o o' : Origin) :
    (Value.ofFields o fs).Copies (Value.ofFields o' gs) := by
  obtain ⟨left, right⟩ := forall_mem_of_forall₂ (fun _ _ h => ⟨h.2.left, h.2.right⟩) fields
  exact ⟨.ofFields _ _ nodup left, .ofFields _ _ (FieldsBoth.keys_eq fields ▸ nodup) right,
    .fresh (.object _ _ _ (fields.imp fun _ _ h => ⟨h.1, h.2.twin⟩)) rfl rfl⟩

theorem nest (h : v.Copies w) (keys : List String) :
    (Document.nest v keys).Copies (Document.nest w keys) := by
  induction keys with
  | nil => exact h
  | cons key keys ih =>
    have field : FieldsBoth Copies [(key, Document.nest v keys)] [(key, Document.nest w keys)] :=
      .cons ⟨rfl, ih⟩ .nil
    exact ofFields field (by simp [Entries.keys]) _ _

/-- Copies beside each other are joined to copies. -/
theorem concatenate {ps qs : List Value} (h : List.Forall₂ Copies ps qs) {u : Option Value}
    (hu : Value.concatenate ps = .ok u) :
    ∃ u', Value.concatenate qs = .ok u' ∧ Option.Rel Copies u u' := by
  obtain ⟨left, right⟩ := forall_mem_of_forall₂ (fun _ _ h => ⟨h.left, h.right⟩) h
  have settled {x : Value} (hx : x.Final) : x.WellFormed .any ∧ Settled none x :=
    ⟨hx.wellFormed, .resolved hx.resolved⟩
  have final {rs ws : List Value} (finals : ∀ x ∈ rs, x.Final) (run : joinRun false rs = .ok ws) :
      ∀ x ∈ ws, x.Final := fun x hx => by
    have := Settled.joinClosed.joinRun (fun x hx => settled (finals x hx)) run x hx
    exact ⟨this.1, this.2.isResolved⟩
  have both := both_joinRun false (h.imp fun _ _ h => h.twin)
  have single : (∃ ws, joinRun false ps = .ok ws ∧ ws.length ≤ 1)
      ∨ ∃ o fault, joinRun false ps = .error (.wrongType o fault) :=
    joinRun_of_isPending fun x hx => isPending_of_isResolved (left x hx).resolved
  unfold Value.concatenate at hu ⊢
  generalize hws : joinRun false ps = a at both single hu
  generalize hws' : joinRun false qs = b at both
  cases both with
  | error => cases hu
  | @ok ws ws' related =>
    obtain ⟨ws, ⟨⟩, one⟩ | ⟨o, fault, ⟨⟩⟩ := single
    cases related with
    | nil =>
      cases hu
      exact ⟨none, rfl, .none⟩
    | cons head tail =>
      cases tail with
      | nil =>
        cases hu
        exact ⟨_, rfl, .some ⟨final left hws _ List.mem_cons_self, final right hws' _ List.mem_cons_self, head⟩⟩
      | cons => simp at one

/-- Copies hold the same. -/
theorem content_eq (h : v.Copies w) (known : List String → Content) :
    v.content known = w.content known := by
  obtain ⟨left, -, twin⟩ := h
  have resolved := left.resolved
  clear left
  induction twin using Twin.induction with
  | node v w twin sides =>
    have parts := (isResolved_iff.1 resolved).2
    cases sides with
    | reference => cases resolved
    | concat => cases resolved
    | merge => cases resolved
    | object p q closed fields =>
      rw [content, content]
      refine congrArg (Content.fields closed) (funext fun key => ?_)
      rw [contentOfFields_eq, contentOfFields_eq]
      have here := FieldsBoth.get? fields key
      generalize hx : Entries.get? _ key = a at here
      generalize Entries.get? _ key = b at here ⊢
      cases here with
      | none => rfl
      | some related =>
        obtain ⟨_, same⟩ := related
        exact congrArg (fun c => (some c).getD Content.absent)
          (same (parts _ (mem_parts_of_mem_fields (Entries.mem_of_get? hx))))
    | list p q items =>
      rw [content, content, contentsOf_of_itemsResolved resolved,
        contentsOf_of_itemsResolved (twin.isResolved_eq.symm.trans resolved)]
      have items := ((List.forall₂_and_left _ _).2 ⟨parts, items⟩).imp fun _ _ h => h.2.2 h.1
      exact congrArg Content.items (List.forall₂_eq_eq_eq ▸
        List.forall₂_map_left_iff.2 (List.forall₂_map_right_iff.2 items))
    | _ => rfl

end Copies

end Value

namespace Document

open Value

/-! ### The same fields over others -/

theorem nodup_keys_includeFields {fs : Entries Value} (nodup : (Entries.keys fs).Nodup)
    (own : Entries Value) : (Entries.keys (includeFields fs own)).Nodup := by
  unfold includeFields
  induction own generalizing fs with
  | nil => exact nodup
  | cons f own ih => exact ih (Entries.nodup_keys_put nodup _ _)

/-- What `gs` has over `fs`, `gs'` has over `fs'`, but for origins. -/
def Overlays (fs gs fs' gs' : Entries Value) : Prop :=
  ∃ own own', FieldsBoth Copies own own' ∧ gs = includeFields fs own ∧ gs' = includeFields fs' own'

namespace Overlays

variable {fs gs hs fs' gs' hs' : Entries Value}

theorem refl (fs fs' : Entries Value) : Overlays fs fs fs' fs' := ⟨[], [], .nil, rfl, rfl⟩

theorem trans (h : Overlays fs gs fs' gs') (h' : Overlays gs hs gs' hs') :
    Overlays fs hs fs' hs' := by
  obtain ⟨own, own', copies, rfl, rfl⟩ := h
  obtain ⟨more, more', copies', rfl, rfl⟩ := h'
  exact ⟨own ++ more, own' ++ more', List.rel_append copies copies',
    (includeFields_append ..).symm, (includeFields_append ..).symm⟩

/-- Over copies there are copies. -/
theorem copies (h : Overlays fs gs fs' gs') (below : FieldsBoth Copies fs fs') :
    FieldsBoth Copies gs gs' := by
  obtain ⟨own, own', copies, rfl, rfl⟩ := h
  refine forall₂_foldl (fun as bs f g below field => ?_) copies below
  obtain ⟨same, field⟩ := field
  have here := FieldsBoth.get? below f.1
  rw [← same]
  generalize Entries.get? as f.1 = a at here ⊢
  generalize Entries.get? bs f.1 = b at here ⊢
  refine FieldsBoth.put below f.1 ?_
  cases here with
  | none => exact field
  | some earlier => exact field.withFallback earlier

/-- Over no fields there is an object and its copy. -/
theorem ofFields (h : Overlays [] gs [] gs') (o o' : Origin) :
    (Value.ofFields o gs).Copies (Value.ofFields o' gs') := by
  have nodup : (Entries.keys gs).Nodup := by
    obtain ⟨own, _, _, rfl, _⟩ := h
    have none : (Entries.keys ([] : Entries Value)).Nodup := List.nodup_nil
    exact nodup_keys_includeFields none own
  exact .ofFields (h.copies .nil) nodup o o'

end Overlays

/-! ### What fields over others hold -/

/-- Fields of which each key comes once and in which nothing waits. -/
structure FinalFields (fs : Entries Value) : Prop where
  nodup : (Entries.keys fs).Nodup
  final : ∀ f ∈ fs, f.2.Final

variable {fs own : Entries Value}

theorem FinalFields.nil : FinalFields [] := ⟨List.nodup_nil, nofun⟩

theorem FinalFields.includeFields (h : FinalFields fs) (more : ∀ f ∈ own, f.2.Final) :
    FinalFields (includeFields fs own) := by
  refine ⟨nodup_keys_includeFields h.nodup own, ?_⟩
  unfold Document.includeFields
  obtain ⟨-, final⟩ := h
  induction own generalizing fs with
  | nil => exact final
  | cons f own ih =>
    obtain ⟨head, more⟩ := List.forall_mem_cons.1 more
    refine ih more fun g hg => ?_
    obtain rfl | hg := Entries.mem_put hg
    · simp only []
      split
      · next earlier there => exact head.withFallback (final _ (Entries.mem_of_get? there))
      · exact head
    · exact final g hg

theorem content_includeField (known : List String → Content) (h : FinalFields fs)
    {f : String × Value} (final : f.2.Final) (key : String) :
    contentOfFields known (includeFields fs [f]) key
      = (contentOfFields known [f] key).upon (contentOfFields known fs key) := by
  unfold includeFields
  simp only [contentOfFields_eq, List.foldl_cons, List.foldl_nil, Entries.get?]
  by_cases same : f.1 = key
  · subst same
    rw [Entries.get?_put_self, if_pos rfl]
    cases there : Entries.get? fs f.1 with
    | none => exact (Content.upon_absent _).symm
    | some earlier =>
      exact content_withFallback final.wellFormed
        (h.final _ (Entries.mem_of_get? there)).wellFormed
  · rw [Entries.get?_put_of_ne (Ne.symm same), if_neg same]
    rfl

/-- **Fields over others hold** what they come to by themselves, upon what the others hold. -/
theorem content_includeFields (known : List String → Content) (h : FinalFields fs)
    (final : ∀ f ∈ own, f.2.Final) :
    contentOfFields known (includeFields fs own) = fun key =>
      (contentOfFields known (includeFields [] own) key).upon (contentOfFields known fs key) := by
  funext key
  induction own using List.reverseRecOn with
  | nil => rfl
  | append_singleton own f ih =>
    obtain ⟨before, last⟩ := List.forall_mem_append.1 final
    have last := List.forall_mem_singleton.1 last
    rw [includeFields_append, includeFields_append,
      content_includeField known (h.includeFields before) last, ih before,
      content_includeField known (FinalFields.nil.includeFields before) last, Content.upon_assoc]

end Document

end Hocon
