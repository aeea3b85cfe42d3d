import Mathlib.Data.List.Forall2
import Hocon.Proofs.Marks
import Hocon.Proofs.Merging
import Hocon.Resolution

/-!
# Trees that were moved

A document may be moved under a path: each reference gets the path in front, and nothing else
changes.  To resolve the document where it was and where it is now are two runs over different
trees with different marks, and still they go the same way.  What one run has at any time has a
twin in the other.  Twins are the same but for origins and for the paths of references, and their
marks go together: a `Pairing` tells for each mark of the one run which node has it and which node
of the other is the twin.

Whatever is done to a tree without resolving it keeps twins.
-/

namespace Hocon

/-- Which node of a run has a mark, and what its twin in the other run is. -/
abbrev Pairing := Nat → Option (Value × Value)

/-- Two results that are related, or two failures. -/
inductive Both {ε α β : Type} (R : α → β → Prop) : Except ε α → Except ε β → Prop
  | ok {a : α} {b : β} (related : R a b) : Both R (.ok a) (.ok b)
  | error (e e' : ε) : Both R (.error e) (.error e')

/-- Fields with the same keys and related values. -/
abbrev FieldsBoth {α β : Type} (R : α → β → Prop) : Entries α → Entries β → Prop :=
  List.Forall₂ fun f g => f.1 = g.1 ∧ R f.2 g.2

namespace FieldsBoth

variable {α β : Type} {R : α → β → Prop} {fs : Entries α} {gs : Entries β}

theorem get? (h : FieldsBoth R fs gs) (key : String) :
    Option.Rel R (Entries.get? fs key) (Entries.get? gs key) := by
  induction h with
  | nil => exact .none
  | cons head _ ih =>
    obtain ⟨same, related⟩ := head
    rw [Entries.get?, Entries.get?, same]
    split
    · exact .some related
    · exact ih

theorem keys_eq (h : FieldsBoth R fs gs) : Entries.keys fs = Entries.keys gs := by
  induction h with
  | nil => rfl
  | cons head _ ih =>
    rw [Entries.keys, Entries.keys, List.map_cons, List.map_cons, head.1]
    exact congrArg _ ih

theorem has_eq (h : FieldsBoth R fs gs) (key : String) : Entries.has fs key = Entries.has gs key := by
  unfold Entries.has
  have := h.get? key
  generalize Entries.get? fs key = a at this ⊢
  generalize Entries.get? gs key = b at this ⊢
  cases this <;> rfl

/-- Whether there are keys that other fields lack. -/
theorem any_has_eq {γ δ : Type} {S : γ → δ → Prop} {fs' : Entries γ} {gs' : Entries δ}
    (h : FieldsBoth R fs gs) (h' : FieldsBoth S fs' gs') :
    fs'.any (fun f => !Entries.has fs f.1) = gs'.any fun g => !Entries.has gs g.1 := by
  induction h' with
  | nil => rfl
  | cons head _ ih => rw [List.any_cons, List.any_cons, ih, head.1, h.has_eq]

theorem put (h : FieldsBoth R fs gs) (key : String) {a : α} {b : β} (related : R a b) :
    FieldsBoth R (Entries.put fs key a) (Entries.put gs key b) := by
  induction h with
  | nil => exact .cons ⟨rfl, related⟩ .nil
  | @cons f g _ _ head tail ih =>
    obtain ⟨same, values⟩ := head
    rw [Entries.put, Entries.put, ← same]
    split
    · exact .cons ⟨rfl, related⟩ tail
    · exact .cons ⟨rfl, values⟩ ih

end FieldsBoth

namespace Value

/-- A reference, and what it becomes in a document that is moved to where nothing is that it
refers to: once it is looked up without the keys that were put in front, it leads elsewhere. -/
structure Moved (place : Path) (r t : Reference) : Prop where
  path : t.target.path = r.target.path.prepend place
  optional : t.target.optional = r.target.optional
  own : r.included = 0
  included : place.length ≤ t.included
  elsewhere : ∀ q, t.target.path.drop? t.included = some q → q.first ≠ place.first

/-- Two nodes that are the same but for origins and places, with related parts. -/
inductive Sides (place : Path) (R : Value → Value → Prop) : Value → Value → Prop
  | null (p q : Provenance) : Sides place R (null p) (null q)
  | bool (p q : Provenance) (b : Bool) : Sides place R (bool p b) (bool q b)
  | number (p q : Provenance) (n : Number) (t : Option String) :
      Sides place R (number p n t) (number q n t)
  | string (p q : Provenance) (t : String) (quoted : Bool) :
      Sides place R (string p t quoted) (string q t quoted)
  | object (p q : Provenance) (closed : Bool) {fs gs : Entries Value} (fields : FieldsBoth R fs gs) :
      Sides place R (object p closed fs) (object q closed gs)
  | list (p q : Provenance) {xs ys : List Value} (items : List.Forall₂ R xs ys) :
      Sides place R (list p xs) (list q ys)
  | reference (p q : Provenance) {r t : Reference} (moved : Moved place r t) :
      Sides place R (reference p r) (reference q t)
  | concat (p q : Provenance) {xs ys : List Value} (pieces : List.Forall₂ R xs ys) :
      Sides place R (concat p xs) (concat q ys)
  | merge (p q : Provenance) (kind : MergeKind) {xs ys : List Value} (layers : List.Forall₂ R xs ys) :
      Sides place R (merge p kind xs) (merge q kind ys)

/-- Two nodes without marks, or two nodes whose marks go together. -/
inductive Paired (W : Pairing) (v w : Value) : Prop
  | fresh (left : v.mark = none) (right : w.mark = none)
  | known {n k : Nat} (left : v.mark = some n) (right : w.mark = some k) (entry : W n = some (v, w))

/-- Two trees that are the same but for origins and places, and whose marks go together. -/
inductive Twin (place : Path) (W : Pairing) : Value → Value → Prop
  | node {v w : Value} (marks : Paired W v w) (same : Sides place (fun _ _ => True) v w)
      (parts : ∀ x y, (x, y) ∈ v.parts.zip w.parts → Twin place W x y) : Twin place W v w

variable {place : Path} {W : Pairing} {R : Value → Value → Prop} {v w v' w' : Value}

/-! ### Nodes and their parts -/

theorem Sides.parts (h : Sides place R v w) : List.Forall₂ R v.parts w.parts := by
  cases h with
  | object _ _ _ fields =>
    exact List.forall₂_map_left_iff.2 (List.forall₂_map_right_iff.2 (fields.imp fun _ _ h => h.2))
  | list _ _ items => exact items
  | concat _ _ pieces => exact pieces
  | merge _ _ _ layers => exact layers
  | _ => exact .nil

/-- The parts are related if they are one by one. -/
theorem Sides.of_parts {S : Value → Value → Prop} (h : Sides place S v w)
    (parts : ∀ x y, (x, y) ∈ v.parts.zip w.parts → R x y) : Sides place R v w := by
  have related : List.Forall₂ R v.parts w.parts :=
    List.forall₂_iff_zip.2 ⟨h.parts.length_eq, parts _ _⟩
  cases h with
  | null p q => exact .null p q
  | bool p q b => exact .bool p q b
  | number p q n t => exact .number p q n t
  | string p q t quoted => exact .string p q t quoted
  | object p q closed fields =>
    have related := List.forall₂_map_left_iff.1 (List.forall₂_map_right_iff.1 related)
    exact .object p q closed (fields.mp (fun _ _ h => And.intro h.1) related)
  | list p q _ => exact .list p q related
  | reference p q moved => exact .reference p q moved
  | concat p q _ => exact .concat p q related
  | merge p q kind _ => exact .merge p q kind related

theorem Sides.mono {S : Value → Value → Prop} (h : Sides place R v w) (mono : ∀ x y, R x y → S x y) :
    Sides place S v w :=
  h.of_parts fun x y hxy => mono x y (List.forall₂_zip h.parts hxy)

namespace Twin

theorem sides (h : Twin place W v w) : Sides place (Twin place W) v w := by
  cases h with
  | node _ same parts => exact same.of_parts parts

theorem marks (h : Twin place W v w) : Paired W v w := by
  cases h with
  | node marks => exact marks

theorem of_sides (marks : Paired W v w) (h : Sides place (Twin place W) v w) : Twin place W v w :=
  .node marks (h.mono fun _ _ _ => trivial) fun _ _ => List.forall₂_zip h.parts

/-- What holds of twins whose parts have it holds of all twins. -/
theorem induction {motive : (v w : Value) → Twin place W v w → Prop}
    (node : ∀ v w (h : Twin place W v w),
      Sides place (fun x y => ∃ h : Twin place W x y, motive x y h) v w → motive v w h)
    {v w : Value} (h : Twin place W v w) : motive v w h := by
  induction h with
  | node marks same parts ih =>
    exact node _ _ (.node marks same parts) (same.of_parts fun x y hxy => ⟨parts x y hxy, ih x y hxy⟩)

end Twin

/-! ### What twins have in common -/

namespace Sides

theorem isPending_eq (h : Sides place R v w) : v.isPending = w.isPending := by
  cases h <;> rfl

theorem isObjectValued_eq (h : Sides place R v w) : v.isObjectValued = w.isObjectValued := by
  cases h with
  | merge _ _ kind => cases kind <;> rfl
  | _ => rfl

theorem joinText?_eq (h : Sides place R v w) (nullIsEmpty : Bool) :
    joinText? nullIsEmpty v = joinText? nullIsEmpty w := by
  cases h <;> rfl

theorem isBlankText_eq (h : Sides place R v w) : v.isBlankText = w.isBlankText := by
  cases h with
  | string _ _ _ quoted => cases quoted <;> rfl
  | _ => rfl

theorem items? (h : Sides place R v w) : Option.Rel (List.Forall₂ R) v.items? w.items? := by
  cases h with
  | list _ _ items => exact .some items
  | _ => exact .none

theorem isSome_items?_eq (h : Sides place R v w) : v.items?.isSome = w.items?.isSome := by
  cases h <;> rfl

theorem layers (h : Sides place R v w) (self : R v w) : List.Forall₂ R v.layers w.layers := by
  cases h with
  | merge _ _ _ layers => exact layers
  | _ => exact .cons self .nil

end Sides

namespace Twin

theorem isResolved_eq (h : Twin place W v w) : v.isResolved = w.isResolved := by
  induction h using Twin.induction with
  | node v w h sides =>
    have items {xs ys : List Value}
        (h : List.Forall₂ (fun x y => ∃ _ : Twin place W x y, x.isResolved = y.isResolved) xs ys) :
        itemsResolved xs = itemsResolved ys := by
      induction h with
      | nil => rfl
      | cons head _ ih => rw [itemsResolved, itemsResolved, head.2, ih]
    cases sides with
    | @object p q closed fs gs fields =>
      rw [isResolved, isResolved]
      clear h
      induction fields with
      | nil => rfl
      | cons head _ ih =>
        obtain ⟨-, -, same⟩ := head
        rw [fieldsResolved, fieldsResolved, same, ih]
    | list p q related => exact items related
    | _ => rfl

theorem ignoresFallbacks_eq (h : Twin place W v w) : v.ignoresFallbacks = w.ignoresFallbacks := by
  induction h using Twin.induction with
  | node v w h sides =>
    cases sides with
    | list => exact h.isResolved_eq
    | merge p q kind layers =>
      rw [ignoresFallbacks, ignoresFallbacks]
      clear h
      induction layers with
      | nil => rfl
      | cons head tail ih =>
        cases tail with
        | nil => exact head.2
        | cons _ _ => exact ih
    | _ => rfl

theorem layers (h : Twin place W v w) : List.Forall₂ (Twin place W) v.layers w.layers :=
  h.sides.layers h

theorem fields {p q : Provenance} {c c' : Bool} {fs gs : Entries Value}
    (h : Twin place W (object p c fs) (object q c' gs)) : FieldsBoth (Twin place W) fs gs := by
  cases h.sides with
  | object _ _ _ fields => exact fields

/-- New nodes above twins. -/
theorem fresh (h : Sides place (Twin place W) v w) (left : v.mark = none) (right : w.mark = none) :
    Twin place W v w := .of_sides (.fresh left right) h

end Twin

/-! ### Merging -/

theorem Twin.stack {top top' : Value} {ls ls' : List Value} (h : Twin place W top top')
    (layers : List.Forall₂ (Twin place W) ls ls') :
    Twin place W (Value.stack top ls) (Value.stack top' ls') := by
  unfold Value.stack
  rw [h.sides.isObjectValued_eq]
  exact .fresh (.merge _ _ _ layers) rfl rfl

/-- Fields over fields, if putting one value over another keeps twins. -/
theorem FieldsBoth.absorbFields {own own' other other' : Entries Value}
    (h : FieldsBoth (fun x y => ∃ _ : Twin place W x y, ∀ {z z'}, Twin place W z z' →
      Option.Rel (Twin place W) (x.absorb? z) (y.absorb? z')) own own')
    (fallback : FieldsBoth (Twin place W) other other') :
    FieldsBoth (Twin place W) (Value.absorbFields own other).1 (Value.absorbFields own' other').1
      ∧ (Value.absorbFields own other).2 = (Value.absorbFields own' other').2 := by
  induction h generalizing other other' with
  | nil => exact ⟨fallback, rfl⟩
  | @cons f g _ _ head _ ih =>
    obtain ⟨key, x⟩ := f
    obtain ⟨key', y⟩ := g
    obtain ⟨rfl, twin, absorbs⟩ := head
    rw [Value.absorbFields, Value.absorbFields]
    have here := fallback.get? key
    generalize Entries.get? other key = a at here ⊢
    generalize Entries.get? other' key = b at here ⊢
    cases here with
    | none => exact ih (fallback.put key twin)
    | some twins =>
      have becomes := absorbs twins
      simp only []
      generalize x.absorb? _ = a at becomes ⊢
      generalize y.absorb? _ = b at becomes ⊢
      cases becomes with
      | none => exact ih (fallback.put key twin)
      | some twins => exact ⟨(ih (fallback.put key twins)).1, rfl⟩

/-- Twins become twins when twins are put underneath. -/
theorem Twin.absorb? (hv : Twin place W v v') (hw : Twin place W w w') :
    Option.Rel (Twin place W) (v.absorb? w) (v'.absorb? w') := by
  induction hv using Twin.induction generalizing w w' with
  | node v v' hv sides =>
    have waits := hw.sides.isPending_eq
    have stacked : Option.Rel (Twin place W)
        (if w.isPending then some (Value.stack v (v.layers ++ w.layers))
          else some (Value.stack v (v.layers ++ [w])))
        (if w'.isPending then some (Value.stack v' (v'.layers ++ w'.layers))
          else some (Value.stack v' (v'.layers ++ [w']))) := by
      rw [waits]
      split
      · exact .some (hv.stack (List.rel_append hv.layers hw.layers))
      · exact .some (hv.stack (List.rel_append hv.layers (.cons hw .nil)))
    have single (notObject : v.fields? = none) (notObject' : v'.fields? = none) :
        Option.Rel (Twin place W) (v.absorb? w) (v'.absorb? w') := by
      rw [absorb?_of_fields?_eq_none notObject, absorb?_of_fields?_eq_none notObject',
        hv.ignoresFallbacks_eq]
      split
      · exact .none
      · exact stacked
    cases sides with
    | @object p q closed own own' fields =>
      have resolved := hv.isResolved_eq
      have waiting (notObject : w.fields? = none) (notObject' : w'.fields? = none) :
          Option.Rel (Twin place W) ((object p closed own).absorb? w)
            ((object q closed own').absorb? w') := by
        rw [absorb?_object_of_fields?_eq_none notObject,
          absorb?_object_of_fields?_eq_none notObject']
        simp only [waits, resolved]
        split
        · exact .none
        split
        · exact .some (hv.stack (.cons hv hw.layers))
        split
        · cases closed with
          | true => exact .none
          | false => exact .some (.fresh (.object _ _ _ (hv.fields)) rfl rfl)
        · exact .some (hv.stack (.cons hv (.cons hw .nil)))
      cases hw.sides with
      | @object p' q' closed' other other' fields' =>
        obtain ⟨twins, changed⟩ := FieldsBoth.absorbFields fields fields'
        have more : other.any (fun f => !Entries.has own f.1)
            = other'.any fun f => !Entries.has own' f.1 :=
          FieldsBoth.any_has_eq hv.fields fields'
        rw [absorb?_object, absorb?_object]
        simp only [changed, more]
        split
        · exact .none
        split
        · exact .some (.fresh (.object _ _ _ twins) rfl rfl)
        split
        · exact .some (.fresh (.object _ _ _ twins) rfl rfl)
        · exact .none
      | _ => exact waiting rfl rfl
    | _ => exact single rfl rfl

theorem Twin.withFallback (hv : Twin place W v v') (hw : Twin place W w w') :
    Twin place W (v.withFallback w) (v'.withFallback w') := by
  unfold Value.withFallback
  have := hv.absorb? hw
  generalize v.absorb? w = a at this ⊢
  generalize v'.absorb? w' = b at this ⊢
  cases this with
  | none => exact hv
  | some twins => exact twins

theorem forall₂_foldl {α β γ δ : Type} {R : α → β → Prop} {S : γ → δ → Prop} {f : α → γ → α}
    {g : β → δ → β} (step : ∀ a b c d, R a b → S c d → R (f a c) (g b d)) {cs : List γ}
    {ds : List δ} (h : List.Forall₂ S cs ds) {a : α} {b : β} (start : R a b) :
    R (cs.foldl f a) (ds.foldl g b) := by
  induction h generalizing a b with
  | nil => exact start
  | cons head _ ih => exact ih (step _ _ _ _ start head)

theorem rel_mergeLayers? {ls ls' : List Value} (h : List.Forall₂ (Twin place W) ls ls') :
    Option.Rel (Twin place W) (mergeLayers? ls) (mergeLayers? ls') := by
  cases h with
  | nil => exact .none
  | cons head tail =>
    exact .some (forall₂_foldl (fun _ _ _ _ hv hw => hv.withFallback hw) tail head)

/-! ### Joining -/

theorem both_joinScalars (hv : Twin place W v v') (hw : Twin place W w w') (nullIsEmpty : Bool) :
    Both (Option.Rel (Twin place W)) (joinScalars nullIsEmpty v w)
      (joinScalars nullIsEmpty v' w') := by
  unfold joinScalars
  rw [hv.sides.isObjectValued_eq, hv.sides.isSome_items?_eq, hw.sides.isBlankText_eq,
    hv.sides.isPending_eq, hw.sides.isPending_eq, hv.sides.joinText?_eq, hw.sides.joinText?_eq]
  split
  · exact .ok (.some hv)
  split
  · exact .ok .none
  split
  · exact .ok (.some (.fresh (.string _ _ _ _) rfl rfl))
  · exact .error _ _

theorem both_join? (hv : Twin place W v v') (hw : Twin place W w w') (nullIsEmpty : Bool) :
    Both (Option.Rel (Twin place W)) (join? nullIsEmpty v w) (join? nullIsEmpty v' w') := by
  by_cases objects : (v.isObjectValued && w.isObjectValued) = true
  all_goals
    have objects' := objects
    rw [hv.sides.isObjectValued_eq, hw.sides.isObjectValued_eq] at objects'
  · rw [join?_of_objects objects, join?_of_objects objects']
    exact .ok (.some (hw.withFallback hv))
  have items := hv.sides.items?
  have items' := hw.sides.items?
  generalize hx : v.items? = xs, hx' : v'.items? = xs' at items
  generalize hy : w.items? = ys, hy' : w'.items? = ys' at items'
  cases items with
  | none =>
    rw [join?_of_scalars objects (.inl hx), join?_of_scalars objects' (.inl hx')]
    exact both_joinScalars hv hw nullIsEmpty
  | some xs =>
    cases items' with
    | none =>
      rw [join?_of_scalars objects (.inr hy), join?_of_scalars objects' (.inr hy')]
      exact both_joinScalars hv hw nullIsEmpty
    | some ys =>
      rw [join?_of_lists objects hx hy, join?_of_lists objects' hx' hy']
      exact .ok (.some (.fresh (.list _ _ (List.rel_append xs ys)) rfl rfl))

theorem forall₂_flattenPieces {ps qs : List Value} (h : List.Forall₂ (Twin place W) ps qs) :
    List.Forall₂ (Twin place W) (flattenPieces ps) (flattenPieces qs) := by
  refine List.rel_flatMap h fun v w twin => ?_
  cases twin.sides with
  | concat _ _ pieces => exact pieces
  | _ => exact .cons twin .nil

theorem both_joinOnto {todo todo' done done' : List Value} (nullIsEmpty : Bool)
    (h : List.Forall₂ (Twin place W) todo todo') (hd : List.Forall₂ (Twin place W) done done') :
    Both (List.Forall₂ (Twin place W)) (joinOnto nullIsEmpty done todo)
      (joinOnto nullIsEmpty done' todo') := by
  induction h generalizing done done' with
  | nil =>
    rw [joinOnto, joinOnto]
    exact .ok (List.rel_reverse hd)
  | cons head _ ih =>
    cases hd with
    | nil => exact ih (.cons head .nil)
    | @cons left left' before before' hl hb =>
      rw [joinOnto, joinOnto]
      have both := both_join? hl head nullIsEmpty
      generalize join? nullIsEmpty left _ = a at both ⊢
      generalize join? nullIsEmpty left' _ = b at both ⊢
      cases both with
      | error => exact .error _ _
      | ok related =>
        cases related with
        | none => exact ih (.cons head (.cons hl hb))
        | some twin => exact ih (.cons twin hb)

/-- Neighbours are joined to twins, or they cannot be joined. -/
theorem both_joinRun {ps qs : List Value} (nullIsEmpty : Bool)
    (h : List.Forall₂ (Twin place W) ps qs) :
    Both (List.Forall₂ (Twin place W)) (joinRun nullIsEmpty ps) (joinRun nullIsEmpty qs) := by
  unfold joinRun
  rw [h.length_eq]
  split
  · exact .ok h
  · exact both_joinOnto nullIsEmpty (forall₂_flattenPieces h) .nil

/-! ### Looking through -/

theorem both_peekLayers {ls ls' : List Value} (h : List.Forall₂ (Twin place W) ls ls') (path : Path)
    (o o' : Origin) :
    Both (Option.Rel (Twin place W)) (peekLayers path o ls) (peekLayers path o' ls') := by
  induction h with
  | nil => exact .error _ _
  | @cons l l' _ _ head _ ih =>
    rw [peekLayers, peekLayers]
    have waits := head.sides.isPending_eq
    have hidden : Both (Option.Rel (Twin place W))
        (if l.isPending then .error (Error.pending (.hidden path path.first o l.origin))
          else .ok none)
        (if l'.isPending then .error (Error.pending (.hidden path path.first o' l'.origin))
          else .ok none) := by
      rw [waits]
      split
      · exact .error _ _
      · exact .ok .none
    cases head.sides with
    | @object p q closed fs gs fields =>
      simp only [fields?]
      have here := FieldsBoth.get? fields path.first
      generalize Entries.get? fs path.first = a at here ⊢
      generalize Entries.get? gs path.first = b at here ⊢
      cases here with
      | none => exact ih
      | some twin =>
        simp only [twin.ignoresFallbacks_eq]
        split
        · exact .ok (.some twin)
        · exact ih
    | _ => exact hidden

theorem both_peekFirst (h : Sides place (Twin place W) v w) (path : Path) :
    Both (Option.Rel (Twin place W)) (v.peekFirst path) (w.peekFirst path) := by
  cases h with
  | object _ _ _ fields => exact .ok (FieldsBoth.get? fields path.first)
  | merge _ _ kind layers =>
    cases kind with
    | object => exact both_peekLayers layers path _ _
    | value => exact .ok .none
  | _ => exact .ok .none

/-- Looking through twins finds twins, or finds that something is not known yet. -/
theorem both_peekThrough (h : Sides place (Twin place W) v w) (first : String) (rest : List String) :
    Both (Option.Rel (Twin place W)) (v.peekThrough first rest) (w.peekThrough first rest) := by
  induction rest generalizing first v w with
  | nil => exact both_peekFirst h _
  | cons next rest ih =>
    rw [peekThrough, peekThrough]
    have both := both_peekFirst h ⟨first, next :: rest⟩
    generalize v.peekFirst _ = a at both ⊢
    generalize w.peekFirst _ = b at both ⊢
    cases both with
    | error => exact .error _ _
    | ok related =>
      cases related with
      | none => exact .ok .none
      | some twin =>
        simp only [bind, Except.bind, twin.sides.isObjectValued_eq]
        split
        · exact ih twin.sides next
        · exact .ok .none

end Value

end Hocon
