import Hocon.Proofs.Marks
import Hocon.Token.Scan

/-!
# Well formed trees

What all trees have in common that any part of the program makes: the keys of an object come
once, and a waiting merge is flat and holds a layer that is no object.  How references,
concatenations, comments and numbers may look beyond that depends on where a tree comes from; its
`Manner` says it.  In a tree from a text a comment is one line, and a number has a spelling that
reads back as this number.

Merging keeps trees well formed.  The proof does not go by the text of `Value.absorb?`.  That is
taken apart once (`Value.withFallback_cases`): a merge leaves the upper value as it is, or merges
fields, or closes an object, or stacks layers.  Every other fact about merging has these four
cases too.
-/

namespace Hocon

/-- What one of two values over the other gives where both may be missing. -/
def Entries.overlay (a b : Option Value) : Option Value :=
  match a, b with
  | some v, some w => some (v.withFallback w)
  | some v, none => some v
  | none, b => b

@[simp] theorem Entries.overlay_none_left (b : Option Value) : overlay none b = b := rfl

@[simp] theorem Entries.overlay_none_right (a : Option Value) : overlay a none = a := by
  cases a <;> rfl

@[simp] theorem Entries.overlay_some (v w : Value) :
    overlay (some v) (some w) = some (v.withFallback w) := rfl

/-- What there is of two values over each other is one of them alone, or both merged. -/
theorem Entries.overlay_cases {a b : Option Value} {u : Value} (h : overlay a b = some u) :
    a = some u ∨ b = some u ∨ ∃ v w, a = some v ∧ b = some w ∧ u = v.withFallback w := by
  cases a with
  | none => exact .inr (.inl h)
  | some v =>
    cases b with
    | none => exact .inl h
    | some w =>
      cases h
      exact .inr (.inr ⟨v, w, rfl, rfl, rfl⟩)

/-! ### Comments -/

/-- A text that is one line. -/
def IsLine (t : String) : Prop := '\n' ∉ t.toList

/-- Texts of which each is one line. -/
abbrev Lines (texts : List String) : Prop := ∀ t ∈ texts, IsLine t

namespace Origin

/-- Each comment is as `comment` says. -/
def Commented (comment : String → Prop) (o : Origin) : Prop := ∀ t ∈ o.comments, comment t

theorem Commented.of_nil {comment : String → Prop} {o : Origin} (h : o.comments = []) :
    o.Commented comment := by
  rw [Commented, h]
  exact List.forall_mem_nil _

theorem mem_comments_merge {a b : Origin} {t : String} (h : t ∈ (a.merge b).comments) :
    t ∈ a.comments ∨ t ∈ b.comments := by
  unfold Origin.merge at h
  split at h
  · exact .inl h
  · simp only [] at h
    split at h
    · exact .inl h
    · exact List.mem_append.1 h

theorem Commented.merge {comment : String → Prop} {a b : Origin} (ha : a.Commented comment)
    (hb : b.Commented comment) : (a.merge b).Commented comment :=
  fun t ht => (mem_comments_merge ht).elim (ha t) (hb t)

theorem mem_comments_mergeAll? {os : List Origin} {o : Origin} (ho : Origin.mergeAll? os = some o)
    {t : String} (h : t ∈ o.comments) : ∃ o' ∈ os, t ∈ o'.comments := by
  cases os with
  | nil => cases ho
  | cons a os =>
    cases ho
    induction os generalizing a with
    | nil => exact ⟨a, List.mem_cons_self, h⟩
    | cons b os ih =>
      obtain ⟨o', ho', h⟩ := ih _ h
      rcases List.mem_cons.1 ho' with rfl | ho'
      · rcases mem_comments_merge h with h | h
        · exact ⟨a, List.mem_cons_self, h⟩
        · exact ⟨b, List.mem_cons_of_mem _ List.mem_cons_self, h⟩
      · exact ⟨o', List.mem_cons_of_mem _ (List.mem_cons_of_mem _ ho'), h⟩

end Origin

namespace Value

/-! ### Merging fields -/

theorem mem_comments_mergedOrigin {vs : List Value} {t : String}
    (h : t ∈ (mergedOrigin vs).comments) : ∃ v ∈ vs, t ∈ v.origin.comments := by
  unfold mergedOrigin at h
  simp only [] at h
  cases hm : Origin.mergeAll? ((vs.filter fun v => !v.isEmptyObject).map origin) with
  | some o =>
    rw [hm] at h
    obtain ⟨o', ho', h⟩ := Origin.mem_comments_mergeAll? hm h
    obtain ⟨v, hv, rfl⟩ := List.mem_map.1 ho'
    exact ⟨v, (List.mem_filter.1 hv).1, h⟩
  | none =>
    rw [hm] at h
    cases vs with
    | nil => cases h
    | cons v vs => exact ⟨v, List.mem_cons_self, h⟩

/-- The merged fields, seen through a key. -/
theorem get?_absorbFields {own : Entries Value} (nodup : (Entries.keys own).Nodup)
    (other : Entries Value) (k : String) :
    Entries.get? (absorbFields own other).1 k
      = Entries.overlay (Entries.get? own k) (Entries.get? other k) := by
  induction own generalizing other with
  | nil => rfl
  | cons f own ih =>
    obtain ⟨key, v⟩ := f
    simp only [Entries.keys, List.map_cons, List.nodup_cons] at nodup
    have absent : Entries.get? own key = none := Entries.get?_eq_none_iff.2 nodup.1
    -- what was put at the key is what the rest of the fields meets there
    have put (u : Value) (hu : Entries.overlay (some v) (Entries.get? other key) = some u) :
        Entries.overlay (Entries.get? own k) (Entries.get? (Entries.put other key u) k)
          = Entries.overlay (Entries.get? ((key, v) :: own) k) (Entries.get? other k) := by
      rw [Entries.get?_put, Entries.get?]
      by_cases hk : k = key
      · subst hk
        simp only [if_true, absent, Entries.overlay_none_left, hu]
      · rw [if_neg hk, if_neg (Ne.symm hk)]
    rw [absorbFields]
    split
    · next h => rw [ih nodup.2, put v (by rw [h]; rfl)]
    · next w h =>
      split
      · next hu =>
        rw [ih nodup.2, put v (by rw [h, Entries.overlay_some, withFallback, hu]; rfl)]
      · next u hu =>
        rw [ih nodup.2, put u (by rw [h, Entries.overlay_some, withFallback, hu]; rfl)]

theorem nodup_absorbFields (own : Entries Value) {other : Entries Value}
    (nodup : (Entries.keys other).Nodup) :
    (Entries.keys (absorbFields own other).1).Nodup := by
  induction own generalizing other with
  | nil => exact nodup
  | cons f own ih =>
    obtain ⟨key, v⟩ := f
    rw [absorbFields]
    split
    · exact ih (Entries.nodup_keys_put nodup key v)
    · split
      · exact ih (Entries.nodup_keys_put nodup key v)
      · exact ih (Entries.nodup_keys_put nodup key _)

/-- Where no field changed, each field hides what the fallback has at its key. -/
theorem absorb?_of_unchanged {own other : Entries Value} (nodup : (Entries.keys own).Nodup)
    (h : (absorbFields own other).2 = false) {k : String} {v w : Value}
    (hv : Entries.get? own k = some v) (hw : Entries.get? other k = some w) :
    v.absorb? w = none := by
  induction own generalizing other with
  | nil => cases hv
  | cons f own ih =>
    obtain ⟨key, u⟩ := f
    simp only [Entries.keys, List.map_cons, List.nodup_cons] at nodup
    rw [Entries.get?] at hv
    by_cases hk : key = k
    · subst hk
      simp only [if_true, Option.some.injEq] at hv
      subst hv
      simp only [absorbFields, hw] at h
      split at h
      · next hu => exact hu
      · cases h
    · rw [if_neg hk] at hv
      have rest (x : Value) : Entries.get? (Entries.put other key x) k = some w := by
        rw [Entries.get?_put_of_ne (Ne.symm hk), hw]
      rw [absorbFields] at h
      split at h
      · exact ih nodup.2 h hv (rest u)
      · split at h
        · exact ih nodup.2 h hv (rest u)
        · cases h

/-- An object over an object. -/
theorem withFallback_object {own other : Entries Value} (own_nodup : (Entries.keys own).Nodup)
    (other_nodup : (Entries.keys other).Nodup) (p q : Provenance) (closed : Bool) :
    ∃ p' fs, (object p false own).withFallback (object q closed other) = object p' closed fs
      ∧ (p' = p ∧ fs = own ∧ closed = false ∨ p'.mark = none)
      ∧ (∀ t ∈ p'.origin.comments, t ∈ p.origin.comments ∨ t ∈ q.origin.comments)
      ∧ (Entries.keys fs).Nodup
      ∧ ∀ k, Entries.get? fs k
          = Entries.overlay (Entries.get? own k) (Entries.get? other k) := by
  rw [withFallback, absorb?_object]
  simp only [Bool.false_eq_true, if_false]
  split
  · -- fields were merged or added
    refine ⟨_, _, rfl, .inr rfl, fun t ht => ?_, nodup_absorbFields own other_nodup,
      get?_absorbFields own_nodup other⟩
    obtain ⟨v, hv, ht⟩ := mem_comments_mergedOrigin ht
    rcases List.mem_cons.1 hv with rfl | hv
    · exact .inl ht
    · rw [List.mem_singleton.1 hv] at ht
      exact .inr ht
  · next h =>
    split
    · next hc =>
      subst hc
      -- the objects differ in closing only
      exact ⟨_, _, rfl, .inr rfl, fun _ => .inl, nodup_absorbFields own other_nodup,
        get?_absorbFields own_nodup other⟩
    · next hc =>
      simp only [Bool.or_eq_true, not_or, Bool.not_eq_true] at h hc
      subst hc
      -- nothing changed: the upper object hides or has all of the lower one
      refine ⟨p, own, rfl, .inl ⟨rfl, rfl, rfl⟩, fun _ => .inl, own_nodup, fun k => ?_⟩
      cases hv : Entries.get? own k with
      | some v =>
        cases hw : Entries.get? other k with
        | some w =>
          have := absorb?_of_unchanged own_nodup h.1 hv hw
          rw [Entries.overlay_some, withFallback, this]
          rfl
        | none => rfl
      | none =>
        rw [Entries.overlay_none_left]
        refine (Entries.get?_eq_none_iff.2 fun hk => ?_).symm
        obtain ⟨f, hf, rfl⟩ := List.mem_map.1 hk
        have := List.any_eq_false.1 h.2 f hf
        simp [Entries.has, hv] at this

/-! ### Well formed trees -/

def isMerge : Value → Bool
  | merge _ _ _ => true
  | _ => false

/-- Whether this is an object that takes nothing from what is below it. -/
def isClosed : Value → Bool
  | object _ closed _ => closed
  | _ => false

/-- What the layers of a waiting merge have in common: they are no merges themselves, one of them
is no object, the kind is that of the topmost, and what is closed is the last of them. -/
structure Stacked (k : MergeKind) (ls : List Value) : Prop where
  flat : ∀ l ∈ ls, l.isMerge = false
  waits : ∃ l ∈ ls, l.fields? = none
  kind : ∀ l, ls.head? = some l → k = if l.isObjectValued then .object else .value
  lasting : ls.Pairwise fun l _ => l.isClosed = false

/-- The spelling of a number: a text of which the whole is one token, for this number. -/
def Spelled (n : Number) (spelling : Option String) : Prop :=
  ∃ first rest, spelling = some (String.ofList (first :: rest))
    ∧ Scan.startsNumber first = true ∧ rest.all Scan.continuesNumber = true
    ∧ Scan.numberLiteral? (first :: rest) = some
        (match n with
          | .whole w => .whole w (String.ofList (first :: rest))
          | .double d => .double d (String.ofList (first :: rest)))

/-- How the trees of one provenance look: which references and concatenations they have, what
their comments are, and how their numbers are spelled. -/
structure Manner where
  query : Value → Prop
  comment : String → Prop
  number : Number → Option String → Prop

/-- How trees look that were read from texts, but for their references and concatenations. -/
def Manner.ofTexts (query : Value → Prop) : Manner where
  query := query
  comment := IsLine
  number := Spelled

/-- How trees look whose numbers were read from texts. -/
def Manner.spelled : Manner where
  query _ := True
  comment _ := True
  number := Spelled

/-- How trees look of which nothing is asked. -/
def Manner.any : Manner where
  query _ := True
  comment _ := True
  number _ _ := True

/-- A well formed tree of a manner. -/
inductive WellFormed (manner : Manner) : Value → Prop
  | null {p : Provenance} (lines : p.origin.Commented manner.comment) : WellFormed manner (null p)
  | bool {p : Provenance} (lines : p.origin.Commented manner.comment) (b : Bool) :
      WellFormed manner (bool p b)
  | number {p : Provenance} (lines : p.origin.Commented manner.comment) {n : Number}
      {t : Option String} (spelled : manner.number n t) : WellFormed manner (number p n t)
  | string {p : Provenance} (lines : p.origin.Commented manner.comment) (t : String)
      (quoted : Bool) : WellFormed manner (string p t quoted)
  | object {p : Provenance} (lines : p.origin.Commented manner.comment) (c : Bool)
      {fs : Entries Value} (nodup : (Entries.keys fs).Nodup)
      (fields : ∀ k v, (k, v) ∈ fs → WellFormed manner v) : WellFormed manner (object p c fs)
  | list {p : Provenance} (lines : p.origin.Commented manner.comment) {xs : List Value}
      (items : ∀ x ∈ xs, WellFormed manner x) : WellFormed manner (list p xs)
  | reference {p : Provenance} (lines : p.origin.Commented manner.comment) {r : Reference}
      (h : manner.query (reference p r)) : WellFormed manner (reference p r)
  | concat {p : Provenance} (lines : p.origin.Commented manner.comment) {ps : List Value}
      (h : manner.query (concat p ps)) (pieces : ∀ x ∈ ps, WellFormed manner x) :
      WellFormed manner (concat p ps)
  | merge {p : Provenance} (lines : p.origin.Commented manner.comment) {k : MergeKind}
      {ls : List Value} (stacked : Stacked k ls) (layers : ∀ l ∈ ls, WellFormed manner l) :
      WellFormed manner (merge p k ls)

theorem Alike.isClosed_eq {v w : Value} (h : v.Alike w) : w.isClosed = v.isClosed := by
  cases h <;> rfl

theorem Stacked.alike {k : MergeKind} {xs ys : List Value} (h : Stacked k xs)
    (length : xs.length = ys.length)
    (layers : ∀ (i : Nat) x y, xs[i]? = some x → ys[i]? = some y → Alike x y) : Stacked k ys where
  flat := Alike.forall_mem length (fun i x y hx hy hm => by
    cases layers i x y hx hy <;> first | rfl | cases hm) h.flat
  waits := by
    obtain ⟨x, hx, hf⟩ := h.waits
    obtain ⟨i, y, hy, hx⟩ := Alike.exists_place length.symm hx
    refine ⟨y, List.mem_of_getElem? hy, ?_⟩
    cases layers i x y hx hy <;> first | rfl | cases hf
  kind y hy := by
    rw [List.head?_eq_getElem?] at hy
    obtain ⟨x, hx⟩ := Alike.exists_getElem? length.symm hy
    rw [(layers 0 x y hx hy).isObjectValued_eq]
    exact h.kind x (by rwa [List.head?_eq_getElem?])
  lasting := by
    refine List.pairwise_iff_getElem.2 fun i j hi hj lt => ?_
    have open_ := List.pairwise_iff_getElem.1 h.lasting i j (length ▸ hi) (length ▸ hj) lt
    rwa [(layers i _ _ (List.getElem?_eq_getElem (length ▸ hi))
      (List.getElem?_eq_getElem hi)).isClosed_eq]

namespace WellFormed

variable {manner : Manner} {v w : Value}

theorem parts (h : WellFormed manner v) : ∀ u ∈ v.parts, WellFormed manner u := by
  cases h with
  | object _ c _ fields =>
    intro u hu
    obtain ⟨f, hf, rfl⟩ := List.mem_map.1 hu
    exact fields _ _ hf
  | list _ items => exact items
  | concat _ _ pieces => exact pieces
  | merge _ _ layers => exact layers
  | _ => exact nofun

theorem lines (h : WellFormed manner v) : v.origin.Commented manner.comment := by
  cases h <;> assumption

theorem nodup {p : Provenance} {c : Bool} {fs : Entries Value}
    (h : WellFormed manner (.object p c fs)) : (Entries.keys fs).Nodup := by
  cases h with
  | object _ _ nodup _ => exact nodup

theorem field {p : Provenance} {c : Bool} {fs : Entries Value}
    (h : WellFormed manner (.object p c fs)) {k : String} {u : Value}
    (hu : Entries.get? fs k = some u) : WellFormed manner u :=
  h.parts u (mem_parts_of_mem_fields (Entries.mem_of_get? hu))

theorem lasting (h : WellFormed manner v) : v.layers.Pairwise fun l _ => l.isClosed = false := by
  cases h with
  | merge _ stacked _ => exact stacked.lasting
  | _ => exact List.pairwise_singleton _ _

/-- The layers that a value stands for are no merges. -/
theorem flat (h : WellFormed manner v) : ∀ l ∈ v.layers, l.isMerge = false := by
  cases h with
  | merge _ stacked _ => exact stacked.flat
  | _ =>
    intro l hl
    rw [List.mem_singleton.1 hl]
    rfl

theorem layers (h : WellFormed manner v) : ∀ l ∈ v.layers, WellFormed manner l := by
  intro l hl
  cases v with
  | merge p k ls => exact h.parts l hl
  | _ => exact List.mem_singleton.1 hl ▸ h

/-- A value that is no object stands for layers of which one is no object. -/
theorem exists_layer (h : WellFormed manner v) (hv : v.fields? = none) :
    ∃ l ∈ v.layers, l.fields? = none := by
  cases h with
  | merge _ stacked _ => exact stacked.waits
  | object => cases hv
  | _ => exact ⟨_, List.mem_singleton_self _, rfl⟩

theorem layers_ne_nil (h : WellFormed manner v) : v.layers ≠ [] := by
  cases h with
  | merge _ stacked _ =>
    obtain ⟨l, hl, -⟩ := stacked.waits
    exact List.ne_nil_of_mem hl
  | _ => exact List.cons_ne_nil _ _

/-- A value that takes fallbacks stands for layers that are open. -/
theorem isClosed_of_layers (h : WellFormed manner v) (open_ : v.ignoresFallbacks = false) :
    ∀ l ∈ v.layers, l.isClosed = false := by
  cases h with
  | @merge p _ k ls stacked layers =>
    have last := stacked.lasting
    replace open_ : lastIgnoresFallbacks ls = false := open_
    show ∀ l ∈ ls, l.isClosed = false
    clear stacked layers
    induction ls with
    | nil => exact List.forall_mem_nil _
    | cons l ls ih =>
      cases ls with
      | nil =>
        refine List.forall_mem_singleton.2 ?_
        cases l with
        | object => exact open_
        | _ => rfl
      | cons l' ls =>
        obtain ⟨here, below⟩ := List.pairwise_cons.1 last
        exact List.forall_mem_cons.2 ⟨here l' List.mem_cons_self, ih below open_⟩
  | object => exact List.forall_mem_singleton.2 open_
  | _ => exact List.forall_mem_singleton.2 rfl

/-- The topmost of the layers that a value stands for is an object if the value is to be one. -/
theorem isObjectValued_head (h : WellFormed manner v) {l : Value} (hl : v.layers.head? = some l) :
    l.isObjectValued = v.isObjectValued := by
  cases h with
  | merge _ stacked layers =>
    have kind := stacked.kind l hl
    split at kind
    · next h => rw [h, kind]; rfl
    · next h => rw [kind, Bool.not_eq_true] at *; exact h
  | _ =>
    cases hl
    rfl

/-- The layers of a value that waits for its fallback. -/
theorem stack (hv : WellFormed manner v) (hw : WellFormed manner w)
    (open_ : v.ignoresFallbacks = false) (waits : v.fields? = none ∨ w.fields? = none) :
    Stacked (if v.isObjectValued then .object else .value) (v.layers ++ w.layers) where
  flat l hl := (List.mem_append.1 hl).elim (hv.flat l) (hw.flat l)
  waits := by
    rcases waits with hf | hf
    · obtain ⟨l, hl, h⟩ := hv.exists_layer hf
      exact ⟨l, List.mem_append_left _ hl, h⟩
    · obtain ⟨l, hl, h⟩ := hw.exists_layer hf
      exact ⟨l, List.mem_append_right _ hl, h⟩
  kind l hl := by
    obtain ⟨x, xs, hx⟩ := List.exists_cons_of_ne_nil hv.layers_ne_nil
    have top : v.layers.head? = some l := by rw [← hl, hx]; rfl
    rw [hv.isObjectValued_head top]
  lasting := by
    refine List.pairwise_append.2 ⟨hv.lasting, hw.lasting, fun l hl _ _ => ?_⟩
    exact hv.isClosed_of_layers open_ l hl

/-- Neither marks nor the order of fields matter. -/
theorem alike (query_alike : ∀ v w, v.Alike w → manner.query v → manner.query w)
    (h : WellFormed manner v) (hw : v.Alike w) : WellFormed manner w := by
  have hlines := h.lines
  induction hw with
  | null origin => exact .null (origin ▸ hlines)
  | bool origin b => exact .bool (origin ▸ hlines) b
  | number origin n t =>
    cases h with
    | number _ spelled => exact .number (origin ▸ hlines) spelled
  | string origin t quoted => exact .string (origin ▸ hlines) t quoted
  | reference origin r =>
    cases h with
    | reference _ h => exact .reference (origin ▸ hlines) (query_alike _ _ (.reference origin r) h)
  | object origin c keys _ ih =>
    cases h with
    | object _ _ nodup fields =>
      refine .object (origin ▸ hlines) c (keys.nodup_iff.1 nodup)
        (Alike.forall_fields nodup keys (fun k v w hv hw h => ih k v w hv hw h h.lines) fields)
  | list origin length _ ih =>
    cases h with
    | list _ items =>
      exact .list (origin ▸ hlines)
        (Alike.forall_mem length (fun i x y hx hy h => ih i x y hx hy h h.lines) items)
  | concat origin length pieces ih =>
    cases h with
    | concat _ h pieces' =>
      exact .concat (origin ▸ hlines) (query_alike _ _ (.concat origin length pieces) h)
        (Alike.forall_mem length (fun i x y hx hy h => ih i x y hx hy h h.lines) pieces')
  | merge origin k length layers ih =>
    cases h with
    | merge _ stacked layers' =>
      exact .merge (origin ▸ hlines) (stacked.alike length layers)
        (Alike.forall_mem length (fun i x y hx hy h => ih i x y hx hy h h.lines) layers')

theorem withOrigin (query_withProv : ∀ v p, manner.query v → manner.query (v.withProv p))
    (h : WellFormed manner v) {o : Origin} (lines : o.Commented manner.comment) :
    WellFormed manner (v.withOrigin o) := by
  cases h with
  | null => exact .null lines
  | bool _ b => exact .bool lines b
  | number _ spelled => exact .number lines spelled
  | string _ t quoted => exact .string lines t quoted
  | object _ c nodup fields => exact .object lines c nodup fields
  | list _ items => exact .list lines items
  | reference _ h => exact .reference lines (query_withProv _ _ h)
  | concat _ h pieces => exact .concat lines (query_withProv _ _ h) pieces
  | merge _ stacked layers => exact .merge lines stacked layers

theorem markFrom (query_alike : ∀ v w, v.Alike w → manner.query v → manner.query w)
    (h : WellFormed manner v) (next : Nat) : WellFormed manner (v.markFrom next).1 :=
  h.alike query_alike (alike_markFrom v next)

end WellFormed

/-! ### Documents that include nothing -/

/-- `u` is a node of `v`. -/
inductive Within (u : Value) : Value → Prop
  | self : Within u u
  | part {v w : Value} (h : Within u v) (hv : v ∈ w.parts) : Within u w

theorem Within.of_part {u v w : Value} (h : v.Within w) (hu : u ∈ v.parts) : u.Within w := by
  induction h with
  | self => exact .part .self hu
  | part _ hv ih => exact .part ih hv

theorem Within.trans {u v w : Value} (h : u.Within v) (h' : v.Within w) : u.Within w := by
  induction h with
  | self => exact h'
  | part _ hv ih => exact ih (h'.of_part hv)

/-- What each node passes on to its parts holds of all nodes of a tree if it holds of the tree. -/
theorem Within.passes {P : Value → Prop} (parts : ∀ v, P v → ∀ u ∈ v.parts, P u) {u v : Value}
    (h : u.Within v) (hv : P v) : P u := by
  induction h with
  | self => exact hv
  | part _ hu ih => exact ih (parts _ hv _ hu)

theorem WellFormed.within {manner : Manner} {u v : Value} (h : v.WellFormed manner)
    (hu : u.Within v) : u.WellFormed manner :=
  hu.passes (fun _ h => h.parts) h

/-- No node of a resolved tree waits for a reference. -/
theorem isResolved_of_within {u v : Value} (h : u.Within v) (hv : v.isResolved = true) :
    u.isResolved = true :=
  h.passes (fun _ h => (isResolved_iff.1 h).2) hv

/-- What a path leads to is a node of the tree. -/
theorem within_of_peek? {keys : List String} {u v : Value} (hu : v.peek? keys = some u) :
    u.Within v := by
  induction keys generalizing v with
  | nil =>
    cases hu
    exact .self
  | cons key keys ih =>
    obtain ⟨p, c, fs, x, rfl, hx, below⟩ := exists_field_of_peek? hu
    exact .part (ih below) (mem_parts_of_mem_fields (Entries.mem_of_get? hx))

/-- Whether a node passes a check, if it is a reference. -/
def referencePasses (check : Reference → Bool) : Value → Bool
  | reference _ r => check r
  | _ => true

mutual

/-- Whether all nodes of the tree pass a check. -/
def allNodes (check : Value → Bool) : Value → Bool
  | object p c fs => check (object p c fs) && allNodesOfFields check fs
  | list p xs => check (list p xs) && allNodesOfItems check xs
  | concat p ps => check (concat p ps) && allNodesOfItems check ps
  | merge p k ls => check (merge p k ls) && allNodesOfItems check ls
  | v => check v

def allNodesOfFields (check : Value → Bool) : Entries Value → Bool
  | [] => true
  | (_, v) :: fs => v.allNodes check && allNodesOfFields check fs

def allNodesOfItems (check : Value → Bool) : List Value → Bool
  | [] => true
  | v :: vs => v.allNodes check && allNodesOfItems check vs

end

theorem allNodesOfItems_iff {check : Value → Bool} {vs : List Value} :
    allNodesOfItems check vs = true ↔ ∀ v ∈ vs, v.allNodes check = true := by
  induction vs with
  | nil => simp [allNodesOfItems]
  | cons v vs ih => simp [allNodesOfItems, ih]

theorem allNodesOfFields_iff {check : Value → Bool} {fs : Entries Value} :
    allNodesOfFields check fs = true ↔ ∀ v ∈ fs.map (·.2), v.allNodes check = true := by
  induction fs with
  | nil => simp [allNodesOfFields]
  | cons f fs ih => simp [allNodesOfFields, ih]

theorem allNodes_iff {check : Value → Bool} {v : Value} :
    v.allNodes check = true ↔ check v = true ∧ ∀ u ∈ v.parts, u.allNodes check = true := by
  cases v <;> simp [allNodes, parts, allNodesOfFields_iff, allNodesOfItems_iff]

/-- What a check finds of all nodes holds of each. -/
theorem Within.check {check : Value → Bool} {u v : Value} (h : u.Within v)
    (hv : v.allNodes check = true) : check u = true :=
  (allNodes_iff.1 (h.passes (fun _ h => (allNodes_iff.1 h).2) hv)).1

/-- What is in a table besides a tree may be left out. -/
theorem Known.filter {g : Table} {v : Value} (h : Known g v) {P : Nat → Value → Prop}
    [∀ n, DecidablePred (P n)] (all : ∀ n u, u.Within v → u.mark = some n → P n u) :
    Known (fun n => (g n).filter (P n)) v := by
  induction h with
  | node mark entry _ ih =>
    refine .node mark ?_ fun u hu => ih u hu fun n x hx => all n x (hx.part hu)
    rw [entry, Option.filter_some, if_pos (by simpa using all _ _ .self mark)]

/-- A tree without marks goes with every table. -/
theorem Markable.of_unmarked {v : Value} {g : Table} (h : ∀ u : Value, u.Within v → u.mark = none) :
    v.Markable True g := by
  induction v using parts_induction with
  | node v ih =>
    exact .fresh (h v .self) (fun _ => trivial) fun u hu => ih u hu fun x hx => h x (hx.part hu)

/-- A tree without marks is coherent. -/
theorem Coherent.of_unmarked {v : Value} (h : ∀ u : Value, u.Within v → u.mark = none) :
    v.Coherent :=
  ⟨fun _ => none, .of_unmarked h⟩

/-- Each part of a tree has one that it is like in a tree alike. -/
theorem Alike.exists_part {manner : Manner} {u v w : Value} (wf : v.WellFormed manner)
    (h : v.Alike w) (hu : u ∈ w.parts) : ∃ x ∈ v.parts, x.Alike u := by
  have item {xs ys : List Value} (length : xs.length = ys.length)
      (items : ∀ (i : Nat) x y, xs[i]? = some x → ys[i]? = some y → Alike x y) (hu : u ∈ ys) :
      ∃ x ∈ xs, x.Alike u := by
    obtain ⟨i, x, hx, hu⟩ := exists_place length hu
    exact ⟨x, List.mem_of_getElem? hx, items i x u hx hu⟩
  cases h with
  | object _ c keys fields =>
    obtain ⟨f, hf, rfl⟩ := List.mem_map.1 hu
    have hf := Entries.get?_of_mem (keys.nodup_iff.1 wf.nodup) hf
    obtain ⟨x, hx⟩ := Entries.exists_get?_of_mem_keys
      (keys.mem_iff.2 (Entries.mem_keys_of_get? hf))
    exact ⟨x, mem_parts_of_mem_fields (c := c) (Entries.mem_of_get? hx), fields f.1 x f.2 hx hf⟩
  | list _ length items => exact item length items hu
  | concat _ length pieces => exact item length pieces hu
  | merge _ k length layers => exact item length layers hu
  | _ => cases hu

theorem Alike.exists_within {manner : Manner} {u v w : Value} (wf : v.WellFormed manner)
    (h : v.Alike w) (hu : u.Within w) : ∃ x : Value, x.Within v ∧ x.Alike u := by
  induction hu generalizing v with
  | self => exact ⟨v, .self, h⟩
  | part _ hv ih =>
    obtain ⟨x, hx, like⟩ := h.exists_part wf hv
    obtain ⟨y, hy, like⟩ := ih (wf.parts x hx) like
    exact ⟨y, .part hy hx, like⟩

/-- Whether a reference of the tree has to have a target. -/
def HasMandatory (v : Value) : Prop :=
  ∃ p r, (reference p r).Within v ∧ r.target.optional = false

/-- References as they are in a document that nothing was included in; if there is one that has
to have a target, `mandatory` tells. -/
def Plain (mandatory : Prop) : Value → Prop
  | reference _ r => r.included = 0 ∧ (r.target.optional = false → mandatory)
  | _ => True

theorem plain_alike {mandatory : Prop} (v w : Value) (h : v.Alike w) (hv : Plain mandatory v) :
    Plain mandatory w := by
  cases h <;> exact hv

/-- A tree is of another manner too if its own nodes are as that asks. -/
theorem WellFormed.mono {manner manner' : Manner} {v : Value} (h : v.WellFormed manner)
    (query : ∀ u : Value, u.Within v → manner.query u → manner'.query u)
    (comment : ∀ t, manner.comment t → manner'.comment t)
    (number : ∀ n t, manner.number n t → manner'.number n t) : v.WellFormed manner' := by
  have commented {o : Origin} (lines : o.Commented manner.comment) :
      o.Commented manner'.comment := fun t ht => comment t (lines t ht)
  have nodes (w : Value) (h : w.WellFormed manner) (hw : w.Within v) : w.WellFormed manner' := by
    induction h with
    | null lines => exact .null (commented lines)
    | bool lines b => exact .bool (commented lines) b
    | number lines spelled => exact .number (commented lines) (number _ _ spelled)
    | string lines t quoted => exact .string (commented lines) t quoted
    | object lines c nodup fields ih =>
      exact .object (commented lines) c nodup fun k u hu =>
        ih k u hu (hw.of_part (mem_parts_of_mem_fields (c := c) hu))
    | list lines items ih =>
      exact .list (commented lines) fun x hx => ih x hx (hw.of_part hx)
    | reference lines h => exact .reference (commented lines) (query _ hw h)
    | concat lines h pieces ih =>
      exact .concat (commented lines) (query _ hw h) fun x hx => ih x hx (hw.of_part hx)
    | merge lines stacked layers ih =>
      exact .merge (commented lines) stacked fun l hl => ih l hl (hw.of_part hl)
  exact nodes v h .self

theorem WellFormed.any {manner : Manner} {v : Value} (h : v.WellFormed manner) :
    v.WellFormed .any :=
  h.mono (fun _ _ _ => trivial) (fun _ _ => trivial) fun _ _ _ => trivial

theorem WellFormed.plain {v : Value} (h : v.WellFormed (.ofTexts (Plain True))) :
    v.WellFormed (.ofTexts (Plain v.HasMandatory)) := by
  refine h.mono (fun u hu h => ?_) (fun _ => id) fun _ _ => id
  cases u with
  | reference p r => exact ⟨h.1, fun optional => ⟨p, r, hu, optional⟩⟩
  | _ => trivial

/-! ### What merging does -/

/-- An object over an object is an object. -/
theorem isSome_fields?_withFallback {v w : Value} (hv : v.fields?.isSome = true)
    (hw : w.fields?.isSome = true) : (v.withFallback w).fields?.isSome = true := by
  obtain ⟨own, hown⟩ := Option.isSome_iff_exists.1 hv
  obtain ⟨other, hother⟩ := Option.isSome_iff_exists.1 hw
  obtain ⟨p, closed, rfl⟩ := eq_object_of_fields? hown
  obtain ⟨q, closed', rfl⟩ := eq_object_of_fields? hother
  rw [withFallback, absorb?_object]
  simp only []
  split
  · rfl
  split
  · rfl
  split
  · rfl
  · rfl

/-- What hides all below it stays as it is. -/
theorem withFallback_of_ignoresFallbacks {v : Value} (h : v.ignoresFallbacks = true) (w : Value) :
    v.withFallback w = v := by
  have : v.absorb? w = none := by
    cases v with
    | object p c own =>
      cases hg : w.fields? with
      | some other =>
        obtain ⟨q, c', rfl⟩ := eq_object_of_fields? hg
        rw [absorb?_object]
        exact if_pos h
      | none =>
        rw [absorb?_object_of_fields?_eq_none hg]
        exact if_pos h
    | _ => rw [absorb?_of_fields?_eq_none rfl, if_pos h]
  rw [withFallback, this]
  rfl

/-- **The four things that merging can do**, for trees whose keys come once.  What is proved
for each of them holds of every merge. -/
theorem withFallback_cases {manner : Manner} {motive : Value → Value → Value → Prop}
    (self : ∀ v w, v.ignoresFallbacks = true → motive v w v)
    (fields : ∀ p q p' c own other fs, (p' = p ∧ fs = own ∧ c = false ∨ p'.mark = none) →
      (∀ t ∈ p'.origin.comments, t ∈ p.origin.comments ∨ t ∈ q.origin.comments) →
      (Entries.keys own).Nodup → (Entries.keys other).Nodup → (Entries.keys fs).Nodup →
      (∀ k, Entries.get? fs k = Entries.overlay (Entries.get? own k) (Entries.get? other k)) →
      (∀ k a b, Entries.get? own k = some a → Entries.get? other k = some b →
        motive a b (a.withFallback b)) →
      motive (object p false own) (object q c other) (object p' c fs))
    (closing : ∀ p own w, w.fields? = none → w.isPending = false → fieldsResolved own = true →
      motive (object p false own) w (object { origin := p.origin } true own))
    (waiting : ∀ v w, v.ignoresFallbacks = false → (v.fields? = none ∨ w.fields? = none) →
      (w.isPending = true ∨ v.isResolved = false) → motive v w (stack v (v.layers ++ w.layers)))
    {v w : Value} (hv : v.WellFormed manner) (hw : w.WellFormed manner) :
    motive v w (v.withFallback w) := by
  induction v using parts_induction generalizing w with
  | node v ih =>
    by_cases ignores : v.ignoresFallbacks = true
    · rw [withFallback_of_ignoresFallbacks ignores]
      exact self v w ignores
    have ignores' : v.ignoresFallbacks = false := by simpa using ignores
    cases hf : v.fields? with
    | none =>
      -- what is put underneath is one layer, or the layers of a merge
      have : v.withFallback w = stack v (v.layers ++ w.layers) := by
        rw [withFallback, absorb?_of_fields?_eq_none hf, if_neg ignores]
        split
        · rfl
        · next hp =>
          rw [show w.layers = [w] by cases w <;> first | rfl | simp [isPending] at hp]
          rfl
      rw [this]
      refine waiting v w ignores' (.inl hf) (.inr ?_)
      cases v with
      | list p xs => exact ignores'
      | object => cases hf
      | reference | concat | merge => rfl
      | _ => cases ignores'
    | some own =>
      obtain ⟨p, c, rfl⟩ := eq_object_of_fields? hf
      cases (show c = false from ignores')
      cases hg : w.fields? with
      | some other =>
        obtain ⟨q, c, rfl⟩ := eq_object_of_fields? hg
        obtain ⟨p', fs, eq, prov, lines, nodup, get⟩ := withFallback_object hv.nodup hw.nodup p q c
        rw [eq]
        refine fields p q p' c own other fs prov lines hv.nodup hw.nodup nodup get
          fun k a b ha hb => ?_
        exact ih a (mem_parts_of_mem_fields (Entries.mem_of_get? ha)) (hv.field ha) (hw.field hb)
      | none =>
        -- an object over something else waits for it, or is closed by it
        rw [withFallback, absorb?_object_of_fields?_eq_none hg]
        simp only [Bool.false_eq_true, if_false]
        split
        · next hp => exact waiting _ w ignores' (.inr hg) (.inl hp)
        · next hp =>
          have layers : w.layers = [w] := by
            cases w <;> first | rfl | simp [isPending] at hp
          split
          · next hr => exact closing p own w hg (by simpa using hp) hr
          · next hr =>
            have := waiting _ w ignores' (.inr hg) (.inr (by simpa using hr))
            rwa [layers] at this

/-- Merging keeps trees well formed. -/
theorem WellFormed.withFallback {manner : Manner} {v w : Value} (hv : v.WellFormed manner)
    (hw : w.WellFormed manner) : (v.withFallback w).WellFormed manner := by
  have := withFallback_cases
    (motive := fun v w u => v.WellFormed manner → w.WellFormed manner → u.WellFormed manner)
    ?self ?fields ?closing ?waiting hv hw
  · exact this hv hw
  case self => exact fun v w _ hv _ => hv
  case fields =>
    intro p q p' c own other fs _ lines _ _ nodup get merged hv hw
    refine .object (fun t ht => (lines t ht).elim (hv.lines t) (hw.lines t)) c nodup
      fun k u hu => ?_
    rcases Entries.overlay_cases ((get k).symm.trans (Entries.get?_of_mem nodup hu))
      with ha | hb | ⟨a, b, ha, hb, rfl⟩
    · exact hv.field ha
    · exact hw.field hb
    · exact merged k a b ha hb (hv.field ha) (hw.field hb)
  case closing =>
    intro p own w _ _ _ hv _
    exact .object (p := ⟨p.origin, none⟩) hv.lines true hv.nodup
      fun k u hu => hv.parts u (mem_parts_of_mem_fields hu)
  case waiting =>
    intro v w open_ waits _ hv hw
    refine .merge (fun t ht => ?_) (hv.stack hw open_ waits) fun l hl => ?_
    · obtain ⟨l, hl, ht⟩ := mem_comments_mergedOrigin ht
      exact (List.mem_append.1 hl).elim (fun hl => (hv.layers l hl).lines t ht)
        fun hl => (hw.layers l hl).lines t ht
    · exact (List.mem_append.1 hl).elim (hv.layers l) (hw.layers l)

end Value

end Hocon
