import Hocon.Proofs.Content

/-!
# Merges without clashes

An object over something that is no object is closed, and whether that happens shows only when
both are resolved.  A lookup that resolves less of them may therefore see something else than the
whole resolution.  In a calm tree (`Value.Calm`) no merge comes to such a clash.  Merging keeps
trees calm, and looking through a calm tree that is resolved along a path sees what the tree holds
there (`Value.peekThrough_of_calm`).
-/

namespace Hocon

namespace Content

/-- Nowhere does an open object of the one come to lie on something of the other that is no
object. -/
def RestsOn : Content → Content → Prop
  | fields false f, fields _ g => ∀ key, (f key).RestsOn (g key)
  | fields false _, b => b = absent
  | _, _ => True

/-- Contents rest on each other, put under `top` one after the other. -/
def Piled : Content → List Content → Prop
  | _, [] => True
  | top, c :: cs => top.RestsOn c ∧ Piled (top.upon c) cs

@[simp] theorem absent_restsOn (b : Content) : absent.RestsOn b := trivial

@[simp] theorem restsOn_absent (a : Content) : a.RestsOn absent := by
  cases a with
  | fields c f =>
    cases c with
    | true => trivial
    | false => exact rfl
  | _ => trivial

/-- What is no object bears no open object. -/
theorem not_restsOn {b : Content} (present : b ≠ absent) (h : b.isFields = false)
    (f : String → Content) : ¬ (fields false f).RestsOn b := by
  cases b with
  | absent => exact absurd rfl present
  | fields => cases h
  | _ => nofun

/-- It does not matter which of the contents are put on each other first. -/
theorem restsOn_upon : (a b c : Content) → a.RestsOn (b.upon c) → b.RestsOn c →
    a.RestsOn b ∧ (a.upon b).RestsOn c
  | fields false f, b, c, h, hbc => by
    cases b with
    | absent => exact ⟨restsOn_absent _, h⟩
    | fields d g =>
      cases d with
      | true => exact ⟨h, trivial⟩
      | false =>
        cases c with
        | absent => exact ⟨h, restsOn_absent _⟩
        | fields e k =>
          have each (key : String) := restsOn_upon (f key) (g key) (k key) (h key) (hbc key)
          exact ⟨fun key => (each key).1, fun key => (each key).2⟩
        | _ => cases hbc
    | _ => cases h
  | fields true _, _, _, _, _ => ⟨trivial, trivial⟩
  | absent, _, _, _, hbc => ⟨trivial, hbc⟩
  | null, _, _, _, _ => ⟨trivial, trivial⟩
  | bool _, _, _, _, _ => ⟨trivial, trivial⟩
  | number _ _, _, _, _, _ => ⟨trivial, trivial⟩
  | text _ _, _, _, _, _ => ⟨trivial, trivial⟩
  | items _, _, _, _, _ => ⟨trivial, trivial⟩

/-- What rests on a whole pile rests on its parts. -/
theorem piled_of_restsOn {a b : Content} {cs : List Content}
    (h : a.RestsOn (b.upon (cs.foldr upon absent))) (pile : Piled b cs) :
    a.RestsOn b ∧ Piled (a.upon b) cs := by
  induction cs generalizing b with
  | nil => exact ⟨upon_absent b ▸ h, trivial⟩
  | cons c cs ih =>
    rw [List.foldr_cons, ← upon_assoc] at h
    obtain ⟨upper, lower⟩ := ih h pile.2
    obtain ⟨ab, abc⟩ := restsOn_upon a b c upper pile.1
    exact ⟨ab, abc, upon_assoc a b c ▸ lower⟩

theorem piled_append {a : Content} {xs ys : List Content} (hx : Piled a xs)
    (hy : Piled (a.upon (xs.foldr upon absent)) ys) : Piled a (xs ++ ys) := by
  induction xs generalizing a with
  | nil => exact upon_absent a ▸ hy
  | cons x xs ih =>
    rw [List.foldr_cons, ← upon_assoc] at hy
    exact ⟨hx.1, ih hx.2 hy⟩

end Content

namespace Value

variable {known : List String → Content} {manner : Manner} {u v w : Value}

/-- No merge in the tree comes to an open object over something that is no object. -/
def Calm (known : List String → Content) (v : Value) : Prop :=
  ∀ m : Value, m.Within v → m.isMerge = true → Content.Piled .absent (m.layers.map (content known))

namespace Calm

theorem parts (h : Calm known v) : ∀ u ∈ v.parts, Calm known u :=
  fun _ hu m hm => h m (.part hm hu)

theorem of_parts (parts : ∀ u ∈ v.parts, Calm known u)
    (here : v.isMerge = true → Content.Piled .absent (v.layers.map (content known))) :
    Calm known v := by
  intro m hm isMerge
  cases hm with
  | self => exact here isMerge
  | part hm hu => exact parts _ hu m hm isMerge

/-- What is resolved holds no merge. -/
theorem of_isResolved (h : v.isResolved = true) : Calm known v := by
  induction v using parts_induction with
  | node v ih =>
    obtain ⟨pending, parts⟩ := isResolved_iff.1 h
    refine of_parts (fun u hu => ih u hu (parts u hu)) fun isMerge => ?_
    cases v with
    | merge => cases pending
    | _ => cases isMerge

theorem layers (h : Calm known v) : ∀ l ∈ v.layers, Calm known l := by
  cases v with
  | merge p k ls => exact h.parts
  | _ => exact List.forall_mem_singleton.2 h

/-- The layers that a value stands for are piled. -/
theorem piled (h : Calm known v) : Content.Piled .absent (v.layers.map (content known)) := by
  cases hm : v.isMerge with
  | true => exact h v .self hm
  | false =>
    cases v with
    | merge => cases hm
    | _ => exact ⟨trivial, trivial⟩

theorem field {p : Provenance} {c : Bool} {fs : Entries Value} (h : Calm known (.object p c fs))
    {k : String} (hu : Entries.get? fs k = some u) : Calm known u :=
  h.parts u (mem_parts_of_mem_fields (Entries.mem_of_get? hu))

theorem ofFields {p : Provenance} {c : Bool} {fs : Entries Value}
    (fields : ∀ k u, (k, u) ∈ fs → Calm known u) : Calm known (.object p c fs) := by
  refine of_parts (fun u hu => ?_) nofun
  obtain ⟨f, hf, rfl⟩ := List.mem_map.1 hu
  exact fields f.1 f.2 hf

theorem peek? {keys : List String} (h : Calm known v) (hu : v.peek? keys = some u) :
    Calm known u :=
  fun m hm => h m (hm.trans (within_of_peek? hu))

/-- Merging what rests on each other makes no clash. -/
theorem withFallback (hv : Calm known v) (hw : Calm known w) (wv : v.WellFormed manner)
    (ww : w.WellFormed manner) (rests : (v.content known).RestsOn (w.content known)) :
    Calm known (v.withFallback w) := by
  refine withFallback_cases (motive := fun v w u => Calm known v → Calm known w →
    (v.content known).RestsOn (w.content known) → Calm known u)
    ?self ?fields ?closing ?waiting wv ww hv hw rests
  case self => exact fun v w _ hv _ _ => hv
  case fields =>
    intro p q p' c own other fs _ _ _ _ nodup get merged hv hw rests
    refine ofFields fun k u hu => ?_
    rcases Entries.overlay_cases ((get k).symm.trans (Entries.get?_of_mem nodup hu))
      with ha | hb | ⟨a, b, ha, hb, rfl⟩
    · exact hv.field ha
    · exact hw.field hb
    · refine merged k a b ha hb (hv.field ha) (hw.field hb) ?_
      have rests := rests k
      rwa [contentOfFields_eq, contentOfFields_eq, ha, hb] at rests
  case closing =>
    intro p own w _ _ _ hv _ _
    exact ofFields fun k u hu => hv.parts u (mem_parts_of_mem_fields hu)
  case waiting =>
    intro v w _ _ _ hv hw rests
    refine of_parts (fun l hl => (List.mem_append.1 hl).elim (hv.layers l) (hw.layers l)) fun _ => ?_
    -- the lower layers come to lie under the whole of the upper ones
    show Content.Piled .absent ((v.layers ++ w.layers).map (content known))
    rw [List.map_append]
    refine Content.piled_append hv.piled ?_
    rw [Content.absent_upon, ← contentOfLayers_eq, contentOfLayers_layers]
    rw [← contentOfLayers_layers w, contentOfLayers_eq] at rests
    have := (Content.piled_of_restsOn (b := .absent) rests hw.piled).2
    rwa [Content.upon_absent] at this

/-- Neither marks nor the order of fields matter. -/
theorem alike (h : Calm known v) (wf : v.WellFormed manner) (like : v.Alike w) : Calm known w := by
  intro m hm isMerge
  obtain ⟨x, hx, like⟩ := like.exists_within wf hm
  cases like with
  | merge _ k length layers =>
    rw [Value.layers, map_content_eq length fun i x y hx hy => (layers i x y hx hy).content_eq]
    exact h _ hx rfl
  | _ => cases isMerge

end Calm

/-! ### Looking through -/

/-- Below an open object there is no other thing. -/
theorem forall_object_of_piled {f : String → Content} {ls : List Value}
    (piled : Content.Piled (.fields false f) (ls.map (content known)))
    (lasting : ls.Pairwise fun l _ => l.isClosed = false)
    (free : ∀ l ∈ ls, l.isPending = false) : ∀ l ∈ ls, l.fields?.isSome = true := by
  induction ls generalizing f with
  | nil => exact List.forall_mem_nil _
  | cons l ls ih =>
    obtain ⟨pending, rest⟩ := List.forall_mem_cons.1 free
    obtain ⟨closed, lasts⟩ := List.pairwise_cons.1 lasting
    obtain ⟨rests, below⟩ := piled
    cases hf : l.fields? with
    | none =>
      have isFields : (l.content known).isFields = false := by
        rw [isFields_content pending, hf]
        rfl
      exact absurd rests (Content.not_restsOn (content_ne_absent pending) isFields f)
    | some gs =>
      obtain ⟨p, c, rfl⟩ := eq_object_of_fields? hf
      refine List.forall_mem_cons.2 ⟨rfl, fun x hx => ?_⟩
      cases (show c = false from closed x hx)
      exact ih below lasts rest x hx

/-- A merge of which no layer waits has something else than an object on top. -/
theorem fields?_head_of_piled {l : Value} {ls : List Value} {k : MergeKind}
    (stacked : Stacked k (l :: ls))
    (piled : Content.Piled .absent ((l :: ls).map (content known)))
    (free : ∀ x ∈ l :: ls, x.isPending = false) : l.fields? = none := by
  cases hf : l.fields? with
  | none => rfl
  | some fs =>
    obtain ⟨p, c, rfl⟩ := eq_object_of_fields? hf
    obtain ⟨x, hx, waits⟩ := stacked.waits
    rcases List.mem_cons.1 hx with rfl | below
    · cases waits
    obtain ⟨closed, lasts⟩ := List.pairwise_cons.1 stacked.lasting
    cases (show c = false from closed x below)
    have := forall_object_of_piled piled.2 lasts (List.forall_mem_cons.1 free).2 x below
    rw [waits] at this
    cases this

variable {along : Option Path} {path : Path}

/-- In a calm tree that is resolved along a path, only objects have fields. -/
theorem isFields_of_settled (wf : v.WellFormed manner) (calm : Calm known v)
    (settled : Settled (some path) v) (h : v.fields? = none) :
    (v.content known).isFields = false ∧ v.isObjectValued = false := by
  cases wf with
  | object => cases h
  | reference | concat =>
    cases settled with
    | resolved h => cases h
  | @merge p _ k ls stacked layers =>
    obtain ⟨l, ls, rfl⟩ := List.exists_cons_of_ne_nil (List.ne_nil_of_mem stacked.waits.choose_spec.1)
    have free (x : Value) (hx : x ∈ l :: ls) : x.isPending = false := (settled.layers x hx).1
    have pending := free l List.mem_cons_self
    -- the layer on top is no object, and hides the others
    have top := fields?_head_of_piled stacked calm.piled free
    have notObject : (l.content known).isFields = false := by rw [isFields_content pending, top]; rfl
    constructor
    · rw [content, contentOfLayers, Content.upon_of_isFields (content_ne_absent pending) notObject]
      exact notObject
    · have kind := stacked.kind l rfl
      rw [if_neg] at kind
      · rw [kind]
        rfl
      · cases l <;> simp [fields?, isPending, isObjectValued] at *
  | _ => exact ⟨rfl, rfl⟩

/-- One step down: what is found is resolved along the rest of the path. -/
theorem peekFirst_of_calm (wf : v.WellFormed manner) (calm : Calm known v)
    (settled : Settled (some path) v) :
    v.peekFirst path = .ok (v.peek? [path.first])
      ∧ ((v.peek? [path.first]).map (content known)).getD .absent
        = (v.content known).field path.first
      ∧ ∀ u, v.peek? [path.first] = some u → u.WellFormed manner ∧ Calm known u
        ∧ ∀ rest, path.remainder? = some rest → Settled (some rest) u := by
  cases hf : v.fields? with
  | none =>
    obtain ⟨isFields, kind⟩ := isFields_of_settled wf calm settled hf
    have nothing := peek?_of_fields?_eq_none hf path.first []
    rw [nothing, Content.field_of_isFields isFields]
    refine ⟨?_, rfl, nofun⟩
    cases v with
    | object => cases hf
    | merge p k ls =>
      cases k with
      | object => cases kind
      | value => rfl
    | _ => rfl
  | some fs =>
    obtain ⟨p, c, rfl⟩ := eq_object_of_fields? hf
    rw [peek?_object_singleton]
    refine ⟨rfl, (contentOfFields_eq fs path.first).symm, fun u hu => ?_⟩
    refine ⟨wf.field hu, calm.field hu, fun rest hr => settled.field (Entries.mem_of_get? hu) ?_⟩
    rw [Resolution.alongField, if_pos rfl, hr]
    rfl

/-- **Looking through** a calm tree that is resolved along the path goes through objects only, and
sees what the tree holds. -/
theorem peekThrough_of_calm (wf : v.WellFormed manner) (calm : Calm known v)
    (settled : Settled (some path) v) :
    v.peekThrough path.first path.rest = .ok (v.peek? path.keys)
      ∧ ((v.peek? path.keys).map (content known)).getD .absent
        = (v.content known).peek path.keys := by
  obtain ⟨first, rest⟩ := path
  induction rest generalizing first v with
  | nil =>
    obtain ⟨found, holds, -⟩ := peekFirst_of_calm wf calm settled
    exact ⟨found, holds⟩
  | cons next rest ih =>
    obtain ⟨found, holds, below⟩ := peekFirst_of_calm wf calm settled
    rw [Path.keys, peek?_cons, peekThrough, found, Content.peek_cons, ← holds]
    simp only [bind, Except.bind]
    cases hu : v.peek? [first] with
    | none => exact ⟨rfl, (Content.peek_absent _).symm⟩
    | some u =>
      obtain ⟨wf, calm, settled⟩ := below u hu
      have settled := settled ⟨next, rest⟩ rfl
      simp only [Option.bind_some, Option.map_some, Option.getD_some]
      cases hf : u.fields? with
      | some fs =>
        obtain ⟨p, c, rfl⟩ := eq_object_of_fields? hf
        exact ih wf calm next settled
      | none =>
        obtain ⟨isFields, kind⟩ := isFields_of_settled wf calm settled hf
        have nothing := peek?_of_fields?_eq_none hf next rest
        rw [kind, nothing, Content.peek_cons, Content.field_of_isFields isFields]
        exact ⟨rfl, (Content.peek_absent _).symm⟩

end Value

end Hocon
