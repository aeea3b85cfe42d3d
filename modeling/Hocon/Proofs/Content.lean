import Hocon.Proofs.Settled

/-!
# What a tree holds

`Value.content` is what a tree holds once its references are known, apart from origins, marks and
the order of keys.  It takes the contents that references have as given, so it is defined by
recursion on the tree alone and knows nothing of lookups, cycles and memory.  Contents are put
over each other as trees are merged, and this is associative (`Content.upon_assoc`), so it does
not matter in which groups layers are merged (`Value.content_withFallback`).
-/

namespace Hocon

/-- What a resolved tree holds; an object is its fields by their keys. -/
inductive Content where
  | absent
  | null
  | bool (b : Bool)
  | number (n : Number) (spelling : Option String)
  | text (s : String) (quoted : Bool)
  | items (xs : List Content)
  /-- A closed object takes nothing from what is below it. -/
  | fields (closed : Bool) (get : String → Content)

namespace Content

/-- What there is at a key. -/
def field : Content → String → Content
  | fields _ f, key => f key
  | _, _ => absent

/-- What there is at a path. -/
def peek (c : Content) (keys : List String) : Content := keys.foldl field c

def isAbsent : Content → Bool
  | absent => true
  | _ => false

@[simp] theorem peek_cons (c : Content) (key : String) (keys : List String) :
    c.peek (key :: keys) = (c.field key).peek keys := rfl

@[simp] theorem peek_absent (keys : List String) : absent.peek keys = absent := by
  induction keys with
  | nil => rfl
  | cons key keys ih => exact ih

def isFields : Content → Bool
  | fields _ _ => true
  | _ => false

/-- `a.upon b` is what `a` becomes on top of `b`. -/
def upon : Content → Content → Content
  | absent, b => b
  | fields false f, b =>
    match b with
    | absent => fields false f
    | fields c g => fields c fun key => (f key).upon (g key)
    | _ => fields true f
  | a, _ => a

@[simp] theorem absent_upon (b : Content) : absent.upon b = b := rfl

@[simp] theorem upon_absent (a : Content) : a.upon absent = a := by
  cases a with
  | fields c f => cases c <;> rfl
  | _ => rfl

@[simp] theorem fields_upon_fields (f g : String → Content) (c : Bool) :
    (fields false f).upon (fields c g) = fields c fun key => (f key).upon (g key) := rfl

/-- There is nothing in what is no object. -/
theorem field_of_isFields {c : Content} (h : c.isFields = false) (key : String) :
    c.field key = absent := by
  cases c <;> first | rfl | cases h

theorem isAbsent_iff {c : Content} : c.isAbsent = true ↔ c = absent := by
  cases c <;> simp [isAbsent]

theorem upon_ne_absent {a : Content} (h : a ≠ absent) (b : Content) : a.upon b ≠ absent := by
  cases a with
  | absent => exact absurd rfl h
  | fields c f =>
    cases c with
    | true => nofun
    | false => cases b <;> nofun
  | _ => nofun

/-- Anything but an open object hides what is below. -/
theorem upon_of_isFields {a : Content} (present : a ≠ absent) (h : a.isFields = false)
    (b : Content) : a.upon b = a := by
  cases a with
  | absent => exact absurd rfl present
  | fields => cases h
  | _ => rfl

/-- An open object over anything but an object is closed. -/
theorem fields_upon {b : Content} (present : b ≠ absent) (h : b.isFields = false)
    (f : String → Content) : (fields false f).upon b = fields true f := by
  cases b with
  | absent => exact absurd rfl present
  | fields => cases h
  | _ => rfl

/-- It does not matter which neighbours are put over each other first. -/
theorem upon_assoc : (a b c : Content) → (a.upon b).upon c = a.upon (b.upon c)
  | fields true _, _, _ => rfl
  | fields false f, b, c => by
    cases b with
    | fields closed g =>
      cases closed with
      | true => rfl
      | false =>
        cases c with
        | fields closed h =>
          simp only [fields_upon_fields]
          exact congrArg (fields closed) (funext fun key => upon_assoc (f key) (g key) (h key))
        | _ => rfl
    | _ => rfl
  | absent, _, _ => rfl
  | null, _, _ => rfl
  | bool _, _, _ => rfl
  | number _ _, _, _ => rfl
  | text _ _, _, _ => rfl
  | items _, _, _ => rfl

/-- The first of the contents that are present. -/
def firstOf : List Content → Content
  | [] => absent
  | c :: cs => if c.isAbsent then firstOf cs else c

theorem firstOf_eq_absent_iff {cs : List Content} :
    firstOf cs = absent ↔ ∀ c ∈ cs, c = absent := by
  induction cs with
  | nil => exact iff_of_true rfl (List.forall_mem_nil _)
  | cons c cs ih =>
    rw [firstOf, List.forall_mem_cons, ← ih]
    split
    · next h => exact (and_iff_right (isAbsent_iff.1 h)).symm
    · next h =>
      have present : c ≠ absent := fun e => h (isAbsent_iff.2 e)
      exact iff_of_false present fun h => present h.1

/-! ### Neighbours that are joined -/

/-- The text that a piece contributes to a joined text. -/
def joinText? : Content → Option String
  | null => some ""
  | bool b => some (if b then "true" else "false")
  | number n t => some (t.getD n.toText)
  | text s _ => some s
  | _ => none

/-- Text without quotes and of blanks only. -/
def isBlankText : Content → Bool
  | text s false => s.toList.all Text.isBlank
  | _ => false

def isContainer : Content → Bool
  | fields _ _ => true
  | items _ => true
  | _ => false

/-- Two neighbours as one; nothing if they cannot be joined. -/
def joinTwo : Content → Content → Option Content
  | fields c f, fields d g => some ((fields d g).upon (fields c f))
  | items xs, items ys => some (items (xs ++ ys))
  | a, b =>
    if a.isContainer && b.isBlankText then some a
    else
      match a.joinText?, b.joinText? with
      | some s, some t => some (text (s ++ t) true)
      | _, _ => none

/-- Pieces as one, the ones that are absent left out. -/
def joinAll : List Content → Option Content
  | [] => some absent
  | c :: cs => cs.foldlM joinTwo c

theorem joinTwo_of_isContainer {a : Content} (h : a.isContainer = true) (t : String)
    (quoted : Bool) :
    joinTwo a (text t quoted) = if (text t quoted).isBlankText then some a else none := by
  cases a with
  | fields | items =>
    rw [joinTwo]
    · rfl
    · nofun
    · nofun
  | _ => cases h

theorem joinTwo_ne_absent (a b : Content) : joinTwo a b ≠ some absent := by
  rw [joinTwo.eq_def]
  split
  · exact fun h => upon_ne_absent (by nofun) _ (Option.some.inj h)
  · nofun
  · split
    · next h =>
      intro e
      cases Option.some.inj e
      cases h
    · split <;> nofun

theorem foldlM_joinTwo_ne_absent {a : Content} (present : a ≠ absent) (cs : List Content) :
    cs.foldlM joinTwo a ≠ some absent := by
  induction cs generalizing a with
  | nil => exact fun h => present (Option.some.inj h)
  | cons c cs ih =>
    rw [List.foldlM_cons]
    cases hj : joinTwo a c with
    | none => nofun
    | some d => exact ih fun e => joinTwo_ne_absent a c (e ▸ hj)

end Content

namespace Value

/-! ### The content of a tree -/

mutual

/-- What the tree holds where references hold what `known` says at the first of their paths that
is known. -/
def content (known : List String → Content) : Value → Content
  | null _ => .null
  | bool _ b => .bool b
  | number _ n t => .number n t
  | string _ t quoted => .text t quoted
  | object _ closed fs => .fields closed (contentOfFields known fs)
  | list _ xs => .items (contentsOf known xs)
  | reference _ r => .firstOf (r.paths.map fun path => known path.keys)
  | concat _ ps => (Content.joinAll (contentsOf known ps)).getD .absent
  | merge _ _ ls => contentOfLayers known ls

def contentOfFields (known : List String → Content) : Entries Value → String → Content
  | [], _ => .absent
  | (k, v) :: fs, key => if k = key then v.content known else contentOfFields known fs key

/-- The contents of values in a row; what is absent leaves no gap. -/
def contentsOf (known : List String → Content) : List Value → List Content
  | [] => []
  | v :: vs =>
    if (v.content known).isAbsent then contentsOf known vs
    else v.content known :: contentsOf known vs

def contentOfLayers (known : List String → Content) : List Value → Content
  | [] => .absent
  | v :: vs => (v.content known).upon (contentOfLayers known vs)

end

variable {known : List String → Content} {v w : Value}

theorem contentOfFields_eq (fs : Entries Value) (key : String) :
    contentOfFields known fs key = ((Entries.get? fs key).map (content known)).getD .absent := by
  induction fs with
  | nil => rfl
  | cons f fs ih =>
    rw [contentOfFields, Entries.get?]
    split
    · rfl
    · exact ih

theorem contentsOf_eq (xs : List Value) :
    contentsOf known xs = (xs.map (content known)).filter fun c => !c.isAbsent := by
  induction xs with
  | nil => rfl
  | cons x xs ih =>
    rw [contentsOf, List.map_cons, List.filter_cons, ih]
    cases (x.content known).isAbsent <;> rfl

theorem contentOfLayers_eq (xs : List Value) :
    contentOfLayers known xs = (xs.map (content known)).foldr Content.upon .absent := by
  induction xs with
  | nil => rfl
  | cons x xs ih => rw [contentOfLayers, List.map_cons, List.foldr_cons, ih]

theorem contentOfLayers_append (xs ys : List Value) :
    contentOfLayers known (xs ++ ys)
      = (contentOfLayers known xs).upon (contentOfLayers known ys) := by
  induction xs with
  | nil => rfl
  | cons x xs ih => rw [List.cons_append, contentOfLayers, ih, contentOfLayers, Content.upon_assoc]

theorem contentOfLayers_layers (v : Value) :
    contentOfLayers known v.layers = v.content known := by
  cases v with
  | merge p k ls => rfl
  | _ => exact Content.upon_absent _

/-- Only what waits may come to nothing. -/
theorem content_ne_absent (h : v.isPending = false) : v.content known ≠ .absent := by
  cases v <;> simp [content, isPending] at *

/-- Resolved items leave no gap. -/
theorem contentsOf_of_itemsResolved {xs : List Value} (h : itemsResolved xs = true) :
    contentsOf known xs = xs.map (content known) := by
  rw [contentsOf_eq, List.filter_eq_self]
  intro c hc
  obtain ⟨x, hx, rfl⟩ := List.mem_map.1 hc
  have present : x.content known ≠ .absent :=
    content_ne_absent (isPending_of_isResolved (itemsResolved_iff.1 h x hx))
  cases hc : (x.content known).isAbsent with
  | true => exact absurd (Content.isAbsent_iff.1 hc) present
  | false => rfl

theorem isFields_content (h : v.isPending = false) :
    (v.content known).isFields = v.fields?.isSome := by
  cases v <;> simp [content, isPending, Content.isFields, fields?] at *

theorem map_content_eq {xs ys : List Value} (length : xs.length = ys.length)
    (h : ∀ (i : Nat) x y, xs[i]? = some x → ys[i]? = some y →
      y.content known = x.content known) :
    ys.map (content known) = xs.map (content known) := by
  refine List.ext_getElem? fun i => ?_
  rw [List.getElem?_map, List.getElem?_map]
  cases hx : xs[i]? with
  | none => rw [List.getElem?_eq_none (length ▸ List.getElem?_eq_none_iff.1 hx)]
  | some x =>
    obtain ⟨y, hy⟩ := Alike.exists_getElem? length hx
    rw [hy, Option.map_some, Option.map_some, h i x y hx hy]

/-- Neither marks nor the order of fields matter. -/
theorem Alike.content_eq (h : v.Alike w) : w.content known = v.content known := by
  induction h with
  | object _ c keys _ ih =>
    refine congrArg (Content.fields c) (funext fun key => ?_)
    rw [contentOfFields_eq, contentOfFields_eq]
    rename_i fs gs _
    cases hv : Entries.get? fs key with
    | none =>
      rw [Entries.get?_eq_none_iff, keys.mem_iff] at hv
      rw [Entries.get?_eq_none_iff.2 hv]
    | some v =>
      obtain ⟨w, hw⟩ := Entries.exists_get?_of_mem_keys
        (keys.mem_iff.1 (Entries.mem_keys_of_get? hv))
      rw [hw, Option.map_some, Option.map_some, ih key v w hv hw]
  | list _ length _ ih =>
    show Content.items (contentsOf known _) = .items (contentsOf known _)
    rw [contentsOf_eq, contentsOf_eq, map_content_eq length ih]
  | concat _ length _ ih =>
    show (Content.joinAll (contentsOf known _)).getD .absent
      = (Content.joinAll (contentsOf known _)).getD .absent
    rw [contentsOf_eq, contentsOf_eq, map_content_eq length ih]
  | merge _ k length _ ih =>
    show contentOfLayers known _ = contentOfLayers known _
    rw [contentOfLayers_eq, contentOfLayers_eq, map_content_eq length ih]
  | _ => rfl

/-! ### Merging -/

/-- What ignores fallbacks keeps its content over anything. -/
theorem content_upon_of_ignoresFallbacks (h : v.ignoresFallbacks = true) (c : Content) :
    (v.content known).upon c = v.content known := by
  induction v using parts_induction with
  | node v ih =>
    cases v with
    | object p closed fs =>
      cases (show closed = true from h)
      rfl
    | merge p k ls =>
      replace h : lastIgnoresFallbacks ls = true := h
      show (contentOfLayers known ls).upon c = contentOfLayers known ls
      -- the last layer alone decides
      induction ls with
      | nil => cases h
      | cons l ls below =>
        cases ls with
        | nil =>
          rw [contentOfLayers, contentOfLayers, Content.upon_absent]
          exact ih l List.mem_cons_self h
        | cons l' ls =>
          rw [contentOfLayers, Content.upon_assoc]
          exact congrArg _ (below (fun u hu => ih u (List.mem_cons_of_mem _ hu)) h)
    | reference | concat => cases h
    | _ => rfl

/-- Merging puts contents over each other. -/
theorem content_withFallback {manner : Manner} (hv : v.WellFormed manner)
    (hw : w.WellFormed manner) :
    (v.withFallback w).content known = (v.content known).upon (w.content known) := by
  refine withFallback_cases (motive := fun v w u =>
    u.content known = (v.content known).upon (w.content known))
    ?self ?fields ?closing ?waiting hv hw
  case self => exact fun v w h => (content_upon_of_ignoresFallbacks h _).symm
  case fields =>
    intro p q p' c own other fs _ _ _ _ _ get merged
    show Content.fields c (contentOfFields known fs) = .fields c fun key =>
      (contentOfFields known own key).upon (contentOfFields known other key)
    -- key by key: one side alone, or both merged
    refine congrArg _ (funext fun key => ?_)
    rw [contentOfFields_eq, contentOfFields_eq, contentOfFields_eq, get]
    cases ha : Entries.get? own key with
    | none => rfl
    | some a =>
      cases hb : Entries.get? other key with
      | none => exact (Content.upon_absent _).symm
      | some b => exact merged key a b ha hb
  case closing =>
    intro p own w notObject notPending _
    refine (Content.fields_upon (content_ne_absent notPending) ?_ _).symm
    rw [isFields_content notPending, notObject]
    rfl
  case waiting =>
    intro v w _ _ _
    show contentOfLayers known (v.layers ++ w.layers) = _
    rw [contentOfLayers_append, contentOfLayers_layers, contentOfLayers_layers]

/-! ### Joining -/

theorem isBlankText_content (h : v.isPending = false) :
    (v.content known).isBlankText = v.isBlankText := by
  cases v with
  | string p t quoted => cases quoted <;> rfl
  | _ => simp [content, isPending, Content.isBlankText, isBlankText] at *

/-- Text behind a container counts only for separating. -/
theorem join?_of_container (h : v.isObjectValued = true ∨ v.items?.isSome = true)
    (pv : v.isPending = false) (p : Provenance) (t : String) (quoted : Bool) :
    join? true v (string p t quoted) = if (string p t quoted).isBlankText then .ok (some v)
      else .error (.wrongType v.origin (.cannotJoin v (string p t quoted))) := by
  cases v with
  | object | list =>
    cases hb : (string p t quoted).isBlankText <;>
    simp [join?, hb, isObjectValued, items?, joinText?, isNull, scalarText?, isPending]
  | merge => cases pv
  | _ => simp [isObjectValued, items?] at h

/-- Two neighbours of which none waits become what their contents become. -/
theorem content_join? (known : List String → Content) {manner : Manner}
    (hv : v.WellFormed manner) (hw : w.WellFormed manner) (pv : v.isPending = false)
    (pw : w.isPending = false) :
    match join? true v w with
    | .ok u => ∃ x, u = some x
        ∧ Content.joinTwo (v.content known) (w.content known) = some (x.content known)
    | .error _ => Content.joinTwo (v.content known) (w.content known) = none := by
  cases w with
  | reference | concat | merge => cases pw
  | string q t quoted =>
    -- text behind an object or a list may only separate
    have container (h : v.isObjectValued = true ∨ v.items?.isSome = true)
        (hc : (v.content known).isContainer = true) :
        match join? true v (string q t quoted) with
        | .ok u => ∃ x, u = some x ∧ Content.joinTwo (v.content known)
            ((string q t quoted).content known) = some (x.content known)
        | .error _ =>
          Content.joinTwo (v.content known) ((string q t quoted).content known) = none := by
      have blank : ((string q t quoted).content known).isBlankText
          = (string q t quoted).isBlankText := isBlankText_content pw
      rw [content] at blank ⊢
      rw [join?_of_container h pv, Content.joinTwo_of_isContainer hc, blank]
      cases (string q t quoted).isBlankText
      · rfl
      · exact ⟨v, rfl, rfl⟩
    cases v with
    | reference | concat | merge => cases pv
    | object => exact container (.inl rfl) rfl
    | list => exact container (.inr rfl) rfl
    | _ => exact ⟨_, rfl, rfl⟩
  | object q d other =>
    cases v with
    | reference | concat | merge => cases pv
    | object p c own => exact ⟨_, rfl, congrArg some (content_withFallback hw hv).symm⟩
    | _ => rfl
  | list q ys =>
    cases v with
    | reference | concat | merge => cases pv
    | list p xs =>
      refine ⟨_, rfl, ?_⟩
      simp only [content, Content.joinTwo, ofItems, contentsOf_eq, List.map_append,
        List.filter_append]
    | _ => rfl
  | _ =>
    cases v with
    | reference | concat | merge => cases pv
    | object | list => rfl
    | _ => exact ⟨_, rfl, rfl⟩

/-- Neighbours of which none waits are joined to what their contents are joined to. -/
theorem content_joinOnto (known : List String → Content) {manner : Manner} {todo : List Value}
    (hv : v.WellFormed manner ∧ v.isPending = false)
    (ht : ∀ x ∈ todo, x.WellFormed manner ∧ x.isPending = false) :
    match joinOnto true [v] todo with
    | .ok ws => ∃ w, ws = [w] ∧ (todo.map (content known)).foldlM Content.joinTwo (v.content known)
        = some (w.content known)
    | .error _ =>
      (todo.map (content known)).foldlM Content.joinTwo (v.content known) = none := by
  induction todo generalizing v with
  | nil => exact ⟨v, rfl, rfl⟩
  | cons r todo ih =>
    obtain ⟨hr, ht⟩ := List.forall_mem_cons.1 ht
    have joined := content_join? known hv.1 hr.1 hv.2 hr.2
    rw [joinOnto, List.map_cons, List.foldlM_cons]
    cases hu : join? true v r with
    | error e =>
      rw [hu] at joined
      rw [joined]
      rfl
    | ok u =>
      rw [hu] at joined
      obtain ⟨x, rfl, hx⟩ := joined
      rw [hx]
      exact ih ⟨WellFormed.joinClosed.join? hv.1 hr.1 hu, isPending_of_join? hv.2 hr.2 hu⟩ ht

/-- **Joining pieces that do not wait** joins their contents. -/
theorem content_joinRun (known : List String → Content) {manner : Manner} {pieces : List Value}
    (hp : ∀ x ∈ pieces, x.WellFormed manner ∧ x.isPending = false) :
    match joinRun true pieces with
    | .ok ws => Content.joinAll (pieces.map (content known))
        = some ((ws.head?.map (content known)).getD .absent)
    | .error _ => Content.joinAll (pieces.map (content known)) = none := by
  match pieces with
  | [] => rfl
  | [v] => rfl
  | v :: w :: rest =>
    obtain ⟨hv, hrest⟩ := List.forall_mem_cons.1 hp
    have joined := content_joinOnto known hv hrest
    rw [joinRun, if_neg (by simp),
      flattenPieces_of_isPending fun x hx => (hp x hx).2, joinOnto]
    cases hj : joinOnto true [v] (w :: rest) with
    | error e =>
      rw [hj] at joined
      exact joined
    | ok ws =>
      rw [hj] at joined
      obtain ⟨u, rfl, hu⟩ := joined
      exact hu

end Value

end Hocon
