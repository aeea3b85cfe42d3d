import Hocon.Proofs.Content

/-!
# Layers of resolved trees

Where nothing waits, putting trees over each other is a monoid that repeats nothing
(`Value.withFallback_monoid`): layers may be grouped in any way, a tree over itself is itself, and
the object without fields changes nothing.  That holds of the whole trees, with the closing of
every object in them, and not only of what can be looked up.

What a pile of layers holds at a path is what the first layer says that has something to say about
it (`Value.peek?_foldl_withFallback`).  For that a layer is seen from the path alone
(`Value.sight`).  An object that came to lie on something else is closed, and a closed object hides
all below it, which is the one thing that `Value.peek?` does not see.
-/

namespace Hocon

namespace Value

variable {v w a b c : Value}

/-- A tree in which nothing waits; each key of an object comes once. -/
structure Final (v : Value) : Prop where
  wellFormed : v.WellFormed .any
  resolved : v.isResolved = true

namespace Final

theorem leaf (wf : v.WellFormed .any) (parts : v.parts = []) (free : v.isPending = false) :
    v.Final where
  wellFormed := wf
  resolved := isResolved_iff.2 ⟨free, by rw [parts]; exact List.forall_mem_nil _⟩

theorem ofFields (p : Provenance) (closed : Bool) {fs : Entries Value}
    (nodup : (Entries.keys fs).Nodup) (fields : ∀ f ∈ fs, f.2.Final) :
    (object p closed fs).Final where
  wellFormed := .object (fun _ _ => trivial) closed nodup fun k u hu => (fields (k, u) hu).wellFormed
  resolved := fieldsResolved_iff.2 fun f hf => (fields f hf).resolved

theorem field {p : Provenance} {closed : Bool} {fs : Entries Value}
    (h : (object p closed fs).Final) {k : String} {u : Value} (hu : Entries.get? fs k = some u) :
    u.Final where
  wellFormed := h.wellFormed.field hu
  resolved := (isResolved_iff.1 h.resolved).2 u (mem_parts_of_mem_fields (Entries.mem_of_get? hu))

theorem peek? {keys : List String} {u : Value} (h : v.Final) (hu : v.peek? keys = some u) :
    u.Final where
  wellFormed := h.wellFormed.within (within_of_peek? hu)
  resolved := isResolved_of_within (within_of_peek? hu) h.resolved

theorem withFallback (hv : v.Final) (hw : w.Final) : (v.withFallback w).Final where
  wellFormed := hv.wellFormed.withFallback hw.wellFormed
  resolved := ((Settled.resolved hv.resolved).withFallback hv.wellFormed hw.wellFormed
    (.resolved hw.resolved)).isResolved

/-- A tree of any manner in which nothing waits. -/
theorem of_wellFormed {manner : Manner} (wf : v.WellFormed manner) (resolved : v.isResolved = true) :
    v.Final where
  wellFormed := wf.any
  resolved := resolved

/-- What is no object hides all below it. -/
theorem ignoresFallbacks (h : v.Final) (notObject : v.fields? = none) :
    v.ignoresFallbacks = true := by
  have resolved := h.resolved
  cases v with
  | object => cases notObject
  | list p xs => exact resolved
  | reference | concat | merge => cases resolved
  | _ => rfl

end Final

/-! ### The same tree -/

/-- The same tree but for origins, marks and the order of fields; nothing in it waits. -/
inductive Same : Value → Value → Prop
  | null (p q : Provenance) : Same (null p) (null q)
  | bool (p q : Provenance) (b : Bool) : Same (bool p b) (bool q b)
  | number (p q : Provenance) (n : Number) (t : Option String) :
      Same (number p n t) (number q n t)
  | string (p q : Provenance) (t : String) (quoted : Bool) :
      Same (string p t quoted) (string q t quoted)
  | object (p q : Provenance) (closed : Bool) {fs gs : Entries Value}
      (keys : (Entries.keys fs).Perm (Entries.keys gs))
      (fields : ∀ k v w, Entries.get? fs k = some v → Entries.get? gs k = some w → Same v w) :
      Same (object p closed fs) (object q closed gs)
  | list (p q : Provenance) {xs ys : List Value} (length : xs.length = ys.length)
      (items : ∀ (i : Nat) x y, xs[i]? = some x → ys[i]? = some y → Same x y) :
      Same (list p xs) (list q ys)

variable {known : List String → Content}

/-- The content tells which keys there are. -/
theorem mem_keys_iff_content {fs : Entries Value} (h : fieldsResolved fs = true) (key : String) :
    key ∈ Entries.keys fs ↔ contentOfFields known fs key ≠ .absent := by
  rw [contentOfFields_eq]
  cases hv : Entries.get? fs key with
  | none => exact iff_of_false (Entries.get?_eq_none_iff.1 hv) fun present => present rfl
  | some v =>
    have resolved := fieldsResolved_iff.1 h _ (Entries.mem_of_get? hv)
    exact iff_of_true (Entries.mem_keys_of_get? hv)
      (content_ne_absent (isPending_of_isResolved resolved))

/-- **Resolved trees that hold the same are the same tree.** -/
theorem Final.same_of_content_eq (known : List String → Content) (hv : v.Final) (hw : w.Final)
    (h : v.content known = w.content known) : Same v w := by
  induction v using parts_induction generalizing w with
  | node v ih =>
    have parts := (isResolved_iff.1 hv.resolved).2
    have parts' := (isResolved_iff.1 hw.resolved).2
    cases v with
    | reference | concat | merge => cases hv.resolved
    | object p closed fs =>
      cases w with
      | reference | concat | merge => cases hw.resolved
      | object q closed' gs =>
        rw [content, content] at h
        obtain ⟨rfl, same⟩ := Content.fields.inj h
        -- the content tells which keys there are, and what is at each
        have keys (key : String) : key ∈ Entries.keys fs ↔ key ∈ Entries.keys gs := by
          rw [mem_keys_iff_content hv.resolved, mem_keys_iff_content hw.resolved, same]
        refine .object p q closed ?_ fun k x y hx hy => ?_
        · exact (List.perm_ext_iff_of_nodup hv.wellFormed.nodup hw.wellFormed.nodup).2 keys
        · have eq := congrFun same k
          rw [contentOfFields_eq, contentOfFields_eq, hx, hy] at eq
          exact ih x (mem_parts_of_mem_fields (Entries.mem_of_get? hx)) (hv.field hx)
            (hw.field hy) eq
      | _ => rw [content, content] at h; cases h
    | list p xs =>
      cases w with
      | reference | concat | merge => cases hw.resolved
      | list q ys =>
        rw [content, content, contentsOf_of_itemsResolved hv.resolved,
          contentsOf_of_itemsResolved hw.resolved] at h
        -- no item is absent, so there are as many on both sides
        have map := Content.items.inj h
        have length : xs.length = ys.length := by
          have := congrArg List.length map
          rwa [List.length_map, List.length_map] at this
        refine .list p q length fun i x y hx hy => ?_
        have mem := List.mem_of_getElem? hx
        have mem' := List.mem_of_getElem? hy
        refine ih x mem ⟨hv.wellFormed.parts x mem, parts x mem⟩
          ⟨hw.wellFormed.parts y mem', parts' y mem'⟩ ?_
        have eq := congrArg (·[i]?) map
        simpa only [List.getElem?_map, hx, hy, Option.map_some, Option.some.injEq] using eq
      | _ => rw [content, content] at h; cases h
    | _ =>
      cases w with
      | reference | concat | merge => cases hw.resolved
      | _ =>
        rw [content, content] at h
        cases h <;> constructor

/-! ### Repeating a layer -/

/-- Fields of which each hides what lies below stay as they are. -/
theorem absorbFields_unchanged {own other : Entries Value} (nodup : (Entries.keys own).Nodup)
    (hides : ∀ k v w, Entries.get? own k = some v → Entries.get? other k = some w →
      v.absorb? w = none) : (absorbFields own other).2 = false := by
  induction own generalizing other with
  | nil => rfl
  | cons f own ih =>
    obtain ⟨key, v⟩ := f
    simp only [Entries.keys, List.map_cons, List.nodup_cons] at nodup
    -- the other keys meet what they met before
    have rest (x : Value) (k : String) (u w : Value) (hu : Entries.get? own k = some u)
        (hw : Entries.get? (Entries.put other key x) k = some w) : u.absorb? w = none := by
      have ne : k ≠ key := by
        rintro rfl
        exact nodup.1 (Entries.mem_keys_of_get? hu)
      rw [Entries.get?_put_of_ne ne] at hw
      refine hides k u w ?_ hw
      rw [Entries.get?, if_neg (Ne.symm ne), hu]
    rw [absorbFields]
    split
    · exact ih nodup.2 (rest v)
    · next w hw =>
      rw [hides key v w (by rw [Entries.get?, if_pos rfl]) hw]
      exact ih nodup.2 (rest v)

/-- An open object over one of which it has all the keys, and whose fields it hides. -/
theorem absorb?_object_eq_none {p q : Provenance} {closed : Bool} {own other : Entries Value}
    (nodup : (Entries.keys own).Nodup) (keys : ∀ k ∈ Entries.keys other, k ∈ Entries.keys own)
    (hides : ∀ k v w, Entries.get? own k = some v → Entries.get? other k = some w →
      v.absorb? w = none) : (object p closed own).absorb? (object q false other) = none := by
  have had : (other.any fun f => !Entries.has own f.1) = false := by
    refine List.any_eq_false.2 fun f hf => ?_
    rw [Entries.has_eq_true_iff.2 (keys f.1 (List.mem_map.2 ⟨f, hf, rfl⟩))]
    exact Bool.false_ne_true
  rw [absorb?_object]
  cases closed with
  | true => rfl
  | false => simp [absorbFields_unchanged nodup hides, had]

/-- A resolved tree over itself stays as it is. -/
theorem Final.absorb?_self (h : v.Final) : v.absorb? v = none := by
  induction v using parts_induction with
  | node v ih =>
    cases hf : v.fields? with
    | none => rw [absorb?_of_fields?_eq_none hf, if_pos (h.ignoresFallbacks hf)]
    | some fs =>
      obtain ⟨p, closed, rfl⟩ := eq_object_of_fields? hf
      cases closed with
      | true => rw [absorb?_object]; rfl
      | false =>
        refine absorb?_object_eq_none h.wellFormed.nodup (fun k hk => hk) fun k u w hu hw => ?_
        cases hu.symm.trans hw
        exact ih u (mem_parts_of_mem_fields (Entries.mem_of_get? hu)) (h.field hu)

/-- **Resolved values are an idempotent monoid under fallbacks**, as trees: with the closing of
every object in them, origins and the order of fields aside. -/
theorem withFallback_monoid (ha : a.Final) (hb : b.Final) (hc : c.Final) :
    Same ((a.withFallback b).withFallback c) (a.withFallback (b.withFallback c))
      ∧ a.withFallback a = a
      ∧ (a.fields?.isSome = true → ∀ p : Provenance,
        a.withFallback (object p false []) = a
          ∧ Same ((object p false []).withFallback a) a) := by
  refine ⟨?assoc, ?idem, fun isObject p => ⟨?right, ?left⟩⟩
  case assoc =>
    have left := (ha.withFallback hb).withFallback hc
    have right := ha.withFallback (hb.withFallback hc)
    refine left.same_of_content_eq (fun _ => .absent) right ?_
    rw [content_withFallback (ha.withFallback hb).wellFormed hc.wellFormed,
      content_withFallback ha.wellFormed hb.wellFormed,
      content_withFallback ha.wellFormed (hb.withFallback hc).wellFormed,
      content_withFallback hb.wellFormed hc.wellFormed, Content.upon_assoc]
  case idem => rw [withFallback, ha.absorb?_self]; rfl
  case right =>
    obtain ⟨fs, hf⟩ := Option.isSome_iff_exists.1 isObject
    obtain ⟨q, closed, rfl⟩ := eq_object_of_fields? hf
    have nothing : (object q closed fs).absorb? (object p false []) = none :=
      absorb?_object_eq_none ha.wellFormed.nodup (List.forall_mem_nil _) fun _ _ _ _ hw => by cases hw
    rw [withFallback, nothing]
    rfl
  case left =>
    obtain ⟨fs, hf⟩ := Option.isSome_iff_exists.1 isObject
    obtain ⟨q, closed, rfl⟩ := eq_object_of_fields? hf
    have none : (Value.object p false []).Final :=
      .ofFields p false List.nodup_nil (List.forall_mem_nil _)
    refine (none.withFallback ha).same_of_content_eq (fun _ => .absent) ha ?_
    rw [content_withFallback none.wellFormed ha.wellFormed, content, content,
      Content.fields_upon_fields]
    rfl

/-- An object over a text over an object: however they are grouped, the object is closed. -/
theorem withFallback_monoid_example :
    let p : Provenance := { origin := .named "example" }
    let a := Value.object p false [("x", null p)]
    let b := Value.string p "text" true
    let c := Value.object p false [("y", null p)]
    (a.Final ∧ b.Final ∧ c.Final)
      ∧ Same ((a.withFallback b).withFallback c) (a.withFallback (b.withFallback c))
      ∧ a.withFallback a = a
      ∧ (a.fields?.isSome = true → ∀ p : Provenance,
        a.withFallback (.object p false []) = a
          ∧ Same ((Value.object p false []).withFallback a) a) := by
  intro p a b c
  have item (key : String) : (Value.object p false [(key, null p)]).Final :=
    .ofFields p false (by simp [Entries.keys])
      (List.forall_mem_singleton.2 (.leaf (.null fun _ _ => trivial) rfl rfl))
  have text : b.Final := .leaf (.string (fun _ _ => trivial) _ _) rfl rfl
  exact ⟨⟨item "x", text, item "y"⟩, withFallback_monoid (item "x") text (item "y")⟩

/-! ### Looking through layers -/

/-- What a look along a path sees of a layer. -/
inductive Sight where
  /-- Nothing, and what is below shows. -/
  | clear
  /-- Nothing, and what is below is hidden. -/
  | blocked
  /-- A value that is no object. -/
  | leaf (v : Value)
  | object

namespace Sight

/-- What is seen of two layers is what is seen of the upper one, if that is not clear. -/
def upon : Sight → Sight → Sight
  | clear, s => s
  | s, _ => s

/-- What is seen from above a closed object: it hides all below. -/
def within (closed : Bool) : Sight → Sight
  | clear => if closed then blocked else clear
  | s => s

theorem within_upon (closed : Bool) (s t : Sight) :
    (s.upon t).within closed = s.upon (t.within closed) := by
  cases s <;> rfl

theorem within_upon_blocked (s : Sight) : s.within true = s.upon blocked := by
  cases s <;> rfl

theorem upon_assoc (s t u : Sight) : (s.upon t).upon u = s.upon (t.upon u) := by
  cases s <;> rfl

theorem upon_clear (s : Sight) : s.upon clear = s := by
  cases s <;> rfl

theorem within_false (s : Sight) : s.within false = s := by
  cases s <;> rfl

end Sight

/-- What a look along a path sees of a resolved tree. -/
def sight : List String → Value → Sight
  | [], v => if v.fields?.isSome then .object else .leaf v
  | key :: keys, v =>
    match v.fields? with
    | none => .blocked
    | some fs => (((Entries.get? fs key).map (sight keys)).getD .clear).within v.isClosed

theorem sight_object (p : Provenance) (closed : Bool) (fs : Entries Value) (key : String)
    (keys : List String) :
    (object p closed fs).sight (key :: keys)
      = (((Entries.get? fs key).map (sight keys)).getD .clear).within closed := rfl

/-- What hides all below it is never clear. -/
theorem sight_upon_of_ignoresFallbacks (final : v.Final) (h : v.ignoresFallbacks = true)
    (keys : List String) (s : Sight) : (v.sight keys).upon s = v.sight keys := by
  cases keys with
  | nil => rw [sight]; split <;> rfl
  | cons key keys =>
    cases hf : v.fields? with
    | none => rw [sight, hf]; rfl
    | some fs =>
      obtain ⟨p, closed, rfl⟩ := eq_object_of_fields? hf
      cases (show closed = true from h)
      rw [sight_object, Sight.within_upon_blocked]
      cases ((Entries.get? fs key).map (sight keys)).getD .clear <;> rfl

/-- **A look along a path sees one layer after the other.** -/
theorem sight_withFallback (hv : v.Final) (hw : w.Final) (keys : List String) :
    (v.withFallback w).sight keys = (v.sight keys).upon (w.sight keys) := by
  refine withFallback_cases (motive := fun v w u => v.Final → w.Final → ∀ keys,
    u.sight keys = (v.sight keys).upon (w.sight keys))
    ?self ?fields ?closing ?waiting hv.wellFormed hw.wellFormed hv hw keys
  case self =>
    intro v w ignores hv _ keys
    exact (sight_upon_of_ignoresFallbacks hv ignores keys _).symm
  case fields =>
    intro p q p' c own other fs _ _ _ _ _ get merged hv hw keys
    cases keys with
    | nil => rfl
    | cons key keys =>
      rw [sight_object, sight_object, sight_object, get, Sight.within_false, ← Sight.within_upon]
      congr 1
      cases ha : Entries.get? own key with
      | none => rfl
      | some a =>
        cases hb : Entries.get? other key with
        | none => exact (Sight.upon_clear _).symm
        | some b => exact merged key a b ha hb (hv.field ha) (hw.field hb) keys
  case closing =>
    intro p own w notObject _ _ _ _ keys
    cases keys with
    | nil => rfl
    | cons key keys =>
      have blocked : w.sight (key :: keys) = .blocked := by rw [sight, notObject]
      rw [blocked, sight_object, sight_object, Sight.within_upon_blocked]
      cases ((Entries.get? own key).map (sight keys)).getD .clear <;> rfl
  case waiting =>
    intro v w _ _ waits hv hw
    rcases waits with pending | waits
    · rw [isPending_of_isResolved hw.resolved] at pending
      cases pending
    · rw [hv.resolved] at waits
      cases waits

/-- What is seen of a pile is what is seen of its layers, one after the other. -/
theorem sight_foldl_withFallback {ws : List Value} (hv : v.Final) (hws : ∀ w ∈ ws, w.Final)
    (keys : List String) :
    (ws.foldl withFallback v).sight keys
      = ((v :: ws).map (sight keys)).foldr Sight.upon .clear := by
  induction ws generalizing v with
  | nil => exact (Sight.upon_clear _).symm
  | cons w ws ih =>
    obtain ⟨hw, hws⟩ := List.forall_mem_cons.1 hws
    rw [List.foldl_cons, ih (hv.withFallback hw) hws]
    simp only [List.map_cons, List.foldr_cons]
    rw [sight_withFallback hv hw, Sight.upon_assoc]

/-- The value at a path, as far as the look along it tells. -/
theorem sight_peek? (v : Value) (keys : List String) :
    match v.sight keys with
    | .leaf u => v.peek? keys = some u ∧ u.fields? = none
    | .object => ∃ u, v.peek? keys = some u ∧ u.fields?.isSome = true
    | _ => v.peek? keys = none := by
  induction keys generalizing v with
  | nil =>
    rw [sight]
    cases hf : v.fields? with
    | none => exact ⟨rfl, hf⟩
    | some fs => exact ⟨v, rfl, by rw [hf]; rfl⟩
  | cons key keys ih =>
    cases hf : v.fields? with
    | none => rw [sight, hf]; exact peek?_of_fields?_eq_none hf key keys
    | some fs =>
      obtain ⟨p, closed, rfl⟩ := eq_object_of_fields? hf
      rw [sight_object]
      cases hu : Entries.get? fs key with
      | none => cases closed <;> simp [Sight.within, hu]
      | some u =>
        have here : (object p closed fs).peek? (key :: keys) = u.peek? keys := by simp [hu]
        have below := ih u
        rw [here, Option.map_some, Option.getD_some]
        cases hs : u.sight keys with
        | clear => rw [hs] at below; cases closed <;> exact below
        | _ => rw [hs] at below; exact below

/-- No object of the tree is closed. -/
def AllOpen (v : Value) : Prop := ∀ u : Value, u.Within v → u.isClosed = false

theorem AllOpen.leaf (open_ : v.isClosed = false) (parts : v.parts = []) : v.AllOpen := by
  intro u hu
  cases hu with
  | self => exact open_
  | part _ hu => simp [parts] at hu

theorem AllOpen.ofFields (p : Provenance) {fs : Entries Value} (fields : ∀ f ∈ fs, f.2.AllOpen) :
    (object p false fs).AllOpen := by
  intro u hu
  cases hu with
  | self => rfl
  | part hu hv =>
    obtain ⟨f, hf, rfl⟩ := List.mem_map.1 hv
    exact fields f hf u hu

/-- The layer has something to say about the path: it holds something there, or something on the
way that is no object. -/
def Decides (keys : List String) (v : Value) : Prop :=
  (∃ u, v.peek? keys = some u)
    ∨ ∃ before after u, keys = before ++ after ∧ after ≠ [] ∧ v.peek? before = some u
      ∧ u.fields? = none

/-- A layer without closed objects decides unless the look along the path is clear. -/
theorem AllOpen.decides_iff (h : v.AllOpen) (keys : List String) :
    v.Decides keys ↔ v.sight keys ≠ .clear := by
  induction keys generalizing v with
  | nil =>
    refine iff_of_true (.inl ⟨v, rfl⟩) ?_
    rw [sight]
    split <;> nofun
  | cons key keys ih =>
    cases hf : v.fields? with
    | none =>
      refine iff_of_true (.inr ⟨[], key :: keys, v, rfl, List.cons_ne_nil _ _, rfl, hf⟩) ?_
      rw [sight, hf]
      nofun
    | some fs =>
      obtain ⟨p, closed, rfl⟩ := eq_object_of_fields? hf
      cases (show closed = false from h _ .self)
      rw [sight_object]
      cases hu : Entries.get? fs key with
      | none =>
        refine iff_of_false ?_ fun h => h rfl
        rintro (⟨u, hv⟩ | ⟨before, after, u, split, rest, hv, leaf⟩)
        · simp [hu] at hv
        · cases before with
          | nil => cases hv; cases leaf
          | cons k before =>
            cases split
            simp [hu] at hv
      | some u =>
        -- both ways of deciding go down with the first key
        have here (ks : List String) : (object p false fs).peek? (key :: ks) = u.peek? ks := by
          simp [hu]
        have below := ih fun x hx =>
          h x (hx.part (mem_parts_of_mem_fields (Entries.mem_of_get? hu)))
        rw [Option.map_some, Option.getD_some, Sight.within_false, ← below]
        constructor
        · rintro (⟨x, hx⟩ | ⟨before, after, x, split, rest, hx, leaf⟩)
          · exact .inl ⟨x, (here keys).symm.trans hx⟩
          · cases before with
            | nil => cases hx; cases leaf
            | cons k before =>
              cases split
              exact .inr ⟨before, after, x, rfl, rest, (here before).symm.trans hx, leaf⟩
        · rintro (⟨x, hx⟩ | ⟨before, after, x, split, rest, hx, leaf⟩)
          · exact .inl ⟨x, (here keys).trans hx⟩
          · exact .inr ⟨key :: before, after, x, by rw [split]; rfl, rest,
              (here before).trans hx, leaf⟩

/-- Layers of which none decides leave the look along the path clear. -/
theorem sight_foldr_of_not_decides {vs : List Value} {keys : List String}
    (allOpen : ∀ v ∈ vs, v.AllOpen) (h : ∀ v ∈ vs, ¬ v.Decides keys) (s : Sight) :
    (vs.map (sight keys)).foldr Sight.upon s = s := by
  induction vs with
  | nil => rfl
  | cons v vs ih =>
    obtain ⟨here, allOpen⟩ := List.forall_mem_cons.1 allOpen
    obtain ⟨clear, h⟩ := List.forall_mem_cons.1 h
    rw [here.decides_iff, Classical.not_not] at clear
    rw [List.map_cons, List.foldr_cons, clear, ih allOpen h]
    rfl

/-- **The first layer that decides**: it alone tells what a pile of layers holds at a path.  A
value of it that is no object is the value of the pile, an object of it makes the pile hold an
object, and if it only has something on the way that is no object, or if no layer decides, then
there is nothing. -/
theorem peek?_foldl_withFallback {top : Value} {below : List Value}
    (final : ∀ l ∈ top :: below, l.Final) (allOpen : ∀ l ∈ top :: below, l.AllOpen)
    (keys : List String) :
    (∀ upper l lower, top :: below = upper ++ l :: lower → (∀ u ∈ upper, ¬ u.Decides keys) →
      l.Decides keys →
      (∀ v, l.peek? keys = some v → v.fields? = none →
        (below.foldl withFallback top).peek? keys = some v)
      ∧ (∀ v, l.peek? keys = some v → v.fields?.isSome = true →
        ∃ u, (below.foldl withFallback top).peek? keys = some u ∧ u.fields?.isSome = true)
      ∧ (l.peek? keys = none → (below.foldl withFallback top).peek? keys = none))
    ∧ ((∀ l ∈ top :: below, ¬ l.Decides keys) →
      (below.foldl withFallback top).peek? keys = none) := by
  obtain ⟨topFinal, belowFinal⟩ := List.forall_mem_cons.1 final
  have seen := sight_foldl_withFallback topFinal belowFinal keys
  have whole := sight_peek? (below.foldl withFallback top) keys
  refine ⟨fun upper l lower layers above decides => ?_, fun none => ?_⟩
  · -- the layers above are clear, and the ones below do not show
    have allOpenUpper (u : Value) (hu : u ∈ upper) : u.AllOpen :=
      allOpen u (layers ▸ List.mem_append_left _ hu)
    have present := ((allOpen l (by rw [layers]; simp)).decides_iff keys).1 decides
    have same : (below.foldl withFallback top).sight keys = l.sight keys := by
      rw [seen, layers, List.map_append, List.foldr_append, List.map_cons, List.foldr_cons,
        sight_foldr_of_not_decides allOpenUpper above]
      cases hs : l.sight keys with
      | clear => exact absurd hs present
      | _ => rfl
    have own := sight_peek? l keys
    rw [same] at whole
    cases hs : l.sight keys with
    | clear => exact absurd hs present
    | blocked =>
      rw [hs] at own whole
      refine ⟨fun v hv => ?_, fun v hv => ?_, fun _ => whole⟩
      · cases own.symm.trans hv
      · cases own.symm.trans hv
    | leaf w =>
      rw [hs] at own whole
      refine ⟨fun v hv _ => ?_, fun v hv object => ?_, fun nothing => ?_⟩
      · cases own.1.symm.trans hv
        exact whole.1
      · cases own.1.symm.trans hv
        rw [own.2] at object
        cases object
      · cases own.1.symm.trans nothing
    | object =>
      rw [hs] at own whole
      obtain ⟨w, hw, object⟩ := own
      refine ⟨fun v hv leaf => ?_, fun _ _ _ => whole, fun nothing => ?_⟩
      · cases hw.symm.trans hv
        rw [leaf] at object
        cases object
      · cases hw.symm.trans nothing
  · rw [seen, sight_foldr_of_not_decides allOpen none] at whole
    exact whole

/-- An object over a text hides the object below. -/
theorem peek?_foldl_withFallback_example :
    let p : Provenance := { origin := .named "example" }
    let upper := Value.object p false [("a", .object p false [("x", null p)])]
    let middle := Value.object p false [("a", string p "text" true)]
    let lower := Value.object p false [("a", .object p false [("y", null p)])]
    (∀ l ∈ [upper, middle, lower], l.Final) ∧ (∀ l ∈ [upper, middle, lower], l.AllOpen)
      ∧ (¬ upper.Decides ["a", "y"] ∧ middle.Decides ["a", "y"])
      ∧ ([middle, lower].foldl withFallback upper).peek? ["a", "y"] = none := by
  intro p upper middle lower
  have leaf : (null p).Final := .leaf (.null fun _ _ => trivial) rfl rfl
  have text : (string p "text" true).Final := .leaf (.string (fun _ _ => trivial) _ _) rfl rfl
  have single {key : String} {v : Value} (h : v.Final) : (Value.object p false [(key, v)]).Final :=
    .ofFields p false (by simp [Entries.keys]) (List.forall_mem_singleton.2 h)
  have singleOpen {key : String} {v : Value} (h : v.AllOpen) :
      (Value.object p false [(key, v)]).AllOpen := .ofFields p (List.forall_mem_singleton.2 h)
  have final : ∀ l ∈ [upper, middle, lower], l.Final := by
    simp only [List.forall_mem_cons, List.not_mem_nil, false_imp_iff, implies_true, and_true]
    exact ⟨single (single leaf), single text, single (single leaf)⟩
  have allOpen : ∀ l ∈ [upper, middle, lower], l.AllOpen := by
    simp only [List.forall_mem_cons, List.not_mem_nil, false_imp_iff, implies_true, and_true]
    exact ⟨singleOpen (singleOpen (.leaf rfl rfl)), singleOpen (.leaf rfl rfl),
      singleOpen (singleOpen (.leaf rfl rfl))⟩
  have silent : ¬ upper.Decides ["a", "y"] := by
    rw [(allOpen upper List.mem_cons_self).decides_iff]
    exact fun h => h rfl
  have decides : middle.Decides ["a", "y"] :=
    .inr ⟨["a"], ["y"], string p "text" true, rfl, List.cons_ne_nil _ _, rfl, rfl⟩
  obtain ⟨first, -⟩ := peek?_foldl_withFallback final allOpen ["a", "y"]
  exact ⟨final, allOpen, ⟨silent, decides⟩,
    (first [upper] middle [lower] rfl (List.forall_mem_singleton.2 silent) decides).2.2 rfl⟩

end Value

end Hocon
