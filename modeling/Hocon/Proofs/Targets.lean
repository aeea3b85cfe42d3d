import Mathlib
import Hocon.Proofs.Layers
import Hocon.Proofs.Resolving

/-!
# References see final values

A reference is looked up in a tree that is still being resolved, and only as much of the tree is
resolved as lies along the path.  In a tree without merges it sees all the same what the whole
tree holds there in the end (`Value.sees_resolve`).

The proof gives a tree a meaning before it is resolved (`Value.Means`): what is at a path of it,
where each reference stands for what the root means at its target.  The meaning is a relation with
finite derivations, so nothing has to be known about cycles, and it is unique
(`Value.Means.peek_eq`).  Resolving, in whatever order and as far as it goes, gives trees that mean
nothing but what the tree meant (`Value.Reduces.means`); that is the contract here.
-/

namespace Hocon

namespace Value

/-! ### Trees without merges -/

/-- References have to have a target and were not included; at least two pieces are joined. -/
def Manner.direct : Manner where
  query
    | reference _ r => r.target.optional = false ∧ r.included = 0
    | concat _ ps => 2 ≤ ps.length
    | _ => True
  comment _ := True
  number _ _ := True

/-- The tree waits for no merge. -/
def Unmerged (v : Value) : Prop := ∀ u : Value, u.Within v → u.isMerge = false

/-- Whether the node is a scalar, a list, an object in which each key comes once, a mandatory
reference that was not included, or at least two pieces to be joined. -/
def isDirectNode : Value → Bool
  | object _ _ fs => (Entries.keys fs).Nodup
  | reference _ r => !r.target.optional && r.included == 0
  | concat _ ps => 2 ≤ ps.length
  | merge _ _ _ => false
  | _ => true

/-- A tree of scalars, objects, lists, mandatory references and concatenations of at least two
pieces. -/
def Direct (v : Value) : Prop := ∀ u : Value, u.Within v → u.isDirectNode = true

/-- `w` is what becomes of `v` where each reference sees what is at its target in `r`: scalars and
the shapes of objects and lists stay, a reference holds what `r` holds at its path, and joined
pieces are what the pieces give that came of them. -/
inductive Sees (r : Value) : Value → Value → Prop
  | scalar {v w : Value} (scalar : v.scalarText?.isSome = true) (like : v.Alike w) : Sees r v w
  | object {p q : Provenance} (closed : Bool) {fs gs : Entries Value}
      (keys : (Entries.keys fs).Perm (Entries.keys gs))
      (fields : ∀ k v w, Entries.get? fs k = some v → Entries.get? gs k = some w → Sees r v w) :
      Sees r (object p closed fs) (object q closed gs)
  | list {p q : Provenance} {xs ys : List Value} (length : xs.length = ys.length)
      (items : ∀ (i : Nat) x y, xs[i]? = some x → ys[i]? = some y → Sees r x y) :
      Sees r (list p xs) (list q ys)
  | reference {p : Provenance} {ref : Reference} {u w : Value}
      (target : r.peek? ref.target.path.keys = some u) (same : Same u w) :
      Sees r (reference p ref) w
  | concat {p : Provenance} {ps ws : List Value} {u w : Value} (length : ps.length = ws.length)
      (pieces : ∀ (i : Nat) x y, ps[i]? = some x → ws[i]? = some y → Sees r x y)
      (joined : joinRun true ws = .ok [u]) (like : u.Alike w) : Sees r (concat p ps) w

namespace Unmerged

variable {u v w : Value}

theorem parts (h : v.Unmerged) : ∀ u ∈ v.parts, u.Unmerged := fun _ hu m hm => h m (.part hm hu)

theorem of_parts (here : v.isMerge = false) (parts : ∀ u ∈ v.parts, u.Unmerged) :
    v.Unmerged := by
  intro m hm
  cases hm with
  | self => exact here
  | part hm hu => exact parts _ hu m hm

theorem of_isResolved (h : v.isResolved = true) : v.Unmerged := by
  induction v using parts_induction with
  | node v ih =>
    obtain ⟨pending, parts⟩ := isResolved_iff.1 h
    refine of_parts ?_ fun u hu => ih u hu (parts u hu)
    cases v with
    | merge => cases pending
    | _ => rfl

theorem alike (h : v.Unmerged) (wf : v.WellFormed manner) (like : v.Alike w) : w.Unmerged := by
  intro m hm
  obtain ⟨x, hx, like⟩ := like.exists_within wf hm
  have := h x hx
  cases like <;> first | rfl | cases this

theorem peek? {keys : List String} (h : v.Unmerged) (hu : v.peek? keys = some u) :
    u.Unmerged :=
  fun m hm => h m (hm.trans (within_of_peek? hu))

theorem peekFirst_eq (h : v.Unmerged) (path : Path) :
    v.peekFirst path = .ok (v.peek? [path.first]) := by
  cases v with
  | merge => cases h _ .self
  | object p c fs => rw [peek?_object_singleton]; rfl
  | _ => rfl

/-- Looking through a tree without merges goes through objects. -/
theorem peekThrough_eq (h : v.Unmerged) (first : String) (rest : List String) :
    v.peekThrough first rest = .ok (v.peek? (first :: rest)) := by
  induction rest generalizing v first with
  | nil => exact h.peekFirst_eq ⟨first, []⟩
  | cons next rest ih =>
    rw [peekThrough, h.peekFirst_eq, peek?_cons v first (next :: rest)]
    simp only [bind, Except.bind]
    cases hu : v.peek? [first] with
    | none => rfl
    | some u =>
      have unmerged := h.peek? hu
      cases u with
      | object => exact ih unmerged next
      | merge => cases unmerged _ .self
      | _ => rfl

end Unmerged

namespace Direct

variable {v : Value}

theorem parts (h : v.Direct) : ∀ u ∈ v.parts, u.Direct := fun _ hu m hm => h m (.part hm hu)

theorem unmerged (h : v.Direct) : v.Unmerged := by
  intro u hu
  have direct := h u hu
  cases u with
  | merge => cases direct
  | _ => rfl

theorem wellFormed (h : v.Direct) : v.WellFormed .direct := by
  induction v using parts_induction with
  | node v ih =>
    have here := h v .self
    have parts (u : Value) (hu : u ∈ v.parts) : u.WellFormed .direct := ih u hu (h.parts u hu)
    have lines : v.origin.Commented Manner.direct.comment := fun _ _ => trivial
    cases v with
    | null => exact .null lines
    | bool => exact .bool lines _
    | number => exact .number lines trivial
    | string => exact .string lines _ _
    | object p c fs =>
      exact .object lines c (of_decide_eq_true here) fun k u hu =>
        parts u (mem_parts_of_mem_fields hu)
    | list => exact .list lines parts
    | reference p r =>
      simp only [isDirectNode, Bool.and_eq_true, Bool.not_eq_true', beq_iff_eq] at here
      exact .reference lines here
    | concat p ps =>
      have two : 2 ≤ ps.length := of_decide_eq_true here
      exact .concat lines two parts
    | merge => cases here

end Direct

/-! ### What a tree means -/

/-- What a resolved tree holds. -/
def held (v : Value) : Content := v.content fun _ => .absent

/-- `v` holds `c` at `keys`, where references stand for what the root holds at their targets. -/
inductive Means (root : Value) : Value → List String → Content → Prop
  | scalar {v : Value} (scalar : v.scalarText?.isSome = true) : Means root v [] v.held
  | object {p : Provenance} {closed : Bool} {fs : Entries Value} {get : String → Content}
      (absent : ∀ k, Entries.get? fs k = none → get k = .absent)
      (fields : ∀ k u, Entries.get? fs k = some u → Means root u [] (get k)) :
      Means root (object p closed fs) [] (.fields closed get)
  | field {p : Provenance} {closed : Bool} {fs : Entries Value} {k : String} {u : Value}
      {keys : List String} {c : Content} (hu : Entries.get? fs k = some u)
      (below : Means root u keys c) : Means root (object p closed fs) (k :: keys) c
  | list {p : Provenance} {xs : List Value} {cs : List Content} (length : xs.length = cs.length)
      (items : ∀ (i : Nat) x c, xs[i]? = some x → cs[i]? = some c → Means root x [] c) :
      Means root (list p xs) [] (.items cs)
  | reference {p : Provenance} {r : Reference} {keys : List String} {c : Content}
      (target : Means root root (r.target.path.keys ++ keys) c) :
      Means root (reference p r) keys c
  | concat {p : Provenance} {ps : List Value} {cs : List Content} {d : Content}
      (keys : List String) (length : ps.length = cs.length)
      (pieces : ∀ (i : Nat) x c, ps[i]? = some x → cs[i]? = some c → Means root x [] c)
      (joined : Content.joinAll cs = some d) : Means root (concat p ps) keys (d.peek keys)

namespace Means

variable {root u v w : Value} {keys : List String} {c d : Content}

/-- Contents that come from the same items are the same. -/
theorem eq_of_items {xs : List Value} {cs ds : List Content} (hc : xs.length = cs.length)
    (hd : xs.length = ds.length)
    (h : ∀ (i : Nat) x c d, xs[i]? = some x → cs[i]? = some c → ds[i]? = some d → d = c) :
    ds = cs := by
  refine List.ext_getElem (hd.symm.trans hc) fun i hi hi' => ?_
  have lt : i < xs.length := hc ▸ hi'
  exact h i xs[i] cs[i] ds[i] (List.getElem?_eq_getElem lt) (List.getElem?_eq_getElem hi')
    (List.getElem?_eq_getElem hi)

/-- **The meaning at a path** is what the meaning further up holds there. -/
theorem peek_eq (h : Means root v keys c) {before after : List String}
    (split : keys = before ++ after) (hd : Means root v before d) : d.peek after = c := by
  induction h generalizing before after d with
  | scalar scalar =>
    obtain ⟨rfl, rfl⟩ := List.nil_eq_append_iff.1 split
    cases hd with
    | scalar => rfl
    | _ => cases scalar
  | @object p closed fs get absent fields ih =>
    obtain ⟨rfl, rfl⟩ := List.nil_eq_append_iff.1 split
    cases hd with
    | scalar scalar => cases scalar
    | object absent' fields' =>
      refine congrArg (Content.fields closed) (funext fun k => ?_)
      cases hu : Entries.get? fs k with
      | none => rw [absent k hu, absent' k hu]
      | some u => exact ih k u hu rfl (fields' k u hu)
  | @field p closed fs k u keys c hu below ih =>
    cases before with
    | nil =>
      obtain rfl : k :: keys = after := split
      cases hd with
      | scalar scalar => cases scalar
      | object absent fields =>
        -- the object has a meaning as a whole, and so has the field
        have inField := ih (List.nil_append keys).symm (fields k u hu)
        exact inField
    | cons k' before =>
      obtain ⟨rfl, rfl⟩ := List.cons.inj split
      cases hd with
      | field hu' below' =>
        cases hu.symm.trans hu'
        exact ih rfl below'
  | list length items ih =>
    obtain ⟨rfl, rfl⟩ := List.nil_eq_append_iff.1 split
    cases hd with
    | scalar scalar => cases scalar
    | list length' items' =>
      refine congrArg Content.items (eq_of_items length length' fun i x c d hx hc hd => ?_)
      exact ih i x c hx hc rfl (items' i x d hx hd)
  | reference target ih =>
    cases hd with
    | scalar scalar => cases scalar
    | reference target' => exact ih (by rw [split, List.append_assoc]) target'
  | concat keys length pieces joined ih =>
    subst split
    cases hd with
    | scalar scalar => cases scalar
    | concat _ length' pieces' joined' =>
      -- both times the same pieces were joined
      have same := eq_of_items length length' fun i x c d hx hc hd =>
        ih i x c hx hc (List.nil_append _).symm (pieces' i x d hx hd)
      rw [same] at joined'
      cases joined.symm.trans joined'
      exact (List.foldl_append ..).symm

/-- A reference means what the root means at its target. -/
theorem target {p : Provenance} {r : Reference} (h : Means root (.reference p r) keys c) :
    Means root root (r.target.path.keys ++ keys) c := by
  cases h with
  | scalar scalar => cases scalar
  | reference target => exact target

/-- What is found at a path has its meaning there. -/
theorem of_peek? (hu : v.peek? keys = some u) {rest : List String} (h : Means root u rest c) :
    Means root v (keys ++ rest) c := by
  induction keys generalizing v with
  | nil =>
    cases hu
    exact h
  | cons key keys ih =>
    obtain ⟨p, closed, fs, x, rfl, hx, below⟩ := exists_field_of_peek? hu
    exact .field hx (ih below)

/-- Neither marks nor the order of fields matter. -/
theorem alike (h : Means root v keys c) (like : v.Alike w) : Means root w keys c := by
  induction h generalizing w with
  | scalar scalar =>
    cases like with
    | object | list | reference | concat | merge => cases scalar
    | _ => exact .scalar rfl
  | object absent _ ih =>
    cases like with
    | object _ _ keys fields =>
      refine .object (fun k hk => absent k ?_) fun k y hy => ?_
      · rw [Entries.get?_eq_none_iff, ← keys.mem_iff, ← Entries.get?_eq_none_iff] at hk
        exact hk
      · obtain ⟨x, hx⟩ := Entries.exists_get?_of_mem_keys
          (keys.mem_iff.2 (Entries.mem_keys_of_get? hy))
        exact ih k x hx (fields k x y hx hy)
  | field hu _ ih =>
    cases like with
    | object _ _ keys fields =>
      obtain ⟨y, hy⟩ := Entries.exists_get?_of_mem_keys
        (keys.mem_iff.1 (Entries.mem_keys_of_get? hu))
      exact .field hy (ih (fields _ _ y hu hy))
  | list length _ ih =>
    cases like with
    | list _ length' items =>
      refine .list (length'.symm.trans length) fun i y c hy hc => ?_
      obtain ⟨x, hx⟩ := Alike.exists_getElem? length'.symm hy
      exact ih i x c hx hc (items i x y hx hy)
  | reference target _ =>
    cases like with
    | reference => exact .reference target
  | concat keys length _ joined ih =>
    cases like with
    | concat _ length' pieces =>
      refine .concat keys (length'.symm.trans length) (fun i y c hy hc => ?_) joined
      obtain ⟨x, hx⟩ := Alike.exists_getElem? length'.symm hy
      exact ih i x c hx hc (pieces i x y hx hy)

/-- A resolved tree means what it holds. -/
theorem of_isResolved (root : Value) (h : v.isResolved = true) : Means root v [] v.held := by
  induction v using parts_induction with
  | node v ih =>
    have parts := (isResolved_iff.1 h).2
    cases v with
    | reference | concat | merge => cases h
    | object p closed fs =>
      rw [held, content]
      refine .object (fun k hk => ?_) fun k u hu => ?_
      · rw [contentOfFields_eq, hk]
        rfl
      · have mem := mem_parts_of_mem_fields (p := p) (c := closed) (Entries.mem_of_get? hu)
        rw [contentOfFields_eq, hu]
        exact ih u mem (parts u mem)
    | list p xs =>
      rw [held, content, contentsOf_of_itemsResolved h]
      refine .list (List.length_map _).symm fun i x c hx hc => ?_
      rw [List.getElem?_map, hx] at hc
      cases hc
      have mem := List.mem_of_getElem? hx
      exact ih x mem (parts x mem)
    | _ => exact .scalar rfl

/-- What a resolved tree means at a path is what it holds there. -/
theorem eq_peek_held (h : Means root v keys c) (resolved : v.isResolved = true) :
    v.held.peek keys = c :=
  h.peek_eq rfl (of_isResolved root resolved)

end Means

/-- What a resolved tree holds at a path is what is found there. -/
theorem peek_held {v : Value} (h : v.isResolved = true) (keys : List String) :
    v.held.peek keys = ((v.peek? keys).map held).getD .absent := by
  induction keys generalizing v with
  | nil => rfl
  | cons key keys ih =>
    cases hf : v.fields? with
    | none =>
      have isFields : v.held.isFields = false := by
        rw [held, isFields_content (isPending_of_isResolved h), hf]
        rfl
      rw [peek?_of_fields?_eq_none hf, Content.peek_cons, Content.field_of_isFields isFields]
      exact Content.peek_absent keys
    | some fs =>
      obtain ⟨p, closed, rfl⟩ := eq_object_of_fields? hf
      rw [peek?_object, Content.peek_cons]
      have here : (object p closed fs).held.field key
          = ((Entries.get? fs key).map held).getD .absent := contentOfFields_eq fs key
      rw [here]
      cases hu : Entries.get? fs key with
      | none => exact Content.peek_absent keys
      | some u => exact ih (fieldsResolved_iff.1 h _ (Entries.mem_of_get? hu))

/-! ### Resolving keeps the meaning -/

/-- `w` came of `v` by resolving some of it: a reference has become something that means no more
than it, and joined pieces have become what the pieces give that came of them. -/
inductive Reduces (root : Value) : Value → Value → Prop
  | alike {v w : Value} (like : v.Alike w) : Reduces root v w
  | object {p q : Provenance} (closed : Bool) {fs gs : Entries Value}
      (keys : (Entries.keys fs).Perm (Entries.keys gs))
      (fields : ∀ k v w, Entries.get? fs k = some v → Entries.get? gs k = some w →
        Reduces root v w) : Reduces root (object p closed fs) (object q closed gs)
  | list {p q : Provenance} {xs ys : List Value} (length : xs.length = ys.length)
      (items : ∀ (i : Nat) x y, xs[i]? = some x → ys[i]? = some y → Reduces root x y) :
      Reduces root (list p xs) (list q ys)
  | reference {p : Provenance} {r : Reference} {w : Value}
      (means : ∀ keys c, Means root w keys c → Means root (reference p r) keys c) :
      Reduces root (reference p r) w
  | concat {p : Provenance} {ps ws : List Value} {u w : Value} (length : ps.length = ws.length)
      (pieces : ∀ (i : Nat) x y, ps[i]? = some x → ws[i]? = some y → Reduces root x y)
      (final : ∀ x ∈ ws, x.WellFormed .direct ∧ Settled none x)
      (joined : joinRun true ws = .ok [u]) (like : u.Alike w) : Reduces root (concat p ps) w

namespace Reduces

variable {root v w : Value}

/-- What pieces are joined to is resolved and holds what their contents are joined to. -/
theorem joined_spec {ws : List Value} {u : Value}
    (final : ∀ x ∈ ws, x.WellFormed .direct ∧ Settled none x) (joined : joinRun true ws = .ok [u]) :
    u.isResolved = true ∧ Content.joinAll (ws.map held) = some u.held := by
  have contents := content_joinRun (fun _ => .absent)
    fun x hx => ⟨(final x hx).1, isPending_of_isResolved (final x hx).2.isResolved⟩
  rw [joined] at contents
  have mem : u ∈ [u] := List.mem_cons_self
  exact ⟨(Settled.joinClosed.joinRun final joined u mem).2.isResolved, contents⟩

/-- **Resolving adds no meaning.** -/
theorem means (h : Reduces root v w) {keys : List String} {c : Content}
    (hw : Means root w keys c) : Means root v keys c := by
  induction h generalizing keys c with
  | alike like => exact hw.alike like.symm
  | @object p q closed fs gs perm fields ih =>
    cases hw with
    | scalar scalar => cases scalar
    | object absent fields' =>
      refine .object (fun k hk => absent k ?_) fun k x hx => ?_
      · rwa [Entries.get?_eq_none_iff, ← perm.mem_iff, ← Entries.get?_eq_none_iff]
      · obtain ⟨y, hy⟩ := Entries.exists_get?_of_mem_keys
          (perm.mem_iff.1 (Entries.mem_keys_of_get? hx))
        exact ih k x y hx hy (fields' k y hy)
    | @field _ _ _ k y _ _ hy below =>
      obtain ⟨x, hx⟩ := Entries.exists_get?_of_mem_keys
        (perm.mem_iff.2 (Entries.mem_keys_of_get? hy))
      exact .field hx (ih k x y hx hy below)
  | list length items ih =>
    cases hw with
    | scalar scalar => cases scalar
    | list length' items' =>
      refine .list (length.trans length') fun i x c hx hc => ?_
      obtain ⟨y, hy⟩ := Alike.exists_getElem? length hx
      exact ih i x y hx hy (items' i y c hy hc)
  | reference means => exact means keys c hw
  | @concat p ps ws u w length pieces final joined like ih =>
    obtain ⟨resolved, contents⟩ := joined_spec final joined
    -- the value at the path is part of what the pieces are joined to
    have whole := (hw.alike like.symm).eq_peek_held resolved
    rw [← whole]
    refine .concat keys (length.trans (List.length_map _).symm) (fun i x c hx hc => ?_) contents
    obtain ⟨y, hy⟩ := Alike.exists_getElem? length hx
    rw [List.getElem?_map, hy] at hc
    cases hc
    have mem := List.mem_of_getElem? hy
    exact ih i x y hx hy (.of_isResolved root (final y mem).2.isResolved)

theorem alike_right (h : Reduces root v w) {w' : Value} (like : w.Alike w') :
    Reduces root v w' := by
  induction h generalizing w' with
  | alike like' => exact .alike (like'.trans like)
  | object closed perm fields ih =>
    cases like with
    | object _ _ perm' fields' =>
      refine .object closed (perm.trans perm') fun k x z hx hz => ?_
      obtain ⟨y, hy⟩ := Entries.exists_get?_of_mem_keys
        (perm.mem_iff.1 (Entries.mem_keys_of_get? hx))
      exact ih k x y hx hy (fields' k y z hy hz)
  | list length items ih =>
    cases like with
    | list _ length' items' =>
      refine .list (length.trans length') fun i x z hx hz => ?_
      obtain ⟨y, hy⟩ := Alike.exists_getElem? length hx
      exact ih i x y hx hy (items' i y z hy hz)
  | reference means => exact .reference fun keys c hw => means keys c (hw.alike like.symm)
  | concat length pieces final joined like' _ =>
    exact .concat length pieces final joined (like'.trans like)

end Reduces

end Value

/-! ### The contract -/

namespace Resolution

open Value

/-- The result is a tree without merges that came of `v`. -/
def Reduced (root v : Value) (result : Option Value) : Prop :=
  ∃ w, result = some w ∧ Reduces root v w ∧ w.Unmerged

variable {root : Value}

theorem Reduced.self {v : Value} (unmerged : v.Unmerged) : Reduced root v (some v) :=
  ⟨v, rfl, .alike (.refl v), unmerged⟩

/-- Each item has its result, and none vanishes. -/
theorem Reduced.items {xs : List Value} {rs : List (Option Value)}
    (h : List.Forall₂ (fun x r => Answer .direct (fun v _ => Reduced root v) x none r) xs rs) :
    xs.length = (rs.filterMap id).length
      ∧ (∀ (i : Nat) x w, xs[i]? = some x → (rs.filterMap id)[i]? = some w → Reduces root x w)
      ∧ ∀ w ∈ rs.filterMap id, w.Unmerged ∧ w.WellFormed .direct ∧ Settled none w := by
  induction h with
  | nil => exact ⟨rfl, nofun, nofun⟩
  | @cons x r xs rs answer _ ih =>
    obtain ⟨w, rfl, reduces, unmerged⟩ := answer.post
    obtain ⟨length, items, final⟩ := ih
    rw [List.filterMap_cons]
    simp only [id]
    refine ⟨congrArg (· + 1) length, fun i y u hy hu => ?_, List.forall_mem_cons.2
      ⟨⟨unmerged, answer.wellFormed w rfl, answer.settled w rfl⟩, final⟩⟩
    cases i with
    | zero =>
      cases hy
      cases hu
      exact reduces
    | succ i => exact items i y u hy hu

/-- Each field has its result or stays, and none vanishes. -/
theorem Reduced.fields {along : Option Path} {fs : Entries Value} {rs : Entries (Option Value)}
    (unmerged : ∀ k v, (k, v) ∈ fs → v.Unmerged)
    (h : List.Forall₂ (FieldAnswer .direct (fun v _ => Reduced root v) along) fs rs) :
    Entries.keys (rs.filterMap fun f => f.2.map fun w => (f.1, w)) = Entries.keys fs
      ∧ (∀ k v w, Entries.get? fs k = some v →
        Entries.get? (rs.filterMap fun f => f.2.map fun w => (f.1, w)) k = some w →
        Reduces root v w)
      ∧ ∀ k w, (k, w) ∈ rs.filterMap (fun f => f.2.map fun w => (f.1, w)) → w.Unmerged := by
  induction h with
  | nil => exact ⟨rfl, nofun, nofun⟩
  | @cons f r fs rs answer _ ih =>
    obtain ⟨key, v⟩ := f
    obtain ⟨key', r⟩ := r
    obtain ⟨rfl, answer⟩ := answer
    have reduced : Reduced root v r := by
      cases ha : alongField along key' with
      | none =>
        rw [ha] at answer
        obtain rfl : r = some v := answer
        exact .self (unmerged key' v List.mem_cons_self)
      | some a =>
        rw [ha] at answer
        exact answer.post
    obtain ⟨w, rfl, reduces, here⟩ := reduced
    obtain ⟨keys, fields, below⟩ := ih fun k u hu => unmerged k u (List.mem_cons_of_mem _ hu)
    rw [List.filterMap_cons]
    simp only [Option.map_some]
    refine ⟨congrArg (key' :: ·) keys, fun k u x hu hx => ?_, fun k u hu => ?_⟩
    · rw [Entries.get?] at hu hx
      split at hu
      · next e =>
        rw [if_pos e] at hx
        cases hu
        cases hx
        exact reduces
      · next e =>
        rw [if_neg e] at hx
        exact fields k u x hu hx
    · rcases List.mem_cons.1 hu with e | hu
      · cases e
        exact here
      · exact below k u hu

/-- Resolving a tree without merges adds no meaning to it. -/
def reduction (s : Setting) (unmerged : s.root.Unmerged) (alone : s.environment = none)
    (strict : s.allowUnresolved = false) : Contract s .direct where
  pre _ _ v _ := v.Unmerged
  post v _ := Reduced s.root v
  fail _ _ := True
  strict := strict
  query_alike v w like h := by
    cases like with
    | concat _ length _ => exact Nat.le_trans h (Nat.le_of_eq length)
    | _ => exact h
  pre_grows _ h := h
  post_part h := h
  post_whole h _ := h
  post_marked := by
    rintro v w along n wf ⟨_, ⟨⟩, reduces, unmerged⟩
    have like := alike_markFrom w n
    exact ⟨_, rfl, reduces.alike_right like, unmerged.alike wf like⟩
  hidden _ _ _ := trivial
  shown := by
    intro g c v w along unmerged _ shows
    cases v with
    | merge => cases unmerged _ .self
    | _ => cases shows
  post_shown := by
    intro g c v w along result unmerged _ shows
    cases v with
    | merge => cases unmerged _ .self
    | _ => cases shows
  unavailable _ _ _ _ := trivial
  source := by
    intro g c p r m along path e _ _ _ _ _ source
    rcases source with rfl | source
    · exact unmerged
    · rw [alone] at source
      cases source
  target := by
    intro g c p r m along path e u _ _ _ _ _ _ found
    obtain ⟨w, answer, peek⟩ := found
    obtain ⟨_, ⟨⟩, -, unmerged⟩ := answer.post
    rw [unmerged.peekThrough_eq] at peek
    exact unmerged.peek? (Except.ok.inj peek)
  post_reference := by
    intro g c p r along w _ wf found
    -- what was found means what the root means at the path
    have sees {u : Value}
        (found : Found .direct (fun v _ => Reduced s.root v) s.root r.target.path (some u))
        (target : Answer .direct (fun v _ => Reduced s.root v) u along (some w)) :
        Reduced s.root (.reference p r) (some w) := by
      obtain ⟨x, answer, peek⟩ := found
      obtain ⟨_, ⟨⟩, reduces, unmerged⟩ := answer.post
      obtain ⟨_, ⟨⟩, reduces', unmerged'⟩ := target.post
      rw [unmerged.peekThrough_eq] at peek
      refine ⟨w, rfl, .reference fun keys c hw => .reference ?_, unmerged'⟩
      exact reduces.means ((reduces'.means hw).of_peek? (Except.ok.inj peek))
    cases found with
    | environment _ _ source =>
      rw [alone] at source
      cases source
    | root found target => exact sees found target
    | inner _ inner found target =>
      -- the path is the same without the keys that no document added
      cases wf with
      | reference _ h =>
        rw [h.2] at inner
        cases inner
        exact sees found target
  missing := by
    intro g c p r along _ wf _
    cases wf with
    | reference _ h =>
      rw [if_neg (by rw [h.1]; exact Bool.false_ne_true)]
      trivial
  cycle := by
    intro g c p r along trace _ wf _
    cases wf with
    | reference _ h =>
      rw [if_neg (by rw [h.1]; exact Bool.false_ne_true)]
      trivial
  error _ := trivial
  retrace h := h
  post_self unmerged _ := .self unmerged
  post_list_part unmerged := .self unmerged
  field unmerged hv _ := unmerged.parts _ (mem_parts_of_mem_fields hv)
  post_object := by
    intro g c p closed fs along rs unmerged _ h q
    obtain ⟨keys, fields, below⟩ := Reduced.fields
      (fun k v hv => unmerged.parts v (mem_parts_of_mem_fields hv)) h
    refine ⟨_, rfl, .object closed (.of_eq keys.symm) fields, .of_parts rfl fun u hu => ?_⟩
    obtain ⟨f, hf, rfl⟩ := List.mem_map.1 hu
    exact below f.1 f.2 hf
  item unmerged hx := unmerged.parts _ hx
  post_list := by
    intro g c p xs rs _ h q
    obtain ⟨length, items, final⟩ := Reduced.items h
    exact ⟨_, rfl, .list length items, .of_parts rfl fun u hu => (final u hu).1⟩
  piece unmerged hx := unmerged.parts _ hx
  post_concat := by
    intro g c p ps along rs _ wf h
    obtain ⟨length, pieces, final⟩ := Reduced.items h
    have resolved (x : Value) (hx : x ∈ rs.filterMap id) :
        x.WellFormed .direct ∧ Settled none x := (final x hx).2
    rcases joinRun_of_isPending fun x hx => isPending_of_isResolved (resolved x hx).2.isResolved
      with ⟨ws, hws, one⟩ | ⟨o, fault, he⟩
    · rw [hws]
      match ws, one with
      | [u], _ =>
        have final := Settled.joinClosed.joinRun resolved hws u List.mem_cons_self
        exact ⟨u, rfl, .concat length pieces resolved hws (.refl u),
          .of_isResolved final.2.isResolved⟩
      | [], _ =>
        -- there are pieces, and they do not come to nothing
        have contents := content_joinRun (fun _ => .absent)
          fun x hx => ⟨(resolved x hx).1, isPending_of_isResolved (resolved x hx).2.isResolved⟩
        rw [hws] at contents
        cases wf with
        | concat _ two _ =>
          match hrs : rs.filterMap id with
          | [] =>
            rw [hrs] at length
            exact absurd (show 2 ≤ ps.length from two) (by rw [length]; decide)
          | x :: xs =>
            rw [hrs] at contents
            have present := (resolved x (by rw [hrs]; exact List.mem_cons_self)).2.isResolved
            exact absurd contents (Content.foldlM_joinTwo_ne_absent
              (content_ne_absent (isPending_of_isResolved present)) _)
    · rw [he]
      trivial
  layer unmerged _ _ _ := by cases unmerged _ .self
  post_merge unmerged _ _ := by cases unmerged _ .self

end Resolution

namespace Value

variable {root r v w : Value}

/-- Where nothing waits, there is no reference that could see anything. -/
theorem Sees.of_alike (r : Value) (like : v.Alike w) (resolved : w.isResolved = true) :
    Sees r v w := by
  induction like with
  | object _ closed perm _ ih =>
    refine .object closed perm fun k x y hx hy => ih k x y hx hy ?_
    exact fieldsResolved_iff.1 resolved _ (Entries.mem_of_get? hy)
  | list _ length _ ih =>
    refine .list length fun i x y hx hy => ih i x y hx hy ?_
    exact itemsResolved_iff.1 resolved y (List.mem_of_getElem? hy)
  | reference | concat | merge => cases resolved
  | null origin => exact .scalar rfl (.null origin)
  | bool origin b => exact .scalar rfl (.bool origin b)
  | number origin n t => exact .scalar rfl (.number origin n t)
  | string origin t quoted => exact .scalar rfl (.string origin t quoted)

/-- What came of a tree sees what came of the root, once nothing waits any more. -/
theorem Reduces.sees (whole : Reduces root root r) (final : r.Final) {v₀ : Value}
    (h : Reduces root v w) (like : v₀.Alike v) (hw : w.Final) : Sees r v₀ w := by
  induction h generalizing v₀ with
  | alike like' => exact .of_alike r (like.trans like') hw.resolved
  | object closed perm fields ih =>
    cases like with
    | object _ _ perm' fields' =>
      refine .object closed (perm'.trans perm) fun k x z hx hz => ?_
      obtain ⟨y, hy⟩ := Entries.exists_get?_of_mem_keys
        (perm'.mem_iff.1 (Entries.mem_keys_of_get? hx))
      exact ih k y z hy hz (fields' k x y hx hy) (hw.field hz)
  | list length items ih =>
    cases like with
    | list _ length' items' =>
      refine .list (length'.trans length) fun i x z hx hz => ?_
      obtain ⟨y, hy⟩ := Alike.exists_getElem? length' hx
      have mem := List.mem_of_getElem? hz
      exact ih i y z hy hz (items' i x y hx hy)
        ⟨hw.wellFormed.parts z mem, (isResolved_iff.1 hw.resolved).2 z mem⟩
  | @reference p ref w means =>
    cases like with
    | reference =>
      -- what the root means at the path is what its result holds there
      have target := (means [] w.held (.of_isResolved root hw.resolved)).target
      have there := target.peek_eq (List.nil_append _).symm
        (whole.means (.of_isResolved root final.resolved))
      rw [List.append_nil, peek_held final.resolved] at there
      have present : w.held ≠ .absent := content_ne_absent (isPending_of_isResolved hw.resolved)
      cases hu : r.peek? ref.target.path.keys with
      | none =>
        rw [hu] at there
        exact absurd there.symm present
      | some u =>
        rw [hu] at there
        exact .reference hu ((final.peek? hu).same_of_content_eq _ hw there)
  | concat length pieces resolved joined like' ih =>
    cases like with
    | concat _ length' pieces' =>
      refine .concat (length'.trans length) (fun i x z hx hz => ?_) joined like'
      obtain ⟨y, hy⟩ := Alike.exists_getElem? length' hx
      obtain ⟨wf, settled⟩ := resolved z (List.mem_of_getElem? hz)
      exact ih i y z hy hz (pieces' i x y hx hy) (.of_wellFormed wf settled.isResolved)

/-- **References see final values.**  In a tree without merges whose references are mandatory,
resolving keeps scalars and the shapes of objects and lists, each reference holds what the result
holds at its path, where there is something, and joined pieces are what the resolved pieces
give. -/
theorem sees_resolve (direct : root.Direct) (coherent : root.Coherent)
    (object : root.fields?.isSome = true) {next : Nat} (h : root.resolve {} next = .ok r) :
    r.isResolved = true ∧ Sees r root r := by
  by_cases resolved : root.isResolved = true
  · rw [resolve, if_pos resolved] at h
    cases h
    exact ⟨resolved, .of_alike root (.refl root) resolved⟩
  have like : root.Alike (Resolution.marked root next).1 := alike_markFrom root _
  have unmerged := direct.unmerged.alike direct.wellFormed like
  have spec := (Resolution.reduction (Resolution.settingOf {} (Resolution.marked root next).1
    (Resolution.marked root next).2) unmerged rfl rfl).resolve_spec coherent direct.wellFormed
    object (by simpa using resolved) (by rintro _ ⟨⟩) fun _ _ _ => unmerged
  rw [h] at spec
  obtain ⟨_, ⟨⟩, reduces, -⟩ := spec.post
  have whole := (spec.settled r rfl).isResolved
  have final := Final.of_wellFormed (spec.wellFormed r rfl) whole
  exact ⟨whole, reduces.sees final reduces like final⟩

/-- A reference, and a text that is joined with one. -/
theorem sees_resolve_example :
    let p : Provenance := { origin := .named "example" }
    let a : Reference := { target := { path := .ofKey "a", optional := false } }
    let root := Value.object p false
      [("a", .bool p true), ("b", .reference p a), ("c", .concat p [.reference p a, .string p "!" true])]
    root.Direct ∧ root.Coherent ∧ root.fields?.isSome = true
      ∧ ∃ r, root.resolve {} = .ok r ∧ r.isResolved = true ∧ Sees r root r := by
  intro p a root
  have nodes : root.allNodes isDirectNode = true := by decide
  have unmarked : root.allNodes (fun u => u.mark.isNone) = true := by decide
  have direct : root.Direct := fun u hu => hu.check nodes
  have coherent : root.Coherent :=
    .of_unmarked fun u hu => Option.isNone_iff_eq_none.1 (hu.check unmarked)
  have resolves : (root.resolve {}).toOption.isSome = true := by cbv
  cases hr : root.resolve {} with
  | error e =>
    rw [hr] at resolves
    cases resolves
  | ok r => exact ⟨direct, coherent, rfl, r, rfl, sees_resolve direct coherent rfl hr⟩

end Value

end Hocon
