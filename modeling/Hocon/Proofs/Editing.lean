import Hocon.Proofs.Bearing

/-!
# Edits are local

An edit at a path rebuilds the objects on the way to it, and nothing else.  What a tree holds at its
paths tells all of that (`Value.peek?`): beside the path, edited trees hold the very same nodes
(`Value.edits_local`); on the way there are objects in the place of objects, as closed as those were
and with their keys in the same order but for the one key that the edit is about
(`Value.Rebuilds`).

An edit that has nothing to remove still makes the objects on its way anew, so the tree that it
gives is the same but for the marks of these.
-/

namespace Hocon

/-! ### Entries -/

namespace Entries

variable {α : Type} {es : Entries α} {key : String}

theorem get?_drop_self (nodup : (keys es).Nodup) (key : String) :
    get? (drop es key) key = none := by
  induction es with
  | nil => rfl
  | cons e es ih =>
    obtain ⟨absent, nodup⟩ := List.nodup_cons.1 nodup
    rw [drop]
    split
    · next eq => exact get?_eq_none_iff.2 (eq ▸ absent)
    · next ne => rw [get?, if_neg ne, ih nodup]

theorem keys_drop (es : Entries α) (key : String) : keys (drop es key) = (keys es).erase key := by
  induction es with
  | nil => rfl
  | cons e es ih =>
    rw [drop, show keys (e :: es) = e.1 :: keys es from rfl, List.erase_cons]
    by_cases eq : e.1 = key
    · rw [if_pos eq, if_pos (beq_iff_eq.2 eq)]
    · rw [if_neg eq, if_neg (by simpa using eq), ← ih]
      rfl

/-- To set a key to what it holds changes nothing. -/
theorem put_of_get? {a : α} (get : get? es key = some a) : put es key a = es := by
  induction es with
  | nil => cases get
  | cons e es ih =>
    rw [get?] at get
    rw [put]
    split at get
    · next eq =>
      cases get
      rw [if_pos eq, ← eq]
    · next ne => rw [if_neg ne, ih get]

end Entries

/-- Nodes are not told from equal ones, and their origins stay. -/
def Relabelling.nameless : Relabelling where
  of p := { origin := p.origin }
  origin := id
  origin_of _ := rfl
  fresh _ := rfl
  merge := Function.Semiconj₂.id_left Origin.merge
  nothing := Function.isFixedPt_id _

namespace Value

variable {v w x : Value} {p : Provenance} {closed : Bool} {fs gs : Entries Value} {key : String}
  {keys path : List String}

/-! ### Paths -/

/-- Each object that a path leads to has each of its keys once. -/
def Keyed (v : Value) : Prop :=
  ∀ keys p closed fs, v.peek? keys = some (object p closed fs) → (Entries.keys fs).Nodup

theorem Keyed.nodup (h : (object p closed fs).Keyed) : (Entries.keys fs).Nodup :=
  h [] p closed fs rfl

theorem Keyed.field (h : (object p closed fs).Keyed) (get : Entries.get? fs key = some x) :
    x.Keyed := by
  intro keys q closed' gs at_
  refine h (key :: keys) q closed' gs ?_
  rw [peek?_object, get]
  exact at_

/-- A tree without fields has no keys. -/
theorem Keyed.of_fields?_eq_none (hf : v.fields? = none) : v.Keyed := by
  intro keys q closed gs at_
  cases keys with
  | nil =>
    cases at_
    cases hf
  | cons key keys =>
    rw [peek?_of_fields?_eq_none hf] at at_
    cases at_

theorem Keyed.object (nodup : (Entries.keys fs).Nodup) (fields : ∀ k u, (k, u) ∈ fs → u.Keyed) :
    (object p closed fs).Keyed := by
  intro keys q closed' gs at_
  cases keys with
  | nil =>
    cases at_
    exact nodup
  | cons key keys =>
    obtain ⟨u, get, at_⟩ := Option.bind_eq_some_iff.1 at_
    exact fields key u (Entries.mem_of_get? get) keys q closed' gs at_

theorem peek?_append (v : Value) (keys more : List String) :
    v.peek? (keys ++ more) = (v.peek? keys).bind fun u => u.peek? more := by
  induction keys generalizing v with
  | nil => rfl
  | cons key keys ih =>
    cases hf : v.fields? with
    | none =>
      rw [List.cons_append, peek?_of_fields?_eq_none hf, peek?_of_fields?_eq_none hf]
      rfl
    | some fs =>
      obtain ⟨p, closed, rfl⟩ := eq_object_of_fields? hf
      rw [List.cons_append, peek?_object, peek?_object]
      cases Entries.get? fs key with
      | none => rfl
      | some u => exact ih u

theorem Diverge.exists_cons (h : Diverge (key :: keys) path) :
    ∃ other rest, path = other :: rest ∧ (other = key → Diverge keys rest) := by
  cases path with
  | nil => exact absurd List.nil_prefix h.2
  | cons other rest =>
    refine ⟨other, rest, rfl, ?_⟩
    rintro rfl
    exact ⟨fun le => h.1 ((List.prefix_cons_inj other).2 le),
      fun le => h.2 ((List.prefix_cons_inj other).2 le)⟩

theorem Diverge.ne_nil (h : Diverge keys path) : path ≠ [] := by
  rintro rfl
  exact h.2 List.nil_prefix

/-- What is no object holds nothing at a path that leads away from another one. -/
theorem peek?_of_diverge (hf : v.fields? = none) (h : Diverge keys path) : v.peek? path = none := by
  obtain ⟨key, rest, rfl⟩ := List.exists_cons_of_ne_nil h.ne_nil
  exact peek?_of_fields?_eq_none hf key rest

/-- On the way to the keys `w` has an object in the place of each object of `v`: it is as closed as
that, and has the keys that `rekey` makes of its keys.  That is told the next key on the way, and
those behind it. -/
def Rebuilds (rekey : String → List String → List String → List String) (keys : List String)
    (v w : Value) : Prop :=
  ∀ front key back, keys = front ++ key :: back →
    ∀ p closed fs, v.peek? front = some (object p closed fs) →
      ∃ gs, w.peek? front = some (object { origin := p.origin } closed gs)
        ∧ Entries.keys gs = rekey key back (Entries.keys fs)

/-- One object is rebuilt, and what is at its next key. -/
theorem Rebuilds.object {rekey : String → List String → List String → List String}
    (rekeyed : Entries.keys gs = rekey key keys (Entries.keys fs))
    (below : keys ≠ [] → ∀ u, Entries.get? fs key = some u →
      ∃ u', Entries.get? gs key = some u' ∧ Rebuilds rekey keys u u') :
    Rebuilds rekey (key :: keys) (.object p closed fs)
      (.object { origin := p.origin } closed gs) := by
  intro front next back split q closed' hs at_
  cases front with
  | nil =>
    cases split
    cases at_
    exact ⟨gs, rfl, rekeyed⟩
  | cons first front =>
    obtain ⟨rfl, rest⟩ := List.cons.inj split
    obtain ⟨u, get, at_⟩ := Option.bind_eq_some_iff.1 at_
    obtain ⟨u', get', rebuilds⟩ := below (by rw [rest]; simp) u get
    obtain ⟨gs', at', rekeyed'⟩ := rebuilds front next back rest q closed' hs at_
    exact ⟨gs', by rw [peek?_object, get']; exact at', rekeyed'⟩

/-! ### Setting a value -/

theorem peek?_atKeys (v : Value) (keys : List String) : (v.atKeys keys).peek? keys = some v := by
  induction keys with
  | nil => rfl
  | cons key keys ih =>
    show (Entries.get? [(key, v.atKeys keys)] key).bind _ = _
    rw [Entries.get?, if_pos rfl]
    exact ih

theorem peek?_atKeys_of_diverge (h : Diverge keys path) (v : Value) :
    (v.atKeys keys).peek? path = none := by
  induction keys generalizing path with
  | nil => exact absurd List.nil_prefix h.1
  | cons key keys ih =>
    obtain ⟨other, rest, rfl, same⟩ := h.exists_cons
    show (Entries.get? [(key, v.atKeys keys)] other).bind _ = _
    rw [Entries.get?]
    split
    · next eq => exact ih (same eq.symm)
    · rfl

/-- Setting a value below an object sets its field: below what was there if that is an object. -/
theorem exists_withKeysValue (p : Provenance) (closed : Bool) (fs : Entries Value) (x : Value)
    (key : String) (keys : List String) :
    ∃ child, (object p closed fs).withKeysValue x (key :: keys)
        = object { origin := p.origin } closed (Entries.put fs key child)
      ∧ ((∃ q closed' gs, Entries.get? fs key = some (object q closed' gs)
            ∧ child = (object q closed' gs).withKeysValue x keys)
        ∨ (∀ u, Entries.get? fs key = some u → u.fields? = none) ∧ child = x.atKeys keys) := by
  refine ⟨_, rfl, ?_⟩
  split
  · next q closed' gs get => exact .inl ⟨q, closed', gs, get, rfl⟩
  · next other =>
    refine .inr ⟨fun u get => ?_, rfl⟩
    cases u with
    | object q closed' gs => exact absurd get (other q closed' gs)
    | _ => rfl

theorem peek?_withKeysValue (p : Provenance) (closed : Bool) (fs : Entries Value) (x : Value)
    (keys : List String) : ((object p closed fs).withKeysValue x keys).peek? keys = some x := by
  induction keys generalizing p closed fs with
  | nil => rfl
  | cons key keys ih =>
    obtain ⟨child, eq, cases_⟩ := exists_withKeysValue p closed fs x key keys
    rw [eq, peek?_object, Entries.get?_put_self]
    rcases cases_ with ⟨q, closed', gs, -, rfl⟩ | ⟨-, rfl⟩
    · exact ih q closed' gs
    · exact peek?_atKeys x keys

theorem peek?_withKeysValue_of_diverge (h : Diverge keys path) (p : Provenance) (closed : Bool)
    (fs : Entries Value) (x : Value) :
    ((object p closed fs).withKeysValue x keys).peek? path = (object p closed fs).peek? path := by
  induction keys generalizing p closed fs path with
  | nil => exact absurd List.nil_prefix h.1
  | cons key keys ih =>
    obtain ⟨other, rest, rfl, same⟩ := h.exists_cons
    obtain ⟨child, eq, cases_⟩ := exists_withKeysValue p closed fs x key keys
    rw [eq, peek?_object, peek?_object, Entries.get?_put]
    split
    · next here =>
      have apart := same here
      rw [here, Option.bind_some]
      rcases cases_ with ⟨q, closed', gs, get, rfl⟩ | ⟨other, rfl⟩
      · rw [get, Option.bind_some, ih apart]
      · rw [peek?_atKeys_of_diverge apart]
        cases get : Entries.get? fs key with
        | none => rfl
        | some u => exact (peek?_of_diverge (other u get) apart).symm
    · rfl

/-- Setting a key that is new puts it last. -/
def settingKey (key : String) (_ keys : List String) : List String :=
  if key ∈ keys then keys else keys ++ [key]

theorem rebuilds_withKeysValue (p : Provenance) (closed : Bool) (fs : Entries Value) (x : Value)
    (keys : List String) :
    Rebuilds settingKey keys (object p closed fs) ((object p closed fs).withKeysValue x keys) := by
  induction keys generalizing p closed fs with
  | nil =>
    intro front key back split
    simp at split
  | cons key keys ih =>
    obtain ⟨child, eq, cases_⟩ := exists_withKeysValue p closed fs x key keys
    rw [eq]
    refine .object ?_ fun _ u get => ⟨child, Entries.get?_put_self fs key child, ?_⟩
    · unfold settingKey
      split
      · next mem => exact Entries.keys_put_of_mem mem child
      · next new => exact Entries.keys_put_of_not_mem new child
    · rcases cases_ with ⟨q, closed', gs, there, rfl⟩ | ⟨other, rfl⟩
      · cases there.symm.trans get
        exact ih q closed' gs
      · intro front next back _ q closed' hs at_
        have object := other u get
        cases front with
        | nil =>
          cases at_
          cases object
        | cons first front => rw [peek?_of_fields?_eq_none object] at at_; cases at_

/-! ### Removing a value -/

theorem withoutKeys_of_fields?_eq_none (hf : v.fields? = none) (keys : List String) :
    v.withoutKeys keys = v := by
  cases keys with
  | nil => rfl
  | cons key keys => cases v <;> first | rfl | cases hf

theorem withoutKeys_of_get?_eq_none (get : Entries.get? fs key = none) (p : Provenance)
    (closed : Bool) (keys : List String) :
    (object p closed fs).withoutKeys (key :: keys) = object p closed fs := by
  unfold withoutKeys
  simp only [get]

theorem withoutKeys_last (get : Entries.get? fs key = some x) (p : Provenance) (closed : Bool) :
    (object p closed fs).withoutKeys [key]
      = object { origin := p.origin } closed (Entries.drop fs key) := by
  unfold withoutKeys
  simp only [get]
  rfl

/-- Where the keys go on, something is removed only if they go on into an object. -/
theorem withoutKeys_inner (get : Entries.get? fs key = some x) (more : keys ≠ []) (p : Provenance)
    (closed : Bool) :
    (object p closed fs).withoutKeys (key :: keys)
      = if x.fields?.isNone then object p closed fs
        else object { origin := p.origin } closed (Entries.put fs key (x.withoutKeys keys)) := by
  obtain ⟨next, keys, rfl⟩ := List.exists_cons_of_ne_nil more
  conv => lhs; unfold withoutKeys
  simp only [get]
  rfl

theorem peek?_withoutKeys (keyed : v.Keyed) (nonempty : keys ≠ []) :
    (v.withoutKeys keys).peek? keys = none := by
  induction keys generalizing v with
  | nil => exact absurd rfl nonempty
  | cons key keys ih =>
    cases hf : v.fields? with
    | none => rw [withoutKeys_of_fields?_eq_none hf, peek?_of_fields?_eq_none hf]
    | some fs =>
      obtain ⟨p, closed, rfl⟩ := eq_object_of_fields? hf
      cases get : Entries.get? fs key with
      | none =>
        rw [withoutKeys_of_get?_eq_none get, peek?_object, get]
        rfl
      | some x =>
        by_cases more : keys = []
        · rw [more, withoutKeys_last get, peek?_object, Entries.get?_drop_self keyed.nodup]
          rfl
        rw [withoutKeys_inner get more]
        split
        · next scalar =>
          obtain ⟨next, keys, rfl⟩ := List.exists_cons_of_ne_nil more
          rw [peek?_object, get]
          exact peek?_of_fields?_eq_none (Option.isNone_iff_eq_none.1 scalar) next keys
        · rw [peek?_object, Entries.get?_put_self]
          exact ih (keyed.field get) more

theorem peek?_withoutKeys_of_diverge (h : Diverge keys path) (v : Value) :
    (v.withoutKeys keys).peek? path = v.peek? path := by
  induction keys generalizing v path with
  | nil => exact absurd List.nil_prefix h.1
  | cons key keys ih =>
    obtain ⟨other, rest, rfl, same⟩ := h.exists_cons
    cases hf : v.fields? with
    | none => rw [withoutKeys_of_fields?_eq_none hf]
    | some fs =>
      obtain ⟨p, closed, rfl⟩ := eq_object_of_fields? hf
      cases get : Entries.get? fs key with
      | none => rw [withoutKeys_of_get?_eq_none get]
      | some x =>
        by_cases here : other = key
        · -- a path that goes on from the last key would be one behind it
          have more : keys ≠ [] := fun last => (same here).1 (last ▸ List.nil_prefix)
          rw [withoutKeys_inner get more]
          split
          · rfl
          · rw [here, peek?_object, peek?_object, Entries.get?_put_self, get]
            exact ih (same here) x
        · by_cases more : keys = []
          · rw [more, withoutKeys_last get, peek?_object, peek?_object,
              Entries.get?_drop_of_ne here]
          rw [withoutKeys_inner get more]
          split
          · rfl
          · rw [peek?_object, peek?_object, Entries.get?_put_of_ne here]

/-- The last key is removed, and the others stay. -/
def removingKey (key : String) (back keys : List String) : List String :=
  if back = [] then keys.erase key else keys

theorem rebuilds_withoutKeys (found : v.peek? keys = some x) :
    Rebuilds removingKey keys v (v.withoutKeys keys) := by
  induction keys generalizing v with
  | nil =>
    intro front key back split
    simp at split
  | cons key keys ih =>
    obtain ⟨p, closed, fs, u, rfl, get, found⟩ := exists_field_of_peek? found
    by_cases more : keys = []
    · rw [more, withoutKeys_last get]
      refine .object ?_ fun ne => absurd rfl ne
      rw [removingKey, if_pos rfl, Entries.keys_drop]
    · obtain ⟨next, rest, rfl⟩ := List.exists_cons_of_ne_nil more
      obtain ⟨q, closed', gs, -, rfl, -, -⟩ := exists_field_of_peek? found
      rw [withoutKeys_inner get more, if_neg (by simp [fields?])]
      refine .object ?_ fun _ u' get' => ⟨_, Entries.get?_put_self fs key _, ?_⟩
      · rw [removingKey, if_neg more, Entries.keys_put_of_mem (Entries.mem_keys_of_get? get)]
      · cases get.symm.trans get'
        exact ih found

/-! ### Nothing to remove -/

/-- The tree without the marks of its nodes. -/
def nameless (v : Value) : Value := v.relabel .nameless

theorem fieldsEqual_congr {hs : Entries Value} (same : List.Forall₂
      (fun f g => f.1 = g.1 ∧ ∀ u, f.2.equals u = g.2.equals u) fs gs) :
    fieldsEqual fs hs = fieldsEqual gs hs := by
  induction same with
  | nil => rfl
  | @cons f g fs gs both _ ih =>
    rw [fieldsEqual, fieldsEqual, ih, both.1]
    cases Entries.get? hs g.1 with
    | none => rfl
    | some u => simp only [both.2 u]

/-- How an object compares is a matter of its fields. -/
theorem equals_object_congr {q : Provenance} {closed' : Bool} (same : List.Forall₂
      (fun f g => f.1 = g.1 ∧ ∀ u, f.2.equals u = g.2.equals u) fs gs) (u : Value) :
    (object p closed fs).equals u = (object q closed' gs).equals u := by
  cases u with
  | object _ _ hs => rw [equals, equals, fieldsEqual_congr same, same.length_eq]
  | _ => rfl

theorem forall₂_put {R : String × Value → String × Value → Prop} (refl : ∀ f, R f f) {y : Value}
    (get : Entries.get? fs key = some x) (replaced : R (key, y) (key, x)) :
    List.Forall₂ R (Entries.put fs key y) fs := by
  induction fs with
  | nil => cases get
  | cons f fs ih =>
    have rest : List.Forall₂ R fs fs := List.forall₂_same.2 fun f _ => refl f
    rw [Entries.get?] at get
    rw [Entries.put]
    split at get
    · next eq =>
      cases get
      rw [if_pos eq]
      exact .cons (by rw [← eq] at replaced ⊢; exact replaced) rest
    · next ne =>
      rw [if_neg ne]
      exact .cons (refl f) (ih get)

/-- Without anything to remove, only marks change, and no comparison sees a difference. -/
theorem withoutKeys_of_absent (absent : v.peek? keys = none) :
    (v.withoutKeys keys).nameless = v.nameless
      ∧ ∀ u, (v.withoutKeys keys).equals u = v.equals u := by
  induction keys generalizing v with
  | nil => cases absent
  | cons key keys ih =>
    cases hf : v.fields? with
    | none =>
      rw [withoutKeys_of_fields?_eq_none hf]
      exact ⟨rfl, fun _ => rfl⟩
    | some fs =>
      obtain ⟨p, closed, rfl⟩ := eq_object_of_fields? hf
      cases get : Entries.get? fs key with
      | none =>
        rw [withoutKeys_of_get?_eq_none get]
        exact ⟨rfl, fun _ => rfl⟩
      | some x =>
        rw [peek?_object, get] at absent
        have more : keys ≠ [] := by
          rintro rfl
          cases absent
        rw [withoutKeys_inner get more]
        split
        · exact ⟨rfl, fun _ => rfl⟩
        obtain ⟨nameless_, equals_⟩ := ih absent
        refine ⟨?_, equals_object_congr
          (forall₂_put (fun f => ⟨rfl, fun _ => rfl⟩) get ⟨rfl, equals_⟩)⟩
        show relabel _ _ = relabel _ _
        rw [relabel_object, relabel_object, ← Entries.put_mapValues,
          show relabel .nameless (x.withoutKeys keys) = relabel .nameless x from nameless_,
          Entries.put_mapValues, Entries.put_of_get? get]
        rfl

/-! ### Keeping one path -/

theorem onlyKeys?_eq_none_iff : v.onlyKeys? keys = none ↔ v.peek? keys = none := by
  induction keys generalizing v with
  | nil => exact iff_of_false (Option.some_ne_none _) (Option.some_ne_none _)
  | cons key keys ih =>
    rw [onlyKeys?, peek?]
    cases v.fields? with
    | none => exact ⟨fun _ => rfl, fun _ => rfl⟩
    | some fs =>
      show (Entries.get? fs key).bind _ = none ↔ (Entries.get? fs key).bind _ = none
      cases Entries.get? fs key with
      | none => exact ⟨fun _ => rfl, fun _ => rfl⟩
      | some x =>
        show ((x.onlyKeys? keys).bind fun kept => some (v.withFields [(key, kept)])) = none
          ↔ x.peek? keys = none
        rw [← ih, Option.bind_eq_none_iff]
        exact ⟨fun h => Option.eq_none_iff_forall_ne_some.2 fun kept eq =>
            Option.some_ne_none _ (h kept eq),
          fun h kept eq => by rw [h] at eq; cases eq⟩

theorem onlyKeys?_object (get : Entries.get? fs key = some x) (hw : x.onlyKeys? keys = some w)
    (p : Provenance) (closed : Bool) :
    (object p closed fs).onlyKeys? (key :: keys)
      = some (object { origin := p.origin } closed [(key, w)]) := by
  rw [onlyKeys?]
  show (Entries.get? fs key).bind _ = _
  rw [get]
  show (x.onlyKeys? keys).bind _ = _
  rw [hw]
  rfl

/-- What is kept is what was at the keys, and nothing beside them. -/
theorem onlyKeys?_of_peek? (found : v.peek? keys = some x) : ∃ w, v.onlyKeys? keys = some w
    ∧ w.peek? keys = some x
    ∧ (∀ path, Diverge keys path → w.peek? path = none)
    ∧ Rebuilds (fun key _ _ => [key]) keys v w := by
  induction keys generalizing v with
  | nil =>
    refine ⟨v, rfl, found, fun path h => absurd List.nil_prefix h.1, ?_⟩
    intro front key back split
    simp at split
  | cons key keys ih =>
    obtain ⟨p, closed, fs, u, rfl, get, found⟩ := exists_field_of_peek? found
    obtain ⟨w, kept, below, beside, rebuilds⟩ := ih found
    have here : Entries.get? [(key, w)] key = some w := if_pos rfl
    refine ⟨_, onlyKeys?_object get kept p closed, ?_, fun path h => ?_,
      .object rfl fun _ u' get' => ⟨w, here, ?_⟩⟩
    · rw [peek?_object, here]
      exact below
    · obtain ⟨other, rest, rfl, same⟩ := h.exists_cons
      rw [peek?_object, Entries.get?]
      split
      · next eq => exact beside rest (same eq.symm)
      · rfl
    · cases get.symm.trans get'
      exact rebuilds

/-! ### All edits -/

/-- `w` is `v` with a value at a path: it holds the value there and the same as `v` beside the path,
and an object on the way gets the next key at its end unless it has that already. -/
structure Sets (place : Path) (new v w : Value) : Prop where
  there : w.peek? place.keys = some new
  beside : ∀ path, Diverge place.keys path → w.peek? path = v.peek? path
  rebuilds : Rebuilds settingKey place.keys v w

/-- `w` is `v` without what is at a path: it holds nothing there and below and the same as `v`
beside the path, and the last object on the way loses the last key.  With nothing to remove the tree
stays the same: only marks change, and nothing compares to it in another way. -/
structure Removes (place : Path) (v w : Value) : Prop where
  there : ∀ more, w.peek? (place.keys ++ more) = none
  beside : ∀ path, Diverge place.keys path → w.peek? path = v.peek? path
  rebuilds : v.peek? place.keys ≠ none → Rebuilds removingKey place.keys v w
  absent : v.peek? place.keys = none → w.nameless = v.nameless ∧ ∀ u, w.equals u = v.equals u

/-- `w` is what of `v` is at a path: it holds the same there and below and nothing beside the path,
and an object on the way has no other key.  With nothing to keep it is an object without fields. -/
structure Keeps (place : Path) (v w : Value) : Prop where
  there : v.peek? place.keys ≠ none → ∀ more,
    w.peek? (place.keys ++ more) = v.peek? (place.keys ++ more)
  beside : v.peek? place.keys ≠ none → ∀ path, Diverge place.keys path → w.peek? path = none
  rebuilds : v.peek? place.keys ≠ none → Rebuilds (fun key _ _ => [key]) place.keys v w
  absent : v.peek? place.keys = none → w = object { origin := v.origin } v.ignoresFallbacks []

theorem sets_withValueAt (p : Provenance) (closed : Bool) (fs : Entries Value) (place : Path)
    (new : Value) :
    Sets place new (object p closed fs) ((object p closed fs).withValueAt place new) where
  there := peek?_withKeysValue p closed fs new place.keys
  beside _ h := peek?_withKeysValue_of_diverge h p closed fs new
  rebuilds := rebuilds_withKeysValue p closed fs new place.keys

theorem removes_withoutPath (keyed : v.Keyed) (place : Path) :
    Removes place v (v.withoutPath place) where
  there more := by
    have none_ : (v.withoutPath place).peek? place.keys = none :=
      peek?_withoutKeys keyed place.keys_ne_nil
    rw [peek?_append, none_]
    rfl
  beside _ h := peek?_withoutKeys_of_diverge h v
  rebuilds found := by
    obtain ⟨x, found⟩ := Option.ne_none_iff_exists'.1 found
    exact rebuilds_withoutKeys found
  absent := withoutKeys_of_absent

theorem keeps_withOnlyPath (v : Value) (place : Path) : Keeps place v (v.withOnlyPath place) := by
  have kept (found : v.peek? place.keys ≠ none) : ∃ x w, v.peek? place.keys = some x
      ∧ v.withOnlyPath place = w ∧ w.peek? place.keys = some x
      ∧ (∀ path, Diverge place.keys path → w.peek? path = none)
      ∧ Rebuilds (fun key _ _ => [key]) place.keys v w := by
    obtain ⟨x, found⟩ := Option.ne_none_iff_exists'.1 found
    obtain ⟨w, kept, rest⟩ := onlyKeys?_of_peek? found
    exact ⟨x, w, found, by rw [withOnlyPath, kept]; rfl, rest⟩
  constructor
  · intro found more
    obtain ⟨x, w, here, rfl, there, -⟩ := kept found
    rw [peek?_append, there, peek?_append, here]
  · intro found
    obtain ⟨x, w, -, rfl, -, beside, -⟩ := kept found
    exact beside
  · intro found
    obtain ⟨x, w, -, rfl, -, -, rebuilds⟩ := kept found
    exact rebuilds
  · intro absent
    rw [withOnlyPath, onlyKeys?_eq_none_iff.2 absent]
    rfl

/-- **Edits are local**: setting, removing and keeping what is at a path does that, leaves alone
what is beside the path, and on the way leaves objects as closed and their other keys in order. -/
theorem edits_local (keyed : (object p closed fs).Keyed) (place : Path) (new : Value) :
    let v := object p closed fs
    Sets place new v (v.withValueAt place new)
      ∧ Removes place v (v.withoutPath place)
      ∧ Keeps place v (v.withOnlyPath place) :=
  ⟨sets_withValueAt p closed fs place new, removes_withoutPath keyed place,
    keeps_withOnlyPath _ place⟩

/-- An edit below a closed object, whose other field stays. -/
theorem edits_local_example :
    let o : Provenance := { origin := .named "test" }
    let v := object o false
      [("a", object o true [("b", null o), ("c", bool o true)]), ("d", null o)]
    let place : Path := ⟨"a", ["b"]⟩
    v.Keyed ∧ Diverge place.keys ["a", "c"]
      ∧ Sets place (bool o false) v (v.withValueAt place (bool o false))
      ∧ Removes place v (v.withoutPath place)
      ∧ Keeps place v (v.withOnlyPath place) := by
  intro o v place
  have keyed : v.Keyed := by
    have leaf {u : Value} (h : u.fields? = none) : u.Keyed := .of_fields?_eq_none h
    refine .object (by decide) fun k u hu => ?_
    simp only [List.mem_cons, Prod.mk.injEq, List.not_mem_nil, or_false] at hu
    obtain ⟨-, rfl⟩ | ⟨-, rfl⟩ := hu
    · refine .object (by decide) fun k u hu => ?_
      simp only [List.mem_cons, Prod.mk.injEq, List.not_mem_nil, or_false] at hu
      obtain ⟨-, rfl⟩ | ⟨-, rfl⟩ := hu <;> exact leaf rfl
    · exact leaf rfl
  exact ⟨keyed, ⟨by decide, by decide⟩, edits_local keyed place (bool o false)⟩

end Value

end Hocon
