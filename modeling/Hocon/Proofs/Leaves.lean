import Hocon.Config
import Hocon.Proofs.Editing
import Hocon.Proofs.Layers
import Hocon.Proofs.PathText
import Hocon.Proofs.PathTrees

/-!
# The leaves of a tree make the tree

The leaves of a resolved tree are the values below objects that are no objects.  Each is at a path
of its own, and none of the paths leads to another one, since nothing lies below a leaf.  A tree
in which every object below the root has a leaf is therefore made again from its leaves
(`Config.ofPathMap?_entries`): in the same order, with the very same leaves, and with objects of
one origin that are open to fallbacks (`Value.remade`).

Leaves are told by their keys from the root of a subtree on (`Value.tips`), so that the leaves of a
field come from those of its value by one more key in front.
-/

namespace Hocon

namespace Entries

variable {α : Type}

theorem put_put (es : Entries α) (key : String) (a b : α) :
    put (put es key a) key b = put es key b := by
  induction es with
  | nil => exact if_pos rfl
  | cons e es ih =>
    by_cases eq : e.1 = key
    · rw [put, if_pos eq, put, if_pos rfl, put, if_pos eq]
    · rw [put, if_neg eq, put, if_neg eq, ih, put, if_neg eq]

end Entries

namespace Value

variable {v u x : Value} {p : Provenance} {closed : Bool} {fs : Entries Value} {key : String}
  {keys : List String} {o : Origin}

/-! ### Equality with itself -/

/-- A tree equals itself if each number does, or is a node that can be told from others. -/
theorem equals_self (wf : v.WellFormed .any) (known : ∀ p n t, (number p n t).Within v →
    n.equals n = true ∨ p.isMarked = true) : v.equals v = true := by
  induction v using parts_induction with
  | node v ih =>
    have part (u : Value) (hu : u ∈ v.parts) : u.equals u = true :=
      ih u hu (wf.parts u hu) fun p n t h => known p n t (h.trans (.part .self hu))
    have items {xs : List Value} (same : ∀ x ∈ xs, x.equals x = true) : itemsEqual xs xs = true :=
      itemsEqual_of_getElem? rfl fun i x y hx hy => by
        cases hx.symm.trans hy
        exact same x (List.mem_of_getElem? hx)
    cases v with
    | null => rfl
    | bool | string | reference => exact beq_iff_eq.2 rfl
    | number p n t =>
      refine Bool.or_eq_true_iff.2 ((known p n t .self).imp_right fun marked => ?_)
      rw [sameNode, show p.mark.isSome = true from marked]
      exact beq_iff_eq.2 rfl
    | object p closed fs =>
      rw [equals, beq_self_eq_true, Bool.true_and]
      exact fieldsEqual_iff.2 fun f hf => ⟨f.2, Entries.get?_of_mem wf.nodup hf,
        part f.2 (mem_parts_of_mem_fields (p := p) (c := closed) hf)⟩
    | list | concat => exact items part
    | merge p k ls =>
      rw [equals, show itemsEqual ls ls = true from items part, Bool.and_true]
      exact beq_iff_eq.2 rfl

/-! ### Objects made again -/

mutual

/-- The tree with new objects, open and of one origin; all else is the same. -/
def remade (o : Origin) : Value → Value
  | object _ _ fs => ofFields o (remadeFields o fs)
  | v => v

def remadeFields (o : Origin) : Entries Value → Entries Value
  | [] => []
  | (k, v) :: fs => (k, v.remade o) :: remadeFields o fs

end

theorem remadeFields_eq (o : Origin) (fs : Entries Value) :
    remadeFields o fs = Entries.mapValues (remade o) fs := by
  induction fs with
  | nil => rfl
  | cons f fs ih =>
    rw [remadeFields, ih]
    rfl

theorem remade_of_fields?_eq_none (hf : v.fields? = none) (o : Origin) : v.remade o = v := by
  cases v <;> first | rfl | cases hf

theorem remade_object (o : Origin) (p : Provenance) (closed : Bool) (fs : Entries Value) :
    (object p closed fs).remade o = ofFields o (Entries.mapValues (remade o) fs) := by
  rw [remade, remadeFields_eq]

theorem peek?_remade (o : Origin) (v : Value) (keys : List String) :
    (v.remade o).peek? keys = (v.peek? keys).map (remade o) := by
  induction keys generalizing v with
  | nil => rfl
  | cons key keys ih =>
    cases hf : v.fields? with
    | none =>
      rw [remade_of_fields?_eq_none hf, peek?_of_fields?_eq_none hf]
      rfl
    | some fs =>
      obtain ⟨p, closed, rfl⟩ := eq_object_of_fields? hf
      rw [remade_object, ofFields, peek?_object, peek?_object, Entries.get?_mapValues]
      cases Entries.get? fs key with
      | none => rfl
      | some u => exact ih u

/-- Where an object was there is one again, with the same keys. -/
theorem exists_object_remade (there : v.peek? keys = some (object p closed fs)) (o : Origin) :
    ∃ gs, (v.remade o).peek? keys = some (ofFields o gs) ∧ Entries.keys gs = Entries.keys fs := by
  refine ⟨Entries.mapValues (remade o) fs, ?_, Entries.keys_mapValues _ _⟩
  rw [peek?_remade, there, Option.map_some, remade_object]

/-- No comparison sees whether objects are new. -/
theorem equals_remade (o : Origin) (v u : Value) : (v.remade o).equals u = v.equals u := by
  induction v using parts_induction generalizing u with
  | node v ih =>
    cases v with
    | object p closed fs =>
      rw [remade_object]
      refine equals_object_congr ?_ u
      rw [Entries.mapValues, List.forall₂_map_left_iff, List.forall₂_same]
      exact fun f hf => ⟨rfl, fun w => ih f.2 (mem_parts_of_mem_fields (p := p) (c := closed) hf) w⟩
    | _ => rfl

/-! ### Leaves by their keys -/

mutual

/-- The leaves of a value with the keys that lead to them; a value that is no object is its own. -/
def tips : Value → List (List String × Value)
  | object _ _ fs => tipsOfFields fs
  | null _ => []
  | v => [([], v)]

def tipsOfFields : Entries Value → List (List String × Value)
  | [] => []
  | (k, v) :: fs => v.tips.map (fun e => (k :: e.1, e.2)) ++ tipsOfFields fs

end

theorem tipsOfFields_eq (fs : Entries Value) :
    tipsOfFields fs = fs.flatMap fun f => f.2.tips.map fun e => (f.1 :: e.1, e.2) := by
  induction fs with
  | nil => rfl
  | cons f fs ih =>
    rw [tipsOfFields, ih]
    rfl

/-- An entry by the keys of its path. -/
def byKeys (e : Path × Value) : List String × Value := (e.1.keys, e.2)

theorem byKeys_leavesOfFields {place : Option Path} (front : List String)
    (lead : ∀ k, (Path.below place k).keys = front ++ [k])
    (ih : ∀ f ∈ fs, ∀ q : Path, (f.2.leavesFrom (some q)).map byKeys
      = f.2.tips.map fun e => (q.keys ++ e.1, e.2)) :
    (leavesOfFields place fs).map byKeys
      = (tipsOfFields fs).map fun e => (front ++ e.1, e.2) := by
  induction fs with
  | nil => rfl
  | cons f fs ihs =>
    obtain ⟨here, rest⟩ := List.forall_mem_cons.1 ih
    rw [leavesOfFields, tipsOfFields, List.map_append, List.map_append, here, ihs rest,
      List.map_map, lead]
    simp

theorem byKeys_leavesFrom (v : Value) (q : Path) :
    (v.leavesFrom (some q)).map byKeys = v.tips.map fun e => (q.keys ++ e.1, e.2) := by
  induction v using parts_induction generalizing q with
  | node v ih =>
    cases v with
    | null => rfl
    | object p closed fs =>
      rw [leavesFrom, tips]
      exact byKeys_leavesOfFields q.keys (fun k => by simp [Path.below, Path.child, Path.keys])
        fun f hf => ih f.2 (mem_parts_of_mem_fields (p := p) (c := closed) hf)
    | _ => simp [leavesFrom, tips, byKeys]

theorem byKeys_leaves (p : Provenance) (closed : Bool) (fs : Entries Value) :
    (object p closed fs).leaves.map byKeys = tipsOfFields fs := by
  rw [leaves, leavesFrom, byKeys_leavesOfFields [] (fun k => rfl)
    fun f _ => byKeys_leavesFrom f.2]
  exact List.map_id _

theorem mem_tipsOfFields {e : List String × Value} (he : e ∈ tipsOfFields fs) :
    ∃ f ∈ fs, ∃ rest, e.1 = f.1 :: rest ∧ (rest, e.2) ∈ f.2.tips := by
  rw [tipsOfFields_eq] at he
  obtain ⟨f, hf, he⟩ := List.mem_flatMap.1 he
  obtain ⟨e', he', rfl⟩ := List.mem_map.1 he
  exact ⟨f, hf, e'.1, rfl, he'⟩

/-- A leaf is where its keys lead, and it is no object. -/
theorem peek?_of_mem_tips (final : v.Final) (h : (keys, x) ∈ v.tips) :
    v.peek? keys = some x ∧ x.fields? = none := by
  induction v using parts_induction generalizing keys with
  | node v ih =>
    cases v with
    | null => cases h
    | object p closed fs =>
      rw [tips] at h
      obtain ⟨f, hf, rest, eq, hr⟩ := mem_tipsOfFields h
      obtain rfl : keys = f.1 :: rest := eq
      have get := Entries.get?_of_mem final.wellFormed.nodup hf
      rw [peek?_object, get]
      exact ih f.2 (mem_parts_of_mem_fields hf) (final.field get) hr
    | _ =>
      obtain ⟨rfl, rfl⟩ := Prod.mk.inj (List.mem_singleton.1 h)
      exact ⟨rfl, rfl⟩

theorem nodup_tipsOfFields (nodup : (Entries.keys fs).Nodup)
    (fields : ∀ f ∈ fs, (f.2.tips.map (·.1)).Nodup) : ((tipsOfFields fs).map (·.1)).Nodup := by
  rw [tipsOfFields_eq, List.map_flatMap]
  refine List.nodup_flatMap.2 ⟨fun f hf => ?_, (List.pairwise_map.1 nodup).imp fun apart => ?_⟩
  · have heads := (fields f hf).map (List.cons_injective (a := f.1))
    rwa [List.map_map] at heads ⊢
  · -- the leaves of two fields differ in their first key
    intro keys hf hg
    simp only [List.map_map, List.mem_map] at hf hg
    obtain ⟨e, -, rfl⟩ := hf
    obtain ⟨e', -, eq⟩ := hg
    exact apart (List.cons.inj eq).1.symm

/-- No two leaves are at one place. -/
theorem nodup_tips (final : v.Final) : (v.tips.map (·.1)).Nodup := by
  induction v using parts_induction with
  | node v ih =>
    cases v with
    | null => exact List.nodup_nil
    | object p closed fs =>
      rw [tips]
      refine nodup_tipsOfFields final.wellFormed.nodup fun f hf => ?_
      exact ih f.2 (mem_parts_of_mem_fields hf)
        (final.field (Entries.get?_of_mem final.wellFormed.nodup hf))
    | _ => exact List.nodup_singleton _

theorem nodup_paths_leaves (final : (object p closed fs).Final) :
    ((object p closed fs).leaves.map (·.1)).Nodup := by
  have nodup := nodup_tips final
  rw [tips, ← byKeys_leaves p closed fs, List.map_map] at nodup
  refine List.Nodup.of_map Path.keys ?_
  rw [List.map_map]
  exact nodup

/-! ### Trees without bare ends -/

/-- Below the root are no nulls and no objects without fields. -/
def Filled (v : Value) : Prop := ∀ key keys u, v.peek? (key :: keys) = some u →
  u.isNull = false ∧ u.isEmptyObject = false

theorem Filled.field (h : (object p closed fs).Filled) (get : Entries.get? fs key = some u) :
    u.isNull = false ∧ u.isEmptyObject = false ∧ u.Filled := by
  have here (keys : List String) : (object p closed fs).peek? (key :: keys) = u.peek? keys := by
    rw [peek?_object, get]
    rfl
  obtain ⟨null, empty⟩ := h key [] u (here [])
  exact ⟨null, empty, fun next keys w hw => h key (next :: keys) w ((here _).trans hw)⟩

theorem Filled.of_fields?_eq_none (hf : v.fields? = none) : v.Filled := by
  intro key keys u at_
  rw [peek?_of_fields?_eq_none hf] at at_
  cases at_

theorem Filled.object
    (fields : ∀ f ∈ fs, f.2.isNull = false ∧ f.2.isEmptyObject = false ∧ f.2.Filled) :
    (object p closed fs).Filled := by
  intro key keys u at_
  obtain ⟨w, get, at_⟩ := Option.bind_eq_some_iff.1 at_
  obtain ⟨null, empty, filled⟩ := fields (key, w) (Entries.mem_of_get? get)
  cases keys with
  | nil =>
    cases at_
    exact ⟨null, empty⟩
  | cons next keys => exact filled next keys u at_

/-- Such a tree has a leaf. -/
theorem tips_ne_nil (final : v.Final) (null : v.isNull = false) (empty : v.isEmptyObject = false)
    (filled : v.Filled) : v.tips ≠ [] := by
  induction v using parts_induction with
  | node v ih =>
    cases v with
    | null => cases null
    | object p closed fs =>
      cases fs with
      | nil => cases empty
      | cons f fs =>
        have get : Entries.get? (f :: fs) f.1 = some f.2 := if_pos rfl
        obtain ⟨null, empty, filled⟩ := filled.field get
        have nonempty := ih f.2 (mem_parts_of_mem_fields (List.mem_cons_self)) (final.field get)
          null empty filled
        simp [tips, tipsOfFields, nonempty]
    | _ => simp [tips]

end Value

open Value

/-! ### Leaves put in order -/

namespace PathTree

variable {ts : Entries PathTree} {key : String} {es : List (List String × Value)}

/-- The branch with several values, put there one after the other. -/
def insertAll? (es : List (List String × Value)) (ts : Entries PathTree) :
    Option (Entries PathTree) :=
  es.foldlM (fun ts e => insert? e.2 e.1 ts) ts

theorem insertAll?_cons (e : List String × Value) (es : List (List String × Value))
    (ts : Entries PathTree) :
    insertAll? (e :: es) ts = (insert? e.2 e.1 ts).bind (insertAll? es) := by
  rw [insertAll?, List.foldlM_cons]
  rfl

theorem insertAll?_append (es es' : List (List String × Value)) (ts : Entries PathTree) :
    insertAll? (es ++ es') ts = (insertAll? es ts).bind (insertAll? es') := by
  rw [insertAll?, List.foldlM_append]
  rfl

/-- What is put behind a key goes into the branch at that key. -/
theorem insertAll?_behind (more : ∀ e ∈ es, e.1 ≠ []) (ts : Entries PathTree) (key : String)
    (inner : Entries PathTree) :
    insertAll? (es.map fun e => (key :: e.1, e.2)) (Entries.put ts key (branch inner))
      = (insertAll? es inner).map fun inner => Entries.put ts key (branch inner) := by
  induction es generalizing inner with
  | nil => rfl
  | cons e es ih =>
    obtain ⟨here, rest⟩ := List.forall_mem_cons.1 more
    rw [List.map_cons, insertAll?_cons, insertAll?_cons,
      insert?_of_branch here (Entries.get?_put_self ts key _)]
    simp only [Entries.put_put]
    cases insert? e.2 e.1 inner with
    | none => rfl
    | some inner => exact ih rest inner

/-- The first value behind a new key makes its branch. -/
theorem insertAll?_behind_of_absent (nonempty : es ≠ []) (more : ∀ e ∈ es, e.1 ≠ [])
    (absent : Entries.get? ts key = none) :
    insertAll? (es.map fun e => (key :: e.1, e.2)) ts
      = (insertAll? es []).map fun inner => Entries.put ts key (branch inner) := by
  obtain ⟨e, es, rfl⟩ := List.exists_cons_of_ne_nil nonempty
  obtain ⟨here, rest⟩ := List.forall_mem_cons.1 more
  rw [List.map_cons, insertAll?_cons, insertAll?_cons, insert?_of_absent here absent]
  cases insert? e.2 e.1 [] with
  | none => rfl
  | some inner => exact insertAll?_behind rest ts key inner

/-- The leaves of fields make a branch with one field for each, behind what was there. -/
theorem exists_insertAll?_tipsOfFields {o : Origin} (ts : Entries PathTree) {fs : Entries Value}
    (nodup : (Entries.keys ts ++ Entries.keys fs).Nodup)
    (fields : ∀ f ∈ fs, ∀ ts, f.1 ∉ Entries.keys ts → ∃ t,
      insertAll? (f.2.tips.map fun e => (f.1 :: e.1, e.2)) ts = some (Entries.put ts f.1 t)
        ∧ t.toValue o = f.2.remade o) :
    ∃ ts', insertAll? (tipsOfFields fs) ts = some (ts ++ ts')
      ∧ childValues o ts' = remadeFields o fs := by
  induction fs generalizing ts with
  | nil => exact ⟨[], by rw [List.append_nil]; rfl, rfl⟩
  | cons f fs ih =>
    obtain ⟨here, rest⟩ := List.forall_mem_cons.1 fields
    have absent : f.1 ∉ Entries.keys ts := fun mem =>
      (List.nodup_append.1 nodup).2.2 f.1 mem f.1 List.mem_cons_self rfl
    obtain ⟨t, inserted, made⟩ := here ts absent
    rw [Entries.put_of_not_mem absent] at inserted
    obtain ⟨ts', inserted', made'⟩ := ih (ts ++ [(f.1, t)])
      (by simpa [Entries.keys] using nodup) rest
    refine ⟨(f.1, t) :: ts', ?_, ?_⟩
    · rw [tipsOfFields, insertAll?_append, inserted, Option.bind_some, inserted']
      simp
    · rw [childValues, remadeFields, made, made']

/-- The leaves of a value behind a new key make a tree of that value. -/
theorem exists_insertAll?_tips (o : Origin) {v : Value} (final : v.Final) (null : v.isNull = false)
    (empty : v.isEmptyObject = false) (filled : v.Filled) (absent : key ∉ Entries.keys ts) :
    ∃ t, insertAll? (v.tips.map fun e => (key :: e.1, e.2)) ts = some (Entries.put ts key t)
      ∧ t.toValue o = v.remade o := by
  induction v using parts_induction generalizing key ts with
  | node v ih =>
    cases v with
    | null => cases null
    | object p closed fs =>
      obtain ⟨ts', inserted, made⟩ := exists_insertAll?_tipsOfFields (o := o) []
        final.wellFormed.nodup fun f hf ts absent => by
          have get := Entries.get?_of_mem final.wellFormed.nodup hf
          obtain ⟨null, empty, filled⟩ := filled.field get
          exact ih f.2 (mem_parts_of_mem_fields hf) (final.field get) null empty filled absent
      -- what the fields make on their own they make behind the key, where nothing is yet
      refine ⟨branch ts', ?_, by rw [toValue, remade, made]⟩
      rw [insertAll?_behind_of_absent (tips_ne_nil final null empty filled) (fun e he => ?_)
        (Entries.get?_eq_none_iff.2 absent), tips, inserted]
      · rfl
      · rw [tips] at he
        obtain ⟨f, -, rest, eq, -⟩ := mem_tipsOfFields he
        rw [eq]
        exact List.cons_ne_nil _ _
    | _ => exact ⟨leaf _, rfl, by rw [toValue]; rfl⟩

end PathTree

/-! ### Back again -/

namespace PathMap

variable {p : Provenance} {closed : Bool} {fs : Entries Value} {all rest : List (Path × Value)}

theorem build_of_insertAll? (consistent : Consistent all) (sub : rest ⊆ all) (objectsWin : Bool)
    {ts ts' : Entries PathTree} (inserted : PathTree.insertAll? (rest.map byKeys) ts = some ts') :
    build all objectsWin rest ts = .ok ts' := by
  induction rest generalizing ts with
  | nil =>
    cases inserted
    rfl
  | cons e rest ih =>
    obtain ⟨he, sub⟩ := List.cons_subset.1 sub
    rw [List.map_cons, PathTree.insertAll?_cons] at inserted
    obtain ⟨ts₁, first, inserted⟩ := Option.bind_eq_some_iff.1 inserted
    rw [build, isScope_eq_false_iff.2 (consistent e he), if_neg Bool.false_ne_true,
      show PathTree.insert? e.2 e.1.keys ts = some ts₁ from first]
    exact ih sub inserted

/-- No leaf lies on the way to another one. -/
theorem consistent_leaves (final : (object p closed fs).Final) :
    Consistent (object p closed fs).leaves := by
  have at_ (e) (he : e ∈ (object p closed fs).leaves) :
      (object p closed fs).peek? e.1.keys = some e.2 ∧ e.2.fields? = none := by
    refine peek?_of_mem_tips final ?_
    rw [tips, ← byKeys_leaves p closed fs]
    exact List.mem_map_of_mem (f := byKeys) he
  -- a path that goes on from a leaf goes on into what is no object
  intro e he e' he' ⟨⟨more, eq⟩, ne⟩
  obtain ⟨here, leaf_⟩ := at_ e he
  obtain ⟨there, -⟩ := at_ e' he'
  cases more with
  | nil => exact ne (Path.keys_inj.1 (by rw [← eq, List.append_nil]))
  | cons key keys =>
    rw [← eq, peek?_append, here, Option.bind_some, peek?_of_fields?_eq_none leaf_] at there
    cases there

theorem toValue?_leaves (o : Origin) (objectsWin : Bool) (final : (object p closed fs).Final)
    (filled : (object p closed fs).Filled) :
    toValue? o (object p closed fs).leaves objectsWin = .ok ((object p closed fs).remade o) := by
  obtain ⟨ts, inserted, made⟩ := PathTree.exists_insertAll?_tipsOfFields (o := o) []
    final.wellFormed.nodup fun f hf ts absent => by
      have get := Entries.get?_of_mem final.wellFormed.nodup hf
      obtain ⟨null, empty, filled⟩ := filled.field get
      exact PathTree.exists_insertAll?_tips o (final.field get) null empty filled absent
  rw [← byKeys_leaves p closed fs] at inserted
  have built := build_of_insertAll? (consistent_leaves final) (List.Subset.refl _) objectsWin
    inserted
  rw [toValue?, built, remade, ← made]
  show Except.ok ((PathTree.branch ts).toValue o) = _
  rw [PathTree.toValue]

end PathMap

theorem Path.render_injective : Function.Injective Path.render := by
  intro p q eq
  have read := congrArg Path.ofText? eq
  rw [Path.ofText?_render, Path.ofText?_render] at read
  exact Except.ok.inj read

namespace Config

/-- The texts of paths are read as these paths. -/
theorem mapM_ofParameter?_render (es : List (Path × Value)) :
    (es.map fun e => (e.1.render, e.2)).mapM
      (fun e => do return (← Path.ofParameter? e.1, e.2)) = (.ok es : Except Error _) := by
  induction es with
  | nil => rfl
  | cons e es ih =>
    have read : Path.ofParameter? e.1.render = .ok e.1 := by
      rw [Path.ofParameter?, Path.ofText?_render]
    rw [List.map_cons, List.mapM_cons, ih, read]
    rfl

/-- **The entries of a configuration make the configuration**: paths are read back from their
texts, and what they make is the tree with new objects, which have the same keys in the same order.
It equals the tree; only a number that is not equal to itself has to be known as one node for that.
The texts of the paths differ from each other. -/
theorem ofPathMap?_entries {c : Config} (final : c.root.Final) (filled : c.root.Filled) :
    (∃ d, ofPathMap? c.entries = .ok d ∧ d.root = c.root.remade (.named "hardcoded value")
      ∧ (∀ u, d.root.equals u = c.root.equals u)
      ∧ ((∀ p n t, (number p n t).Within c.root → n.equals n = true ∨ p.isMarked = true) →
        d.root.equals c.root = true)
      ∧ ∀ keys p closed fs, c.root.peek? keys = some (object p closed fs) →
        ∃ gs, d.root.peek? keys = some (.ofFields (.named "hardcoded value") gs)
          ∧ Entries.keys gs = Entries.keys fs)
    ∧ (c.entries.map (·.1)).Nodup := by
  obtain ⟨root, isObject⟩ := c
  obtain ⟨p, closed, fs, rfl⟩ : ∃ p closed fs, root = object p closed fs := by
    cases root with
    | object p closed fs => exact ⟨p, closed, fs, rfl⟩
    | merge => cases final.resolved
    | _ => cases isObject
  refine ⟨⟨⟨(object p closed fs).remade (.named "hardcoded value"), rfl⟩, ?_, rfl,
    equals_remade _ _, fun known => ?_, fun _ _ _ _ there => exists_object_remade there _⟩, ?_⟩
  · -- the texts are read as the paths of the leaves, and these make the tree
    rw [ofPathMap?, entries, mapM_ofParameter?_render]
    show (PathMap.toValue? _ (object p closed fs).leaves false >>= ofValue?) = _
    rw [PathMap.toValue?_leaves _ false final filled]
    rfl
  · exact (equals_remade _ _ _).trans (equals_self final.wellFormed known)
  · have texts := (nodup_paths_leaves final).map Path.render_injective
    rw [List.map_map] at texts
    rw [entries, List.map_map]
    exact texts

/-- A tree with a key that has to be quoted, and a closed object. -/
theorem ofPathMap?_entries_example :
    let p : Provenance := { origin := .named "example" }
    let c : Config := ⟨object p false [("a.b", object p true [("c", bool p true)]),
      ("d", list p [null p])], rfl⟩
    (c.root.Final ∧ c.root.Filled)
      ∧ (∃ d, ofPathMap? c.entries = .ok d ∧ d.root = c.root.remade (.named "hardcoded value")
        ∧ (∀ u, d.root.equals u = c.root.equals u)
        ∧ ((∀ p n t, (number p n t).Within c.root → n.equals n = true ∨ p.isMarked = true) →
          d.root.equals c.root = true)
        ∧ ∀ keys p closed fs, c.root.peek? keys = some (object p closed fs) →
          ∃ gs, d.root.peek? keys = some (.ofFields (.named "hardcoded value") gs)
            ∧ Entries.keys gs = Entries.keys fs)
      ∧ (c.entries.map (·.1)).Nodup := by
  intro p c
  have final : c.root.Final := by
    have flag : (bool p true).Final := .leaf (.bool (fun _ _ => trivial) true) rfl rfl
    have inner : (object p true [("c", bool p true)]).Final :=
      .ofFields p true (by decide) (List.forall_mem_singleton.2 flag)
    have items : (list p [null p]).WellFormed .any :=
      .list (fun _ _ => trivial) (List.forall_mem_singleton.2 (.null fun _ _ => trivial))
    exact .ofFields p false (by decide)
      (List.forall_mem_cons.2 ⟨inner, List.forall_mem_singleton.2 ⟨items, rfl⟩⟩)
  have filled : c.root.Filled := by
    have inner : (object p true [("c", bool p true)]).Filled :=
      .object (List.forall_mem_singleton.2 ⟨rfl, rfl, .of_fields?_eq_none rfl⟩)
    exact .object (List.forall_mem_cons.2 ⟨⟨rfl, rfl, inner⟩,
      List.forall_mem_singleton.2 ⟨rfl, rfl, .of_fields?_eq_none rfl⟩⟩)
  exact ⟨⟨final, filled⟩, ofPathMap?_entries final filled⟩

end Config

end Hocon
