import Hocon.Proofs.Including
import Hocon.Proofs.Rewriting

/-!
# Trees from paths hold what their entries say

A list of paths with values is consistent if none of its paths leads on to another one.  A
consistent list makes a tree that holds the last value given for each path, and on the ways to them
objects (`PathMap.Planted`).  Another list makes none, or, where objects win, the tree of its
entries whose paths lead to no other (`PathMap.kept`); so a document of `key=value` lines always
makes a tree (`PathMap.toValue?_planted`).

A tree under construction is told by what a walk along some keys ends at (`PathTree.look`).  An
entry that is put into it changes that at its own path and in front of it only, and never meets a
value there: the paths that are in the way have been sorted out before.
-/

namespace Hocon

open Value

/-! ### Paths that lead to others -/

/-- Further keys lead from the first path to the second. -/
def Path.LeadsTo (p q : Path) : Prop := p.keys <+: q.keys ∧ p ≠ q

instance (p q : Path) : Decidable (p.LeadsTo q) := inferInstanceAs (Decidable (_ ∧ _))

namespace Path

variable {p q : Path}

theorem keys_inj : p.keys = q.keys ↔ p = q := by
  refine ⟨fun eq => ?_, congrArg keys⟩
  have := congrArg ofKeys? eq
  rw [ofKeys?_keys, ofKeys?_keys] at this
  exact Option.some.inj this

theorem leadsTo_iff : p.LeadsTo q ↔ p.length < q.length ∧ q.startsWith p = true := by
  rw [LeadsTo, startsWith, List.isPrefixOf_iff_prefix, and_comm]
  refine and_congr_left fun le => ⟨fun ne => ?_, fun lt eq => ?_⟩
  · exact Nat.lt_of_le_of_ne le.length_le fun eq => ne (keys_inj.1 (le.eq_of_length eq))
  · exact absurd lt (by rw [eq]; exact Nat.lt_irrefl _)

end Path

namespace PathMap

variable {o : Origin} {entries all done rest : List (Path × Value)} {p : Path} {x : Value}
  {keys : List String}

/-- The path leads to none of the entries. -/
def IsEnd (entries : List (Path × Value)) (p : Path) : Prop := ∀ e ∈ entries, ¬ p.LeadsTo e.1

instance (entries : List (Path × Value)) (p : Path) : Decidable (IsEnd entries p) :=
  inferInstanceAs (Decidable (∀ e ∈ entries, _))

/-- The keys are the root's or those of a place on the way to an entry. -/
def IsWay (entries : List (Path × Value)) (keys : List String) : Prop :=
  keys = [] ∨ ∃ e ∈ entries, keys <+: e.1.keys ∧ keys ≠ e.1.keys

instance (entries : List (Path × Value)) (keys : List String) : Decidable (IsWay entries keys) :=
  inferInstanceAs (Decidable (_ ∨ _))

/-- No path leads to another one. -/
def Consistent (entries : List (Path × Value)) : Prop := ∀ e ∈ entries, IsEnd entries e.1

/-- The entries whose paths lead to no other one. -/
def kept (entries : List (Path × Value)) : List (Path × Value) :=
  entries.filter fun e => IsEnd entries e.1

/-- The value of the last entry with a path. -/
def lastAt? (entries : List (Path × Value)) (p : Path) : Option Value :=
  (entries.reverse.find? fun e => e.1 = p).map (·.2)

theorem isScope_iff : isScope entries p = true ↔ ∃ e ∈ entries, p.LeadsTo e.1 := by
  simp only [isScope, List.any_eq_true, Bool.and_eq_true, decide_eq_true_eq, Path.leadsTo_iff]

theorem isScope_eq_false_iff : isScope entries p = false ↔ IsEnd entries p := by
  rw [← Bool.not_eq_true, isScope_iff, IsEnd]
  simp only [not_exists, not_and]

theorem mem_kept {e : Path × Value} :
    e ∈ kept entries ↔ e ∈ entries ∧ IsEnd entries e.1 := by
  rw [kept, List.mem_filter, decide_eq_true_eq]

theorem consistent_kept (entries : List (Path × Value)) : Consistent (kept entries) :=
  fun _ he _ he' => (mem_kept.1 he).2 _ (mem_kept.1 he').1

theorem lastAt?_append (entries : List (Path × Value)) (q : Path) (y : Value) (p : Path) :
    lastAt? (entries ++ [(q, y)]) p = if q = p then some y else lastAt? entries p := by
  rw [lastAt?, List.reverse_append, List.reverse_singleton, List.singleton_append, List.find?_cons]
  by_cases eq : q = p
  · simp [eq]
  · simp [eq, lastAt?]

theorem exists_lastAt? {e : Path × Value} (he : e ∈ entries) :
    ∃ x, lastAt? entries e.1 = some x := by
  have found : (entries.reverse.find? fun f => f.1 = e.1).isSome := by
    rw [List.find?_isSome]
    exact ⟨e, List.mem_reverse.2 he, decide_eq_true rfl⟩
  obtain ⟨f, hf⟩ := Option.isSome_iff_exists.1 found
  exact ⟨f.2, by rw [lastAt?, hf]; rfl⟩

theorem mem_of_lastAt? (h : lastAt? entries p = some x) : (p, x) ∈ entries := by
  obtain ⟨e, found, rfl⟩ := Option.map_eq_some_iff.1 h
  have same : e.1 = p := by simpa using List.find?_some found
  rw [← same]
  exact List.mem_reverse.1 (List.mem_of_find?_eq_some found)

/-- An entry that is kept is the last one among all if it is among those that are kept. -/
theorem lastAt?_kept (free : IsEnd entries p) :
    lastAt? (kept entries) p = lastAt? entries p := by
  have same : (fun e : Path × Value => decide (decide (IsEnd entries e.1) ∧ decide (e.1 = p)))
      = fun e => decide (e.1 = p) := by
    funext e
    by_cases eq : e.1 = p
    · simp [eq, free]
    · simp [eq]
  rw [lastAt?, kept, ← List.filter_reverse, List.find?_filter, same, lastAt?]

end PathMap

/-! ### What a walk ends at -/

namespace PathTree

variable {o : Origin} {v x : Value} {ts : Entries PathTree} {t : PathTree} {key : String}
  {keys : List String}

/-- The value of a leaf. -/
def value? : PathTree → Option Value
  | leaf v => some v
  | branch _ => none

/-- What some keys lead to: a value, or a branch, which has none. -/
def look : PathTree → List String → Option (Option Value)
  | t, [] => some t.value?
  | leaf _, _ :: _ => none
  | branch ts, key :: keys => (Entries.get? ts key).bind fun t => t.look keys

theorem look_branch_cons (ts : Entries PathTree) (key : String) (keys : List String) :
    (branch ts).look (key :: keys) = (Entries.get? ts key).bind fun t => t.look keys := by
  rw [look]

theorem look_nil (t : PathTree) : t.look [] = some t.value? := by
  cases t <;> rw [look]

theorem look_leaf (v : Value) (keys : List String) :
    (leaf v).look keys = if keys = [] then some (some v) else none := by
  cases keys <;> simp [look, value?]

theorem look_branch_nil (keys : List String) :
    (branch []).look keys = if keys = [] then some none else none := by
  cases keys <;> simp [look, value?, Entries.get?]

/-- What is put at one key, below what was there. -/
theorem look_put (ts : Entries PathTree) (key : String) (t : PathTree) (other : String)
    (keys : List String) :
    (branch (Entries.put ts key t)).look (other :: keys)
      = if other = key then t.look keys else (branch ts).look (other :: keys) := by
  rw [look_branch_cons, look_branch_cons, Entries.get?_put]
  split <;> rfl

/-- Where the keys go on and nothing is at the first of them, a value is put into a new branch. -/
theorem insert?_of_absent (more : keys ≠ []) (get : Entries.get? ts key = none) (x : Value) :
    insert? x (key :: keys) ts
      = (insert? x keys []).map fun inner => Entries.put ts key (branch inner) := by
  obtain ⟨next, keys, rfl⟩ := List.exists_cons_of_ne_nil more
  simp only [insert?, get]

/-- Where the keys go on, a value is put into the branch at the first of them. -/
theorem insert?_of_branch {inner : Entries PathTree} (more : keys ≠ [])
    (get : Entries.get? ts key = some (branch inner)) (x : Value) :
    insert? x (key :: keys) ts
      = (insert? x keys inner).map fun inner => Entries.put ts key (branch inner) := by
  obtain ⟨next, keys, rfl⟩ := List.exists_cons_of_ne_nil more
  simp only [insert?, get]

theorem exists_insert?_cons (more : keys ≠ [])
    (free : ∀ v, (branch ts).look [key] ≠ some (some v)) :
    ∃ inner, (∀ q, q ≠ [] → (branch ts).look (key :: q) = (branch inner).look q)
      ∧ ∀ x, insert? x (key :: keys) ts
          = (insert? x keys inner).map fun inner => Entries.put ts key (branch inner) := by
  cases get : Entries.get? ts key with
  | none =>
    refine ⟨[], fun q ne => ?_, insert?_of_absent more get⟩
    rw [look_branch_cons, get, look_branch_nil, if_neg ne]
    rfl
  | some t =>
    cases t with
    | leaf v =>
      refine absurd ?_ (free v)
      rw [look_branch_cons, get]
      exact look_nil _
    | branch inner =>
      refine ⟨inner, fun q _ => ?_, insert?_of_branch more get⟩
      rw [look_branch_cons, get]
      rfl

/-- Where no branch is, nothing lies further on. -/
theorem look_eq_none_of_noBranch (noBranch : (branch ts).look [key] ≠ some none)
    (more : keys ≠ []) : (branch ts).look (key :: keys) = none := by
  rw [look_branch_cons] at noBranch ⊢
  cases get : Entries.get? ts key with
  | none => rfl
  | some t =>
    cases t with
    | leaf v => exact (look_leaf v keys).trans (if_neg more)
    | branch inner =>
      rw [get] at noBranch
      exact absurd (look_nil _) noBranch

/-- A value is put at a single key where no branch is. -/
theorem look_put_leaf (noBranch : (branch ts).look [key] ≠ some none) (x : Value)
    (q : List String) :
    (branch (Entries.put ts key (leaf x))).look q =
      if q = [key] then some (some x) else if q <+: [key] then some none
      else (branch ts).look q := by
  cases q with
  | nil => simp [look_nil, value?]
  | cons other q =>
    rw [look_put, look_leaf]
    simp only [List.cons.injEq, List.cons_prefix_cons, List.prefix_nil]
    by_cases eq : other = key
    · subst eq
      by_cases last : q = []
      · simp [last]
      · simp [last, look_eq_none_of_noBranch noBranch last]
    · simp [eq]

/-- A value is put where neither a branch is nor a value on the way; it is there then, with branches
on the way to it, and what else there was is there still. -/
theorem exists_insert? (ts : Entries PathTree) (nonempty : keys ≠ [])
    (noBranch : (branch ts).look keys ≠ some none)
    (noValue : ∀ q, q <+: keys → q ≠ keys → ∀ v, (branch ts).look q ≠ some (some v)) (x : Value) :
    ∃ ts', insert? x keys ts = some ts' ∧ ∀ q, (branch ts').look q =
      if q = keys then some (some x) else if q <+: keys then some none else (branch ts).look q := by
  induction keys generalizing ts with
  | nil => exact absurd rfl nonempty
  | cons key keys ih =>
    by_cases more : keys = []
    · subst more
      exact ⟨Entries.put ts key (leaf x), rfl, look_put_leaf noBranch x⟩
    · obtain ⟨inner, below, insert_⟩ := exists_insert?_cons more
        (noValue [key] (by simp) (by simpa using Ne.symm more))
      have noValue_inner (q : List String) (le : q <+: keys) (ne : q ≠ keys) (v : Value) :
          (branch inner).look q ≠ some (some v) := by
        by_cases q_nil : q = []
        · simp [q_nil, look_nil, value?]
        · rw [← below q q_nil]
          exact noValue (key :: q) ((List.prefix_cons_inj key).2 le) (by simpa using ne) v
      obtain ⟨inner', inserted, look_⟩ :=
        ih inner more (by rwa [← below keys more]) noValue_inner
      refine ⟨_, by rw [insert_, inserted, Option.map_some], fun q => ?_⟩
      cases q with
      | nil => simp [look_nil, value?]
      | cons other q =>
        rw [look_put, look_]
        simp only [List.cons.injEq, List.cons_prefix_cons]
        by_cases eq : other = key
        · subst eq
          by_cases q_nil : q = []
          · simp [q_nil, Ne.symm more]
          · simp [below q q_nil]
        · simp [eq]

/-! ### The value of a tree -/

theorem childValues_eq (o : Origin) (ts : Entries PathTree) :
    childValues o ts = Entries.mapValues (toValue o) ts := by
  induction ts with
  | nil => rfl
  | cons e ts ih =>
    rw [childValues, ih]
    rfl

theorem peek?_toValue_branch (o : Origin) (ts : Entries PathTree) (key : String)
    (keys : List String) :
    ((branch ts).toValue o).peek? (key :: keys)
      = (Entries.get? ts key).bind fun t => (t.toValue o).peek? keys := by
  rw [toValue, ofFields, peek?_object, childValues_eq, Entries.get?_mapValues]
  cases Entries.get? ts key <;> rfl

/-- A value of the tree is what its value holds at the same place. -/
theorem peek?_toValue_of_look (h : t.look keys = some (some x)) :
    (t.toValue o).peek? keys = some x := by
  induction keys generalizing t with
  | nil =>
    rw [look_nil] at h
    cases t with
    | leaf v =>
      cases h
      rw [toValue]
      rfl
    | branch ts => cases h
  | cons key keys ih =>
    cases t with
    | leaf v => cases h
    | branch ts =>
      rw [look_branch_cons] at h
      obtain ⟨t, get, h⟩ := Option.bind_eq_some_iff.1 h
      rw [peek?_toValue_branch, get]
      exact ih h

/-- What the value of a tree holds at some keys: something inside a value of the tree, or the object
of a branch. -/
theorem look_of_peek?_toValue (ht : t.Holds fun _ => True)
    (h : (t.toValue o).peek? keys = some v) :
    (∃ front x inner, keys = front ++ inner ∧ t.look front = some (some x)
      ∧ x.peek? inner = some v)
    ∨ t.look keys = some none ∧ ∃ fs, v = ofFields o fs ∧ (Entries.keys fs).Nodup := by
  induction keys generalizing t with
  | nil =>
    rw [look_nil]
    cases ht with
    | leaf =>
      rw [toValue] at h
      exact .inl ⟨[], _, [], rfl, look_nil _, h⟩
    | @branch ts nodup =>
      rw [toValue, childValues_eq] at h
      cases h
      exact .inr ⟨rfl, _, rfl, (Entries.keys_mapValues (toValue o) ts).symm ▸ nodup⟩
  | cons key keys ih =>
    cases t with
    | leaf x =>
      rw [toValue] at h
      exact .inl ⟨[], x, key :: keys, rfl, look_nil _, h⟩
    | branch ts =>
      rw [peek?_toValue_branch] at h
      obtain ⟨t, get, h⟩ := Option.bind_eq_some_iff.1 h
      rcases ih (ht.child get) h with ⟨front, x, inner, rfl, there, inside⟩ | ⟨there, object⟩
      · exact .inl ⟨key :: front, x, inner, rfl, by rw [look_branch_cons, get]; exact there, inside⟩
      · exact .inr ⟨by rw [look_branch_cons, get]; exact there, object⟩

end PathTree

namespace PathMap

variable {o : Origin} {entries all done rest : List (Path × Value)} {p : Path} {x v : Value}
  {keys : List String} {tree : Entries PathTree} {error : Error}

/-! ### Building -/

/-- What the tree of some entries has at some keys: branches on the way to paths, and the last value
of each path. -/
def sketch (entries : List (Path × Value)) (keys : List String) : Option (Option Value) :=
  if IsWay entries keys then some none
  else (Path.ofKeys? keys).bind fun p => (lastAt? entries p).map some

theorem isWay_of_sketch (h : sketch entries keys = some none) : IsWay entries keys := by
  rw [sketch] at h
  split at h
  · next way => exact way
  · obtain ⟨q, -, h⟩ := Option.bind_eq_some_iff.1 h
    obtain ⟨y, -, h⟩ := Option.map_eq_some_iff.1 h
    cases h

theorem isWay_keys_iff : IsWay entries p.keys ↔ ∃ e ∈ entries, p.LeadsTo e.1 := by
  refine ⟨fun way => ?_, fun ⟨e, he, le, ne⟩ => .inr ⟨e, he, le, mt Path.keys_inj.1 ne⟩⟩
  obtain ⟨e, he, le, ne⟩ := way.resolve_left p.keys_ne_nil
  exact ⟨e, he, le, fun eq => ne (congrArg Path.keys eq)⟩

theorem not_isWay_iff : ¬ IsWay entries p.keys ↔ IsEnd entries p := by
  rw [isWay_keys_iff, IsEnd]
  simp only [not_exists, not_and]

/-- A value of the tree is that of an entry whose path leads to no other. -/
theorem exists_lastAt?_of_sketch (h : sketch entries keys = some (some x)) :
    ∃ p : Path, p.keys = keys ∧ lastAt? entries p = some x ∧ IsEnd entries p := by
  rw [sketch] at h
  split at h
  · cases h
  · next way =>
    obtain ⟨p, hp, h⟩ := Option.bind_eq_some_iff.1 h
    obtain ⟨y, last, h⟩ := Option.map_eq_some_iff.1 h
    cases h
    cases keys with
    | nil => cases hp
    | cons key keys =>
      cases hp
      exact ⟨_, rfl, last, not_isWay_iff.1 way⟩

theorem sketch_of_lastAt? (last : lastAt? entries p = some x)
    (free : IsEnd entries p) : sketch entries p.keys = some (some x) := by
  rw [sketch, if_neg (not_isWay_iff.2 free), Path.ofKeys?_keys, Option.bind_some, last,
    Option.map_some]

/-- One more entry, whose path is on the way to none before it. -/
theorem sketch_append (free : IsEnd entries p) (x : Value) (keys : List String) :
    sketch (entries ++ [(p, x)]) keys =
      if keys = p.keys then some (some x) else if keys <+: p.keys then some none
      else sketch entries keys := by
  by_cases eq : keys = p.keys
  · rw [if_pos eq, eq]
    refine sketch_of_lastAt? (by rw [lastAt?_append, if_pos rfl]) fun e he => ?_
    rcases List.mem_append.1 he with he | he
    · exact free e he
    · rw [List.mem_singleton.1 he]
      exact fun leads => leads.2 rfl
  · rw [if_neg eq, sketch]
    by_cases le : keys <+: p.keys
    · rw [if_pos le, if_pos (.inr ⟨(p, x), by simp, le, eq⟩)]
    · have ways : IsWay (entries ++ [(p, x)]) keys ↔ IsWay entries keys := by
        simp [IsWay, or_and_right, exists_or, le]
      cases keys with
      | nil => exact absurd List.nil_prefix le
      | cons key keys =>
        have ne : p ≠ ⟨key, keys⟩ := fun same => eq (congrArg Path.keys same).symm
        simp only [if_neg le, sketch, ways, Path.ofKeys?, Option.bind_some, lastAt?_append,
          if_neg ne]

/-- One step: an entry that leads to none of all, and that none leads to, goes into the tree. -/
theorem exists_insert?_entry (split : all = done ++ (p, x) :: rest)
    (free : ∀ e ∈ done, IsEnd all e.1) (here : IsEnd all p)
    (grown : ∀ q, (PathTree.branch tree).look q = sketch done q) :
    ∃ tree', PathTree.insert? x p.keys tree = some tree'
      ∧ ∀ q, (PathTree.branch tree').look q = sketch (done ++ [(p, x)]) q := by
  have done_sub {e} (he : e ∈ done) : e ∈ all := split ▸ List.mem_append_left _ he
  have p_mem : (p, x) ∈ all := by rw [split]; simp
  have noBranch : (PathTree.branch tree).look p.keys ≠ some none := by
    -- it would be there for an entry that the path leads to
    intro branch_
    rw [grown] at branch_
    obtain ⟨e, he, leads⟩ := isWay_keys_iff.1 (isWay_of_sketch branch_)
    exact here e (done_sub he) leads
  have noValue (q : List String) (le : q <+: p.keys) (ne : q ≠ p.keys) (v : Value) :
      (PathTree.branch tree).look q ≠ some (some v) := by
    -- it would be that of an entry whose path leads to this one
    intro leaf_
    rw [grown] at leaf_
    obtain ⟨p', rfl, last, -⟩ := exists_lastAt?_of_sketch leaf_
    exact free _ (mem_of_lastAt? last) _ p_mem ⟨le, fun eq => ne (congrArg Path.keys eq)⟩
  obtain ⟨tree', inserted, look_⟩ :=
    PathTree.exists_insert? tree p.keys_ne_nil noBranch noValue x
  refine ⟨tree', inserted, fun q => ?_⟩
  rw [look_, grown, sketch_append fun e he => here e (done_sub he)]

/-- The run: all entries go into the tree, or one is refused because its path leads to another. -/
theorem build_cases (split : all = done ++ rest)
    (free : ∀ e ∈ done, IsEnd all e.1)
    (grown : ∀ q, (PathTree.branch tree).look q = sketch done q) :
    (Consistent all ∧ ∃ tree', build all false rest tree = .ok tree'
      ∧ ∀ q, (PathTree.branch tree').look q = sketch all q)
    ∨ ∃ e ∈ all, (∃ e' ∈ all, e.1.LeadsTo e'.1)
      ∧ build all false rest tree = .error (.broken (.valueAndParent e.1)) := by
  induction rest generalizing done tree with
  | nil =>
    rw [List.append_nil] at split
    subst split
    exact .inl ⟨free, tree, rfl, grown⟩
  | cons entry rest ih =>
    obtain ⟨p, x⟩ := entry
    rw [build]
    by_cases scope : isScope all p = true
    · rw [if_pos scope]
      refine .inr ⟨(p, x), by rw [split]; simp, isScope_iff.1 scope, rfl⟩
    · have here := isScope_eq_false_iff.1 (Bool.eq_false_iff.2 scope)
      obtain ⟨tree', inserted, grown'⟩ := exists_insert?_entry split free here grown
      rw [if_neg scope]
      simp only [inserted]
      refine ih (by rw [split]; simp) (fun e he => ?_) grown'
      rcases List.mem_append.1 he with he | he
      · exact free e he
      · rw [List.mem_singleton.1 he]
        exact here

/-- Where objects win, the entries that lead to others are passed over. -/
theorem build_objectsWin (all rest : List (Path × Value)) (tree : Entries PathTree) :
    build all true rest tree
      = build (kept all) false (rest.filter fun e => IsEnd all e.1) tree := by
  induction rest generalizing tree with
  | nil => rfl
  | cons e rest ih =>
    rw [build]
    by_cases free : IsEnd all e.1
    · have free' : isScope (kept all) e.1 = false :=
        isScope_eq_false_iff.2 fun e' he' => free e' (mem_kept.1 he').1
      rw [List.filter_cons, if_pos (decide_eq_true free), build, isScope_eq_false_iff.2 free, free']
      simp only [Bool.false_eq_true, if_false]
      split
      · exact ih _
      · rfl
    · have scope : isScope all e.1 = true :=
        Bool.of_not_eq_false (mt isScope_eq_false_iff.1 free)
      rw [List.filter_cons, if_neg (mt of_decide_eq_true free), if_pos scope, if_pos rfl]
      exact ih tree

theorem toValue?_objectsWin (o : Origin) (entries : List (Path × Value)) :
    toValue? o entries true = toValue? o (kept entries) false := by
  rw [toValue?, toValue?, build_objectsWin]
  rfl

/-! ### The trees of lists -/

/-- The tree that entries make: at the path of each is the last value given for it, and all else,
apart from what is inside the values, are objects on the way to paths, with their keys once. -/
structure Planted (o : Origin) (entries : List (Path × Value)) (v : Value) : Prop where
  holds : ∀ e ∈ entries, ∃ x, lastAt? entries e.1 = some x ∧ v.peek? e.1.keys = some x
  only : ∀ keys u, v.peek? keys = some u →
    (∃ e ∈ entries, ∃ x inner, lastAt? entries e.1 = some x
      ∧ keys = e.1.keys ++ inner ∧ x.peek? inner = some u)
    ∨ IsWay entries keys ∧ ∃ fs, u = ofFields o fs ∧ (Entries.keys fs).Nodup

theorem planted_of_sketch (consistent : Consistent entries)
    (holds : (PathTree.branch tree).Holds fun _ => True)
    (grown : ∀ q, (PathTree.branch tree).look q = sketch entries q) :
    Planted o entries ((PathTree.branch tree).toValue o) where
  holds e he := by
    obtain ⟨x, last⟩ := exists_lastAt? he
    exact ⟨x, last, PathTree.peek?_toValue_of_look
      ((grown _).trans (sketch_of_lastAt? last (consistent e he)))⟩
  only keys u there := by
    rcases PathTree.look_of_peek?_toValue holds there with
      ⟨front, x, inner, rfl, leaf_, inside⟩ | ⟨branch_, object⟩
    · rw [grown] at leaf_
      obtain ⟨p, rfl, last, -⟩ := exists_lastAt?_of_sketch leaf_
      exact .inl ⟨(p, x), mem_of_lastAt? last, x, inner, last, rfl, inside⟩
    · rw [grown] at branch_
      exact .inr ⟨isWay_of_sketch branch_, object⟩

/-- A list makes a tree if it is consistent, and otherwise is refused for one of its entries. -/
theorem toValue?_cases (o : Origin) (entries : List (Path × Value)) :
    (Consistent entries ∧ ∃ v, toValue? o entries false = .ok v ∧ Planted o entries v)
    ∨ ∃ e ∈ entries, (∃ e' ∈ entries, e.1.LeadsTo e'.1)
      ∧ toValue? o entries false = .error (.broken (.valueAndParent e.1)) := by
  have bare (q : List String) : (PathTree.branch []).look q = sketch [] q := by
    rw [PathTree.look_branch_nil, sketch]
    cases q <;> simp [IsWay, lastAt?]
  rcases build_cases (show entries = [] ++ entries from rfl) (by simp) bare with
    ⟨consistent, tree, built, grown⟩ | ⟨e, he, leads, refused⟩
  · have holds := holds_build (P := fun _ => True) (fun _ _ => trivial) .empty built
    have planted := planted_of_sketch (o := o) consistent holds grown
    exact .inl ⟨consistent, _, by rw [toValue?, built]; rfl, planted⟩
  · exact .inr ⟨e, he, leads, by rw [toValue?, refused]; rfl⟩

theorem exists_toValue? (o : Origin) (consistent : Consistent entries) :
    ∃ v, toValue? o entries false = .ok v ∧ Planted o entries v := by
  rcases toValue?_cases o entries with ⟨-, made⟩ | ⟨e, he, ⟨e', he', leads⟩, -⟩
  · exact made
  · exact absurd leads (consistent e he e' he')

theorem exists_toValue?_objectsWin (o : Origin) (entries : List (Path × Value)) :
    ∃ v, toValue? o entries true = .ok v ∧ toValue? o (kept entries) false = .ok v
      ∧ Planted o (kept entries) v := by
  obtain ⟨v, made, planted⟩ := exists_toValue? o (consistent_kept entries)
  exact ⟨v, (toValue?_objectsWin o entries).trans made, made, planted⟩

end PathMap

/-- No document of `key=value` lines is refused. -/
theorem Properties.exists_read (o : Origin) (text : String) :
    ∃ v, Properties.read o text = .ok v := by
  unfold Properties.read
  obtain ⟨v, made, -⟩ := PathMap.exists_toValue?_objectsWin o _
  exact ⟨v, made⟩

namespace PathMap

/-- **Consistent lists make trees, and only those**: a list is refused if one of its paths leads to
another, and for such a path, and makes the tree of its entries otherwise.  Where objects win, it
makes the tree of the entries whose paths lead to no other, so that each text of `key=value` lines
makes a tree. -/
theorem toValue?_planted (o : Origin) (entries : List (Path × Value)) :
    ((∃ err, toValue? o entries false = .error err)
        ↔ ∃ e ∈ entries, ∃ e' ∈ entries, e.1.LeadsTo e'.1)
      ∧ (∀ err, toValue? o entries false = .error err →
        ∃ e ∈ entries, (∃ e' ∈ entries, e.1.LeadsTo e'.1) ∧ err = .broken (.valueAndParent e.1))
      ∧ (∀ v, toValue? o entries false = .ok v → Planted o entries v)
      ∧ (∃ v, toValue? o entries true = .ok v ∧ toValue? o (kept entries) false = .ok v
        ∧ Planted o (kept entries) v)
      ∧ (∀ e ∈ kept entries, lastAt? (kept entries) e.1 = lastAt? entries e.1)
      ∧ ∀ text, ∃ v, Properties.read o text = .ok v := by
  refine ⟨?_, ?_, ?_, exists_toValue?_objectsWin o entries,
    fun e he => lastAt?_kept (mem_kept.1 he).2, Properties.exists_read o⟩
  · rcases toValue?_cases o entries with ⟨consistent, v, made, -⟩ | ⟨e, he, leads, refused⟩
    · refine ⟨fun ⟨err, failed⟩ => ?_, fun ⟨e, he, e', he', leads⟩ => ?_⟩
      · cases made.symm.trans failed
      · exact absurd leads (consistent e he e' he')
    · exact ⟨fun _ => ⟨e, he, leads⟩, fun _ => ⟨_, refused⟩⟩
  · intro err failed
    rcases toValue?_cases o entries with ⟨-, v, made, -⟩ | ⟨e, he, leads, refused⟩
    · cases made.symm.trans failed
    · cases refused.symm.trans failed
      exact ⟨e, he, leads, rfl⟩
  · intro v made
    rcases toValue?_cases o entries with ⟨-, w, made', planted⟩ | ⟨e, he, leads, refused⟩
    · cases made'.symm.trans made
      exact planted
    · cases refused.symm.trans made

end PathMap

end Hocon
