import Hocon.Validation
import Hocon.Proofs.Leaves

/-!
# What a check against a reference finds

A place is flawed if the reference has something there, objects lead to it in both trees, and what
is there in the checked tree will not do (`Validation.Flawed`).  The check finds the flawed places,
each of them once and in the order of the reference, and nothing else
(`Config.checkValid_findings`).

Flaws are told by the keys from the root of a subtree on, so that those below a field come from
those of its value by one more key in front (`Validation.flawed_cons`).  A list of findings is
measured the same way (`Validation.Lists`): the step is one field, the run goes over all fields, and
the induction over the reference's tree.
-/

namespace Hocon

open Value

namespace Validation

variable {expected actual v w : Value} {p q : Provenance} {closed closed' : Bool}
  {fs gs : Entries Value} {xs ys : List Value} {key : String} {keys front : List String}

/-! ### Flaws -/

/-- Objects lead to the end of the keys. -/
def LeadsTo (v : Value) (keys : List String) : Prop :=
  ∀ front, front <+: keys → front ≠ keys → ∃ u, v.peek? front = some u ∧ u.fields?.isSome = true

/-- Both are lists, and an item of the one is not accepted by the first item of the other. -/
def ItemFails (expected actual : Value) : Prop :=
  ∃ first rest items, expected.items? = some (first :: rest) ∧ actual.items? = some items
    ∧ ∃ x ∈ items, first.accepts x = false

/-- What the reference has at the end of the keys is not met: objects lead there in both trees, and
there is nothing, a value that is not accepted, or a list with such an item. -/
def Flawed (reference actual : Value) (keys : List String) : Prop :=
  ∃ expected, reference.peek? keys = some expected ∧ LeadsTo reference keys ∧ LeadsTo actual keys
    ∧ (actual.peek? keys = none
      ∨ ∃ v, actual.peek? keys = some v ∧ (expected.accepts v = false ∨ ItemFails expected v))

theorem leadsTo_nil (v : Value) : LeadsTo v [] := fun _ le ne => absurd (List.prefix_nil.1 le) ne

theorem leadsTo_object (get : Entries.get? fs key = some v) :
    LeadsTo (object p closed fs) (key :: keys) ↔ LeadsTo v keys := by
  have below (front : List String) : (object p closed fs).peek? (key :: front) = v.peek? front := by
    rw [peek?_object, get, Option.bind_some]
  constructor
  · intro leads front le ne
    obtain ⟨u, there, object_⟩ := leads (key :: front) ((List.prefix_cons_inj key).2 le)
      fun eq => ne (List.cons.inj eq).2
    exact ⟨u, (below front).symm.trans there, object_⟩
  · intro leads front le ne
    cases front with
    | nil => exact ⟨_, rfl, rfl⟩
    | cons other front =>
      obtain ⟨rfl, inner⟩ := List.cons_prefix_cons.1 le
      obtain ⟨u, there, object_⟩ := leads front inner fun eq => ne (by rw [eq])
      exact ⟨u, (below front).trans there, object_⟩

/-- Below a key that is not there, objects lead no further than to that key. -/
theorem leadsTo_of_get?_eq_none (absent : Entries.get? fs key = none) :
    LeadsTo (object p closed fs) (key :: keys) ↔ keys = [] := by
  constructor
  · intro leads
    by_contra more
    obtain ⟨u, there, -⟩ := leads [key] (by simp) (by simpa using Ne.symm more)
    rw [peek?_object_singleton, absent] at there
    cases there
  · rintro rfl front le ne
    rcases List.prefix_cons_iff.1 le with rfl | ⟨rest, rfl, inner⟩
    · exact ⟨_, rfl, rfl⟩
    · rw [List.prefix_nil.1 inner] at ne
      exact absurd rfl ne

theorem LeadsTo.fields? (leads : LeadsTo v (key :: keys)) : v.fields?.isSome = true := by
  obtain ⟨u, there, object_⟩ := leads [] List.nil_prefix (List.cons_ne_nil _ _).symm
  cases there
  exact object_

theorem flawed_nil :
    Flawed expected actual [] ↔ expected.accepts actual = false ∨ ItemFails expected actual := by
  constructor
  · rintro ⟨_, ⟨⟩, -, -, absent | ⟨_, ⟨⟩, fails⟩⟩
    · cases absent
    · exact fails
  · intro fails
    exact ⟨expected, rfl, leadsTo_nil _, leadsTo_nil _, .inr ⟨actual, rfl, fails⟩⟩

/-- A flaw below the root is one below a field that both have, or the absence of a field. -/
theorem flawed_cons : Flawed (object p closed fs) (object q closed' gs) (key :: keys)
    ↔ ∃ u, Entries.get? fs key = some u ∧ ((Entries.get? gs key = none ∧ keys = [])
      ∨ ∃ w, Entries.get? gs key = some w ∧ Flawed u w keys) := by
  cases get : Entries.get? fs key with
  | none =>
    refine ⟨fun ⟨u, there, _⟩ => ?_, nofun⟩
    rw [peek?_object, get] at there
    cases there
  | some u =>
    simp only [Option.some.injEq, exists_eq_left', Flawed, peek?_object, get, Option.bind_some,
      leadsTo_object get]
    cases get' : Entries.get? gs key with
    | none =>
      simp only [leadsTo_of_get?_eq_none get', true_and, reduceCtorEq, false_and, exists_false,
        or_false]
      refine ⟨fun ⟨_, _, _, last, _⟩ => last, ?_⟩
      rintro rfl
      exact ⟨u, rfl, leadsTo_nil _, rfl, .inl rfl⟩
    | some w =>
      simp only [leadsTo_object get', Option.bind_some, Option.some.injEq, exists_eq_left',
        reduceCtorEq, false_and, false_or]

theorem accepts_objects (p q : Provenance) (closed closed' : Bool) (fs gs : Entries Value) :
    (object p closed fs).accepts (object q closed' gs) = true := by
  rw [accepts]
  split <;> rfl

theorem not_flawed_nil_of_objects (p q : Provenance) (closed closed' : Bool)
    (fs gs : Entries Value) : ¬ Flawed (object p closed fs) (object q closed' gs) [] := by
  rw [flawed_nil, accepts_objects]
  rintro (refused | ⟨_, _, _, has, _⟩)
  · cases refused
  · cases has

/-- Of what is no object nothing below is flawed. -/
theorem not_flawed_cons (h : expected.fields? = none ∨ actual.fields? = none) (key : String)
    (keys : List String) : ¬ Flawed expected actual (key :: keys) := by
  rintro ⟨_, -, leads, leads', -⟩
  rcases h with none | none
  · have := leads.fields?
    rw [none] at this
    cases this
  · have := leads'.fields?
    rw [none] at this
    cases this

/-! ### The order of a document -/

/-- One place comes before another: where their ways part, the key of the one comes before the key
of the other. -/
def Precedes (v : Value) (a b : List String) : Prop :=
  ∃ front key key' rest rest' fs, a = front ++ key :: rest ∧ b = front ++ key' :: rest'
    ∧ (v.peek? front).bind Value.fields? = some fs ∧ [key, key'].Sublist (Entries.keys fs)

theorem precedes_of_sublist {key' : String} (before : [key, key'].Sublist (Entries.keys fs))
    (rest rest' : List String) :
    Precedes (object p closed fs) (key :: rest) (key' :: rest') :=
  ⟨[], key, key', rest, rest', fs, rfl, rfl, rfl, before⟩

theorem Precedes.cons {a b : List String} (h : Precedes v a b)
    (get : Entries.get? fs key = some v) :
    Precedes (object p closed fs) (key :: a) (key :: b) := by
  obtain ⟨front, k, k', rest, rest', gs, rfl, rfl, there, before⟩ := h
  refine ⟨key :: front, k, k', rest, rest', gs, rfl, rfl, ?_, before⟩
  rw [peek?_object, get, Option.bind_some, there]

/-- Where each key comes once, neither of two such places leads to the other. -/
theorem Precedes.not_prefix {a b : List String} (keyed : v.Keyed) (h : Precedes v a b) :
    ¬ a <+: b ∧ ¬ b <+: a := by
  obtain ⟨front, key, key', rest, rest', fs, rfl, rfl, there, before⟩ := h
  obtain ⟨u, there, hf⟩ := Option.bind_eq_some_iff.1 there
  obtain ⟨p, closed, rfl⟩ := eq_object_of_fields? hf
  have ne : key ≠ key' := by
    simpa using (keyed front p closed fs there).sublist before
  simp [List.prefix_append_right_inj, List.cons_prefix_cons, ne, ne.symm]

/-! ### Lists of findings -/

/-- The findings below a place are its flaws, in the order of the reference. -/
structure Lists (front : List String) (expected actual : Value)
    (problems : List ValidationProblem) : Prop where
  mem : ∀ place, (∃ x ∈ problems, x.path.keys = place)
    ↔ ∃ keys, place = front ++ keys ∧ Flawed expected actual keys
  ordered : problems.Pairwise fun x y => ∃ a b, x.path.keys = front ++ a
    ∧ y.path.keys = front ++ b ∧ Precedes expected a b

/-- A node below which nothing is flawed, with no finding or with one. -/
theorem Lists.node {path : Path} {problems : List ValidationProblem}
    (flat : ∀ key keys, ¬ Flawed expected actual (key :: keys))
    (here : problems = [] ∧ ¬ Flawed expected actual []
      ∨ Flawed expected actual [] ∧ ∃ x, problems = [x] ∧ x.path = path) :
    Lists path.keys expected actual problems := by
  have only (keys : List String) : Flawed expected actual keys
      ↔ keys = [] ∧ Flawed expected actual [] := by
    cases keys with
    | nil => simp
    | cons key keys => simp [flat]
  rcases here with ⟨rfl, fine⟩ | ⟨flawed, x, rfl, rfl⟩
  · refine ⟨fun place => ⟨nofun, fun ⟨keys, _, flaw⟩ => ?_⟩, .nil⟩
    exact absurd ((only keys).1 flaw).2 fine
  · refine ⟨fun place => ⟨fun ⟨y, hy, eq⟩ => ?_, fun ⟨keys, eq, flaw⟩ => ?_⟩,
      List.pairwise_singleton _ _⟩
    · rw [List.mem_singleton.1 hy] at eq
      exact ⟨[], by rw [← eq, List.append_nil], flawed⟩
    · rw [((only keys).1 flaw).1, List.append_nil] at eq
      exact ⟨x, List.mem_singleton_self x, eq.symm⟩

/-- What is found for one field of the reference. -/
def checkField (place : Option Path) (gs : Entries Value) (origin : Origin)
    (f : String × Value) : List ValidationProblem :=
  match Entries.get? gs f.1 with
  | some v => checkValue (Path.below place f.1) f.2 v
  | none => [missing f.2 (Path.below place f.1) origin]

theorem checkFields_eq (place : Option Path) (fs gs : Entries Value) (origin : Origin) :
    checkFields place fs gs origin = fs.flatMap (checkField place gs origin) := by
  induction fs with
  | nil => rfl
  | cons f fs ih =>
    obtain ⟨key, u⟩ := f
    rw [checkFields, ih]
    rfl

/-- The step: a field's findings are the flaws behind its key. -/
theorem lists_checkField {place : Option Path} {f : String × Value} (gs : Entries Value)
    (origin : Origin) (lead : (Path.below place f.1).keys = front ++ [f.1])
    (ih : ∀ path w, Lists path.keys f.2 w (checkValue path f.2 w)) :
    (∀ at_, (∃ x ∈ checkField place gs origin f, x.path.keys = at_)
      ↔ ∃ keys, at_ = front ++ f.1 :: keys ∧ ((Entries.get? gs f.1 = none ∧ keys = [])
        ∨ ∃ w, Entries.get? gs f.1 = some w ∧ Flawed f.2 w keys))
    ∧ (checkField place gs origin f).Pairwise fun x y => ∃ a b,
      x.path.keys = front ++ f.1 :: a ∧ y.path.keys = front ++ f.1 :: b ∧ Precedes f.2 a b := by
  rw [checkField]
  cases get : Entries.get? gs f.1 with
  | none =>
    refine ⟨fun at_ => ?_, List.pairwise_singleton _ _⟩
    simp [missing, lead, eq_comm]
  | some w =>
    have lists := ih (Path.below place f.1) w
    rw [lead] at lists
    refine ⟨fun at_ => ?_, lists.ordered.imp ?_⟩
    · simp [lists.mem]
    · simp

/-- The run over all fields: an object's findings are the flaws below it. -/
theorem lists_checkFields {place : Option Path} {origin : Origin}
    (lead : ∀ k, (Path.below place k).keys = front ++ [k]) (nodup : (Entries.keys fs).Nodup)
    (ih : ∀ f ∈ fs, ∀ path w, Lists path.keys f.2 w (checkValue path f.2 w)) :
    Lists front (object p closed fs) (object q closed' gs) (checkFields place fs gs origin) := by
  rw [checkFields_eq]
  have step (f) (hf : f ∈ fs) := lists_checkField gs origin (lead f.1) (ih f hf)
  constructor
  · intro at_
    calc (∃ x ∈ fs.flatMap (checkField place gs origin), x.path.keys = at_)
      _ ↔ ∃ f ∈ fs, ∃ x ∈ checkField place gs origin f, x.path.keys = at_ := by
        simp only [List.mem_flatMap]
        tauto
      _ ↔ ∃ f ∈ fs, ∃ keys, at_ = front ++ f.1 :: keys
          ∧ ((Entries.get? gs f.1 = none ∧ keys = [])
            ∨ ∃ w, Entries.get? gs f.1 = some w ∧ Flawed f.2 w keys) :=
        exists_congr fun f => and_congr_right fun hf => (step f hf).1 at_
      _ ↔ ∃ keys, at_ = front ++ keys
          ∧ Flawed (object p closed fs) (object q closed' gs) keys := by
        refine ⟨fun ⟨f, hf, keys, eq, fails⟩ => ?_, fun ⟨keys, eq, flaw⟩ => ?_⟩
        · exact ⟨f.1 :: keys, eq, flawed_cons.2 ⟨f.2, Entries.get?_of_mem nodup hf, fails⟩⟩
        · cases keys with
          | nil => exact absurd flaw (not_flawed_nil_of_objects p q closed closed' fs gs)
          | cons key keys =>
            obtain ⟨u, get, fails⟩ := flawed_cons.1 flaw
            exact ⟨(key, u), Entries.mem_of_get? get, keys, eq, fails⟩
  · refine List.pairwise_flatMap.2 ⟨fun f hf => ?_, ?_⟩
    · -- within a field, by the order of its value
      have get := Entries.get?_of_mem nodup hf
      refine (step f hf).2.imp fun ⟨a, b, ha, hb, before⟩ => ⟨_, _, ha, hb, before.cons get⟩
    · -- between two fields, by the order of their keys
      refine List.pairwise_iff_forall_sublist.2 fun {f g} sub x hx y hy => ?_
      have hf : f ∈ fs := sub.subset (by simp)
      have hg : g ∈ fs := sub.subset (by simp)
      obtain ⟨a, ha, -⟩ := ((step f hf).1 _).1 ⟨x, hx, rfl⟩
      obtain ⟨b, hb, -⟩ := ((step g hg).1 _).1 ⟨y, hy, rfl⟩
      exact ⟨_, _, ha, hb, precedes_of_sublist (sub.map _) a b⟩

/-! ### Values -/

theorem checkValue_object (path : Path) (p : Provenance) (closed : Bool) (fs : Entries Value)
    (v : Value) :
    checkValue path (object p closed fs) v =
      if (object p closed fs).accepts v then
        match v.fields? with
        | some gs => checkFields (some path) fs gs v.origin
        | none => []
      else [mismatch (object p closed fs) v path] :=
  rfl

theorem checkValue_of_fields?_eq_none (path : Path) (hf : expected.fields? = none) (v : Value) :
    checkValue path expected v =
      if expected.accepts v then
        match expected.items?, v.items? with
        | some xs, some ys => checkItems path xs ys
        | _, _ => []
      else [mismatch expected v path] := by
  cases expected with
  | object => cases hf
  | _ => rfl

/-- A list has a finding if an item of it fails, and one only. -/
theorem checkItems_cases (path : Path) (hx : expected.items? = some xs)
    (hy : actual.items? = some ys) :
    checkItems path xs ys = [] ∧ ¬ ItemFails expected actual
      ∨ ItemFails expected actual ∧ ∃ x, checkItems path xs ys = [x] ∧ x.path = path := by
  cases xs with
  | nil =>
    refine .inl ⟨rfl, ?_⟩
    rintro ⟨first, rest, items, has, -⟩
    rw [hx] at has
    cases has
  | cons first rest =>
    have fails_iff : ItemFails expected actual ↔ ∃ x ∈ ys, first.accepts x = false := by
      constructor
      · rintro ⟨_, _, _, has, has', fails⟩
        rw [hx] at has
        rw [hy] at has'
        cases has
        cases has'
        exact fails
      · exact fun fails => ⟨first, rest, ys, hx, hy, fails⟩
    rw [fails_iff, checkItems]
    cases found : ys.find? fun item => !first.accepts item with
    | none =>
      refine .inl ⟨rfl, ?_⟩
      rintro ⟨x, hx, fails⟩
      have := List.find?_eq_none.1 found x hx
      rw [fails] at this
      exact this rfl
    | some x =>
      have fails := List.find?_some found
      rw [Bool.not_eq_true'] at fails
      exact .inr ⟨⟨x, List.mem_of_find?_eq_some found, fails⟩, _, rfl, rfl⟩

/-- The findings for a value are its flaws. -/
theorem lists_checkValue (keyed : expected.Keyed) (path : Path) (actual : Value) :
    Lists path.keys expected actual (checkValue path expected actual) := by
  induction expected using parts_induction generalizing path actual with
  | node expected ih =>
    cases hf : expected.fields? with
    | some fs =>
      obtain ⟨p, closed, rfl⟩ := eq_object_of_fields? hf
      rw [checkValue_object]
      cases hg : actual.fields? with
      | some gs =>
        obtain ⟨q, closed', rfl⟩ := eq_object_of_fields? hg
        rw [if_pos (accepts_objects ..)]
        refine lists_checkFields (fun k => by simp [Path.below, Path.child, Path.keys])
          keyed.nodup fun f hf path w => ?_
        exact ih f.2 (mem_parts_of_mem_fields hf)
          (keyed.field (Entries.get?_of_mem keyed.nodup hf)) path w
      | none =>
        refine .node (not_flawed_cons (.inr hg)) ?_
        have noItems : ¬ ItemFails (object p closed fs) actual := by
          rintro ⟨_, _, _, has, -⟩
          cases has
        rw [flawed_nil, or_iff_left noItems]
        cases accepted : (object p closed fs).accepts actual with
        | true => exact .inl ⟨rfl, by simp⟩
        | false => exact .inr ⟨rfl, _, rfl, rfl⟩
    | none =>
      refine .node (not_flawed_cons (.inl hf)) ?_
      rw [checkValue_of_fields?_eq_none path hf, flawed_nil]
      cases accepted : expected.accepts actual with
      | false => exact .inr ⟨.inl rfl, _, rfl, rfl⟩
      | true =>
        simp only [if_true, Bool.true_eq_false, false_or]
        cases hx : expected.items? with
        | none =>
          refine .inl ⟨rfl, ?_⟩
          rintro ⟨_, _, _, has, -⟩
          rw [hx] at has
          cases has
        | some xs =>
          cases hy : actual.items? with
          | none =>
            refine .inl ⟨rfl, ?_⟩
            rintro ⟨_, _, _, _, has, -⟩
            rw [hy] at has
            cases has
          | some ys => exact checkItems_cases path hx hy

theorem lists_checkRoot (keyed : (object p closed fs).Keyed) (q : Provenance) (closed' : Bool)
    (gs : Entries Value) :
    Lists [] (object p closed fs) (object q closed' gs)
      (checkRoot (object p closed fs) (object q closed' gs)) :=
  lists_checkFields (fun _ => rfl) keyed.nodup fun _ hf path w =>
    lists_checkValue (keyed.field (Entries.get?_of_mem keyed.nodup hf)) path w

/-! ### One path -/

/-- What is found at the path of a key is what is found for the field. -/
theorem checkPath_ofKey (nodup : (Entries.keys fs).Nodup) {f : String × Value} (hf : f ∈ fs)
    (p q : Provenance) (closed closed' : Bool) (gs : Entries Value) :
    checkPath (object p closed fs) (object q closed' gs) (Path.ofKey f.1)
      = checkField none gs q.origin f := by
  have key (v : Value) : v.peek? (Path.ofKey f.1).keys = v.peek? [f.1] := rfl
  rw [checkPath, key, key, peek?_object_singleton, peek?_object_singleton,
    Entries.get?_of_mem nodup hf, checkField]
  cases Entries.get? gs f.1 <;> rfl

end Validation

namespace Config

open Validation

variable {c r : Config} {fs gs : Entries Value}

/-- Nothing waits in a resolved configuration, so its root is an object. -/
theorem exists_object (c : Config) (resolved : c.isResolved = true) :
    ∃ p closed fs, c.root = object p closed fs := by
  have object_ := c.isObjectValued
  have free := isPending_of_isResolved resolved
  cases h : c.root <;> rw [h] at object_ free
  case object p closed fs => exact ⟨p, closed, fs, rfl⟩
  case merge => cases free
  all_goals cases object_

/-- The paths of the keys of the reference, as texts. -/
def topPaths (r : Config) : List String :=
  (Entries.keys (r.root.fields?.getD [])).map fun key => (Path.ofKey key).render

theorem mapM_checkPath (reference actual : Value) (keys : List String) :
    (keys.map fun key => (Path.ofKey key).render).mapM (fun text => do
        return checkPath reference actual (← Path.ofParameter? text))
      = (.ok (keys.map fun key => checkPath reference actual (Path.ofKey key)) :
        Except Error _) := by
  induction keys with
  | nil => rfl
  | cons key keys ih =>
    have read : Path.ofParameter? (Path.ofKey key).render = .ok (Path.ofKey key) := by
      rw [Path.ofParameter?, Path.ofText?_render]
    rw [List.map_cons, List.mapM_cons, ih, read]
    rfl

/-- To look at all top keys is to look everywhere. -/
theorem problems_topPaths (c : Config) (keyed : r.root.Keyed) (hc : c.isResolved = true)
    (hr : r.isResolved = true) : c.problems r r.topPaths = c.problems r [] := by
  obtain ⟨p, closed, fs, hr⟩ := r.exists_object hr
  obtain ⟨q, closed', gs, hc⟩ := c.exists_object hc
  rw [hr] at keyed
  have fieldwise : (Entries.keys fs).map (fun key =>
      checkPath (object p closed fs) (object q closed' gs) (Path.ofKey key))
        = fs.map (checkField none gs q.origin) := by
    rw [Entries.keys, List.map_map]
    exact List.map_congr_left fun f hf => checkPath_ofKey keyed.nodup hf p q closed closed' gs
  rw [problems, problems, topPaths, hr, hc, mapM_checkPath]
  show (if _ then _ else Except.ok (List.map _ (Entries.keys fs)).flatten)
    = Except.ok (checkFields none fs gs q.origin)
  rw [fieldwise, ← List.flatMap_def, checkFields_eq]
  cases fs <;> rfl

/-- What a check says, if nothing waits. -/
theorem checkValid_eq (hc : c.isResolved = true) (hr : r.isResolved = true) (paths : List String) :
    c.checkValid r paths = c.problems r paths >>= fun problems =>
      if problems = [] then .ok () else .error (.invalid problems) := by
  rw [checkValid, hr, hc]
  show (c.problems r paths >>= _) = _
  refine bind_congr fun problems => ?_
  cases problems <;> rfl

/-- **A check finds every flaw once and nothing else**: a finding is reported at each flawed place,
and all is well if there is none.  The places of the findings differ, as texts too, none leads to
another one, and they are in the order of the reference.  Looking at the keys of the reference one
by one, by their texts, comes to the same. -/
theorem checkValid_findings (hc : c.isResolved = true) (hr : r.isResolved = true)
    (keyed : r.root.Keyed) :
    (∀ place : Path, (∃ problems, c.checkValid r [] = .error (.invalid problems)
        ∧ ∃ x ∈ problems, x.path = place) ↔ Flawed r.root c.root place.keys)
      ∧ (c.checkValid r [] = .ok () ↔ ∀ place : Path, ¬ Flawed r.root c.root place.keys)
      ∧ (∀ problems, c.checkValid r [] = .error (.invalid problems) →
        (problems.map fun x => x.path.render).Nodup
          ∧ (problems.Pairwise fun x y =>
            ¬ x.path.keys <+: y.path.keys ∧ ¬ y.path.keys <+: x.path.keys)
          ∧ problems.Pairwise fun x y => Precedes r.root x.path.keys y.path.keys)
      ∧ c.checkValid r r.topPaths = c.checkValid r [] := by
  have lists : Lists [] r.root c.root (checkRoot r.root c.root) := by
    obtain ⟨p, closed, fs, hr⟩ := r.exists_object hr
    obtain ⟨q, closed', gs, hc⟩ := c.exists_object hc
    rw [hr] at keyed ⊢
    rw [hc]
    exact lists_checkRoot keyed q closed' gs
  have everywhere : c.checkValid r [] = if checkRoot r.root c.root = [] then .ok ()
      else .error (.invalid (checkRoot r.root c.root)) := checkValid_eq hc hr []
  have flaw_iff (place : Path) :
      (∃ x ∈ checkRoot r.root c.root, x.path = place) ↔ Flawed r.root c.root place.keys := by
    simpa [Path.keys_inj] using lists.mem place.keys
  refine ⟨fun place => ?_, ?_, fun problems found => ?_, ?_⟩
  · rw [everywhere, ← flaw_iff]
    constructor
    · rintro ⟨problems, found, x, hx, rfl⟩
      split at found <;> cases found
      exact ⟨x, hx, rfl⟩
    · rintro ⟨x, hx, rfl⟩
      exact ⟨_, if_neg (List.ne_nil_of_mem hx), x, hx, rfl⟩
  · rw [everywhere]
    constructor
    · intro fine place flaw
      obtain ⟨x, hx, -⟩ := (flaw_iff place).2 flaw
      rw [if_neg (List.ne_nil_of_mem hx)] at fine
      cases fine
    · intro sound
      refine if_pos (List.eq_nil_iff_forall_not_mem.2 fun x hx => ?_)
      exact sound x.path ((flaw_iff x.path).1 ⟨x, hx, rfl⟩)
  · have ordered : problems.Pairwise fun x y => Precedes r.root x.path.keys y.path.keys := by
      rw [everywhere] at found
      split at found <;> cases found
      exact lists.ordered.imp fun ⟨a, b, ha, hb, before⟩ => by rwa [ha, hb]
    have apart := ordered.imp fun before => before.not_prefix keyed
    refine ⟨List.pairwise_map.2 (apart.imp fun ne eq => ?_), apart, ordered⟩
    rw [Path.render_injective eq] at ne
    exact ne.1 List.prefix_rfl
  · rw [checkValid_eq hc hr, checkValid_eq hc hr, problems_topPaths c keyed hc hr]

/-- A reference with a list and a nested object, of which one setting is absent, one of the wrong
kind, and one item too. -/
theorem checkValid_findings_example :
    let p : Provenance := { origin := .named "example" }
    let r : Config := ⟨object p false [("l", list p [bool p true]),
      ("a", object p false [("x", bool p true), ("y", bool p true)])], rfl⟩
    let c : Config := ⟨object p false [("a", object p false [("y", list p [])]),
      ("l", list p [bool p false, object p false []])], rfl⟩
    (c.isResolved = true ∧ r.isResolved = true ∧ r.root.Keyed)
      ∧ ∀ place ∈ [⟨"l", []⟩, ⟨"a", ["x"]⟩, (⟨"a", ["y"]⟩ : Path)],
        ∃ problems, c.checkValid r [] = .error (.invalid problems)
          ∧ ∃ x ∈ problems, x.path = place := by
  intro p r c
  have keyed : r.root.Keyed := by
    have leaf (v : Value) (hf : v.fields? = none) : v.Keyed := .of_fields?_eq_none hf
    refine .object (by decide) fun k u hu => ?_
    simp only [List.mem_cons, Prod.mk.injEq, List.not_mem_nil, or_false] at hu
    obtain ⟨-, rfl⟩ | ⟨-, rfl⟩ := hu
    · exact leaf _ rfl
    · refine .object (by decide) fun k u hu => ?_
      simp only [List.mem_cons, Prod.mk.injEq, List.not_mem_nil, or_false] at hu
      obtain ⟨-, rfl⟩ | ⟨-, rfl⟩ := hu <;> exact leaf _ rfl
  refine ⟨⟨rfl, rfl, keyed⟩, List.forall_mem_cons.2 ⟨?_, List.forall_mem_cons.2 ⟨?_,
    List.forall_mem_singleton.2 ?_⟩⟩⟩
  · refine ((checkValid_findings rfl rfl keyed).1 ⟨"l", []⟩).2 (flawed_cons.2 ⟨_, rfl, .inr ?_⟩)
    exact ⟨_, rfl, flawed_nil.2 (.inr ⟨_, _, _, rfl, rfl, object p false [], by simp, rfl⟩)⟩
  · refine ((checkValid_findings rfl rfl keyed).1 ⟨"a", ["x"]⟩).2 (flawed_cons.2 ⟨_, rfl, .inr ?_⟩)
    exact ⟨_, rfl, flawed_cons.2 ⟨_, rfl, .inl ⟨rfl, rfl⟩⟩⟩
  · refine ((checkValid_findings rfl rfl keyed).1 ⟨"a", ["y"]⟩).2 (flawed_cons.2 ⟨_, rfl, .inr ?_⟩)
    exact ⟨_, rfl, flawed_cons.2 ⟨_, rfl, .inr ⟨_, rfl, flawed_nil.2 (.inl rfl)⟩⟩⟩

end Config

end Hocon
