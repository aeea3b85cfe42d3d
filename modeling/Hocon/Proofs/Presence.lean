import Hocon.Config
import Hocon.Proofs.WellFormed

/-!
# Whether a path holds a value, and which

Two walks follow a path from the root of a configuration.  `Config.hasPath` answers whether a value
is at its end, and `Config.getValue` hands that value out.  The first looks for what waits when it
comes to a node, and for fields when it goes on; the second judges each node before it goes there,
and asks for more on the way than at the end.

What they say goes together (`Config.Agrees`), step by step, whatever stands in the way: nothing,
null, a scalar or a list, or a node that waits.  The place that both have come to never waits and
is never null, and what is read is what `Value.peek?` finds (`Config.hasPath_getValue`).
-/

namespace Hocon

/-- The error says that there is nothing to read: no value, null, or no object where a path goes
on. -/
inductive Error.IsAbsence : Error → Prop
  | missing (path : String) : IsAbsence (.missing path)
  | null (o : Origin) (path : String) (expected : Option ValueType) :
      IsAbsence (.null o path expected)
  | wrongType (o : Origin) (fault : TypeFault) : IsAbsence (.wrongType o fault)

namespace Value

variable {v : Value} {keys : List String}

/-! ### One node on the way -/

/-- Nothing stands in for an object. -/
theorem convert_object (v : Value) : v.convert .object = v := by
  cases v <;> rfl

theorem fields?_of_isPending (waits : v.isPending = true) : v.fields? = none := by
  cases v <;> first | rfl | cases waits

theorem fields?_of_isNull (null : v.isNull = true) : v.fields? = none := by
  cases v <;> first | rfl | cases null

/-- No value is behind a node: it is null, or the path goes on and the node is no object. -/
def Blocks (v : Value) (keys : List String) : Prop :=
  v.isNull = true ∨ keys ≠ [] ∧ v.fields? = none

theorem Blocks.fields? {key : String} (h : v.Blocks (key :: keys)) : v.fields? = none :=
  h.elim fields?_of_isNull And.right

theorem Blocks.isNull_of_peek? {u : Value} (h : v.Blocks keys) (there : v.peek? keys = some u) :
    u.isNull = true := by
  cases keys with
  | nil =>
    cases there
    exact h.resolve_right fun more => more.1 rfl
  | cons key keys =>
    rw [peek?_of_fields?_eq_none h.fields?] at there
    cases there

/-- What a walk asks of a node in front of `keys`: at the end of a path any value will do, and
before that only objects. -/
def wanted (keys : List String) : Option ValueType := if keys.isEmpty then none else some .object

theorem check_wanted (v : Value) (keys : List String) (path : String) :
    v.check (wanted keys) path =
      if v.isPending then .error (v.notResolved path)
      else if v.isNull then .error (.null v.origin path (wanted keys))
      else if keys ≠ [] ∧ v.fields? = none then
        .error (.wrongType v.origin (.mismatch path v.type? .object))
      else .ok v := by
  cases keys with
  | nil => simp [wanted, check]
  | cons key keys =>
    rw [wanted, List.isEmpty_cons, if_neg Bool.false_ne_true, check]
    simp only [convert_object]
    cases v <;> simp [isPending, isNull, type?, fields?]

/-- How a node is judged: it waits, or it blocks the path, or the walk goes there. -/
theorem check_cases (v : Value) (keys : List String) (path : String) :
    (v.isPending = true ∧ v.check (wanted keys) path = .error (v.notResolved path))
      ∨ (v.isPending = false ∧ v.Blocks keys
        ∧ ∃ e : Error, e.IsAbsence ∧ v.check (wanted keys) path = .error e)
      ∨ (v.isPending = false ∧ v.isNull = false ∧ v.check (wanted keys) path = .ok v) := by
  rw [check_wanted]
  cases waits : v.isPending with
  | true => exact .inl ⟨rfl, rfl⟩
  | false =>
    refine .inr ?_
    cases null : v.isNull with
    | true => exact .inl ⟨rfl, .inl null, _, .null _ _ _, rfl⟩
    | false =>
      by_cases stuck : keys ≠ [] ∧ v.fields? = none
      · exact .inl ⟨rfl, .inr stuck, _, .wrongType _ _, if_pos stuck⟩
      · exact .inr ⟨rfl, rfl, if_neg stuck⟩

end Value

namespace Config

open Value

variable {v u : Value} {path : String} {place : Option Path} {keys : List String}

/-! ### The question -/

theorem hasKeys_of_isPending (waits : v.isPending = true) (keys : List String) :
    hasKeys path v keys = .error (v.notResolved path) := by
  cases keys <;> rw [hasKeys, if_pos waits]

theorem hasKeys_cons (free : v.isPending = false) (key : String) (keys : List String) :
    hasKeys path v (key :: keys)
      = match v.fields?.bind (Entries.get? · key) with
        | some child => hasKeys path child keys
        | none => .ok false :=
  if_neg (Bool.eq_false_iff.1 free)

theorem hasKeys_of_blocks (free : v.isPending = false) (h : v.Blocks keys) :
    hasKeys path v keys = .ok false := by
  cases keys with
  | nil =>
    rw [hasKeys, if_neg (Bool.eq_false_iff.1 free), h.resolve_right fun more => more.1 rfl,
      Bool.not_true]
  | cons key keys => rw [hasKeys_cons free, h.fields?, Option.bind_none]

/-! ### The question and the answer -/

/-- What the answer whether there is a value has to do with reading it. -/
inductive Agrees : Except Error Bool → Except Error Value → Prop
  | held (v : Value) : Agrees (.ok true) (.ok v)
  | absent {e : Error} (h : e.IsAbsence) : Agrees (.ok false) (.error e)
  | pending (fault fault' : PendingFault) :
      Agrees (.error (.pending fault)) (.error (.pending fault'))
  | badPath (o : Option Origin) (text : String) (fault : PathFault) :
      Agrees (.error (.badPath o text fault)) (.error (.badPath o text fault))

namespace Agrees

variable {answer : Except Error Bool} {outcome : Except Error Value}

theorem held_iff (h : Agrees answer outcome) : answer = .ok true ↔ ∃ v, outcome = .ok v := by
  cases h <;> simp

theorem absent_iff (h : Agrees answer outcome) :
    answer = .ok false ↔ ∃ e : Error, e.IsAbsence ∧ outcome = .error e := by
  cases h with
  | held v => simp
  | absent absence => exact ⟨fun _ => ⟨_, absence, rfl⟩, fun _ => rfl⟩
  | pending | badPath =>
    refine ⟨fun ok => (by cases ok), fun ⟨e, absence, eq⟩ => ?_⟩
    cases eq
    cases absence

theorem badPath_iff (h : Agrees answer outcome) (o : Option Origin) (text : String)
    (fault : PathFault) :
    answer = .error (.badPath o text fault) ↔ outcome = .error (.badPath o text fault) := by
  cases h with
  | absent absence => cases absence <;> simp
  | held | pending | badPath => simp

theorem pending_iff (h : Agrees answer outcome) :
    (∃ fault, answer = .error (.pending fault)) ↔ ∃ fault, outcome = .error (.pending fault) := by
  cases h with
  | absent absence => cases absence <;> simp
  | held | badPath => simp
  | pending fault fault' => exact ⟨fun _ => ⟨fault', rfl⟩, fun _ => ⟨fault, rfl⟩⟩

end Agrees

/-! ### The two walks -/

theorem findKeys_cons (place : Option Path) (v : Value) (key : String) (keys : List String) :
    findKeys none place v (key :: keys)
      = match v.fields?.bind (Entries.get? · key) with
        | none => .error (.missing (Path.below place key).render)
        | some child => child.check (wanted keys) (Path.below place key).render
            >>= fun child => findKeys none (some (Path.below place key)) child keys := by
  rw [findKeys]
  rfl

/-- The run of both walks, from a place that neither waits nor is null: they stop at a node for the
same reason, or both go there, and then it neither waits nor is null. -/
theorem agrees_keys (free : v.isPending = false) (value : v.isNull = false)
    (place : Option Path) (keys : List String) :
    Agrees (hasKeys path v keys) (findKeys none place v keys) := by
  induction keys generalizing v place with
  | nil =>
    rw [hasKeys, if_neg (Bool.eq_false_iff.1 free), value]
    exact .held v
  | cons key keys ih =>
    rw [hasKeys_cons free, findKeys_cons]
    cases v.fields?.bind (Entries.get? · key) with
    | none => exact .absent (.missing _)
    | some child =>
      dsimp only
      rcases child.check_cases keys (Path.below place key).render with
        ⟨waits, check_⟩ | ⟨free, blocks, e, absence, check_⟩ | ⟨free, value, check_⟩
      · rw [hasKeys_of_isPending waits, check_]
        exact .pending _ _
      · rw [hasKeys_of_blocks free blocks, check_]
        exact .absent absence
      · rw [check_]
        exact ih free value _

theorem isNull_root (c : Config) : c.root.isNull = false := by
  have object := c.isObjectValued
  cases h : c.root <;> rw [h] at object <;> first | rfl | cases object

theorem agrees (c : Config) (path : String) : Agrees (c.hasPath path) (c.getValue path) := by
  rw [hasPath, getValue, find, Path.ofParameter?]
  cases Path.ofText? path with
  | error fault => exact .badPath _ _ _
  | ok p =>
    show Agrees (hasKeys path c.root p.keys) (if c.root.isPending then _ else _)
    by_cases waits : c.root.isPending = true
    · rw [if_pos waits, hasKeys_of_isPending waits]
      exact .pending _ _
    · rw [if_neg waits]
      exact agrees_keys (Bool.eq_false_iff.2 waits) c.isNull_root none p.keys

/-! ### What is read -/

theorem peek?_cons_eq (v : Value) (key : String) (keys : List String) :
    v.peek? (key :: keys) = (v.fields?.bind (Entries.get? · key)).bind (·.peek? keys) := by
  rw [peek?]
  cases v.fields? <;> rfl

/-- What is found is what is at the end of the path, if that neither waits nor is null. -/
theorem findKeys_eq_ok_iff (free : v.isPending = false) (value : v.isNull = false) :
    findKeys none place v keys = .ok u
      ↔ v.peek? keys = some u ∧ u.isPending = false ∧ u.isNull = false := by
  induction keys generalizing v place with
  | nil =>
    rw [findKeys, peek?, Except.ok.injEq, Option.some.injEq]
    refine ⟨?_, And.left⟩
    rintro rfl
    exact ⟨rfl, free, value⟩
  | cons key keys ih =>
    rw [findKeys_cons, peek?_cons_eq]
    cases v.fields?.bind (Entries.get? · key) with
    | none =>
      refine ⟨fun found => ?_, fun there => ?_⟩
      · cases found
      · cases there.1
    | some child =>
      rw [Option.bind_some]
      dsimp only
      rcases child.check_cases keys (Path.below place key).render with
        ⟨waits, check_⟩ | ⟨-, blocks, e, -, check_⟩ | ⟨free, value, check_⟩
      · rw [check_]
        refine ⟨fun found => ?_, ?_⟩
        · cases found
        rintro ⟨there, free, -⟩
        -- nothing is below what waits, and it is no value itself
        cases keys with
        | nil =>
          cases there
          rw [waits] at free
          cases free
        | cons next keys =>
          rw [peek?_of_fields?_eq_none (fields?_of_isPending waits)] at there
          cases there
      · rw [check_]
        refine ⟨fun found => ?_, ?_⟩
        · cases found
        rintro ⟨there, -, value⟩
        rw [blocks.isNull_of_peek? there] at value
        cases value
      · rw [check_]
        exact ih free value

/-- In a resolved configuration a well-formed path reads what is there, unless it is null. -/
theorem getValue_eq_ok_iff {c : Config} {p : Path} (resolved : c.isResolved = true)
    (wellFormed : Path.ofParameter? path = .ok p) :
    c.getValue path = .ok v ↔ c.root.peek? p.keys = some v ∧ v.isNull = false := by
  have free := isPending_of_isResolved resolved
  rw [getValue, find, wellFormed]
  show (if c.root.isPending then _ else findKeys none none c.root p.keys) = _ ↔ _
  rw [if_neg (Bool.eq_false_iff.1 free), findKeys_eq_ok_iff free c.isNull_root]
  refine and_congr_right fun there => and_iff_right ?_
  exact isPending_of_isResolved (isResolved_of_within (within_of_peek? there) resolved)

/-- **Asking for a value and reading it agree**, for every configuration and every text of a path:
there is a value where one can be read; there is none where reading fails because nothing, null or
no object is on the way; and both fail alike for a malformed path, and together for what waits.  In
a resolved configuration what is read is what is at the end of the path, other than null. -/
theorem hasPath_getValue (c : Config) (path : String) :
    (c.hasPath path = .ok true ↔ ∃ v, c.getValue path = .ok v)
      ∧ (c.hasPath path = .ok false ↔ ∃ e : Error, e.IsAbsence ∧ c.getValue path = .error e)
      ∧ (∀ o text fault, c.hasPath path = .error (.badPath o text fault)
        ↔ c.getValue path = .error (.badPath o text fault))
      ∧ ((∃ fault, c.hasPath path = .error (.pending fault))
        ↔ ∃ fault, c.getValue path = .error (.pending fault))
      ∧ (c.isResolved = true → ∀ p, Path.ofParameter? path = .ok p → ∀ v,
        c.getValue path = .ok v ↔ c.root.peek? p.keys = some v ∧ v.isNull = false) := by
  have agree := c.agrees path
  exact ⟨agree.held_iff, agree.absent_iff, agree.badPath_iff, agree.pending_iff,
    fun resolved p wellFormed v => getValue_eq_ok_iff resolved wellFormed⟩

/-- A path through an object, and one to a null. -/
theorem hasPath_getValue_example :
    let p : Provenance := { origin := .named "example" }
    let a := object p false [("b", bool p true), ("n", null p)]
    let c : Config := ⟨object p false [("a", a)], rfl⟩
    (c.isResolved = true ∧ Path.ofParameter? "a.b" = .ok ⟨"a", ["b"]⟩
        ∧ Path.ofParameter? "a.n" = .ok ⟨"a", ["n"]⟩)
      ∧ c.getValue "a.b" = .ok (bool p true) ∧ c.hasPath "a.b" = .ok true
      ∧ ∀ v, c.getValue "a.n" ≠ .ok v := by
  intro p a c
  have value : Path.ofParameter? "a.b" = .ok ⟨"a", ["b"]⟩ := rfl
  have null : Path.ofParameter? "a.n" = .ok ⟨"a", ["n"]⟩ := rfl
  have read := ((hasPath_getValue c "a.b").2.2.2.2 rfl _ value (bool p true)).2 ⟨rfl, rfl⟩
  refine ⟨⟨rfl, value, null⟩, read, (hasPath_getValue c _).1.2 ⟨_, read⟩, fun v found => ?_⟩
  obtain ⟨there, notNull⟩ := ((hasPath_getValue c "a.n").2.2.2.2 rfl _ null v).1 found
  cases there
  cases notNull

end Config

end Hocon
