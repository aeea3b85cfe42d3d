import Hocon.Proofs.Bearing
import Hocon.Proofs.Recognition

/-!
# Fields of a document

A document has a field where its phrase has one, at whatever depth: in an object that stands beside
others, in an item of a list, in the value of another field (`Script.HasField`).  The path of the
field leads there, and no other field defines it: neither the path itself, nor an extension of it,
nor a part of the way to it with anything but objects (`Body.Misses`).  Whatever a phrase with no
such field means has nothing at the path (`Body.Misses.gives_sense`).
-/

namespace Hocon

open Value Document

/-! ### Phrases that define other paths -/

mutual

/-- An object that does not define the path. -/
inductive Term.Misses : Term → List String → Prop
  | object {body : Body} {path : List String} (h : Body.Misses body path) :
      Term.Misses (.object body) path

/-- Objects beside each other that do not define the path. -/
inductive Terms.Misses : Terms → List String → Prop
  | nil {path : List String} : Terms.Misses .nil path
  | cons {term : Term} {terms : Terms} {path : List String} (head : Term.Misses term path)
      (tail : Terms.Misses terms path) : Terms.Misses (.cons term terms) path

/-- A value of objects that do not define the path. -/
inductive Row.Misses : Row → List String → Prop
  | mk {term : Term} {terms : Terms} {path : List String} (head : Term.Misses term path)
      (tail : Terms.Misses terms path) : Row.Misses (.mk term terms) path

/-- Fields none of which defines the path, or an extension of it, or a part of the way to it with
anything but objects. -/
inductive Body.Misses : Body → List String → Prop
  | nil {path : List String} : Body.Misses .nil path
  | apart {key : Path} {grows : Bool} {row : Row} {rest : Body} {path : List String}
      (h : Diverge key.keys path) (tail : Body.Misses rest path) :
      Body.Misses (.field key grows row rest) path
  | along {key : Path} {row : Row} {rest : Body} {path : List String} (onward : path ≠ [])
      (head : Row.Misses row path) (tail : Body.Misses rest (key.keys ++ path)) :
      Body.Misses (.field key false row rest) (key.keys ++ path)

end

theorem Body.Misses.tail {key : Path} {grows : Bool} {row : Row} {body : Body}
    {path : List String} : Body.Misses (.field key grows row body) path → Body.Misses body path
  | .apart _ tail => tail
  | .along _ _ tail => tail

/-! ### Neighbours -/

def Rows.length : Rows → Nat
  | nil => 0
  | cons _ rows => rows.length + 1

/-- A neighbour of the value that steps start from, which leaves alone what they lead to: an object
that does not define the path, or another part of the list. -/
inductive Term.Beside : Term → List TreeStep → Prop
  | object {body : Body} {key : String} {steps : List TreeStep}
      (h : Body.Misses body (key :: leadingKeys steps)) :
      Term.Beside (.object body) (.field key :: steps)
  | list (rows : Rows) (i : Nat) (steps : List TreeStep) :
      Term.Beside (.list rows) (.item i :: steps)

inductive Terms.Beside : Terms → List TreeStep → Prop
  | nil {steps : List TreeStep} : Terms.Beside .nil steps
  | cons {term : Term} {terms : Terms} {steps : List TreeStep} (head : Term.Beside term steps)
      (tail : Terms.Beside terms steps) : Terms.Beside (.cons term terms) steps

/-- The steps as they are behind a neighbour: its items come first. -/
def Term.shift : Term → List TreeStep → List TreeStep
  | .list rows, .item i :: steps => .item (rows.length + i) :: steps
  | _, steps => steps

/-! ### Fields that alone define their path -/

/-- A value of one token that stands for itself. -/
inductive Scalar where
  | literal (literal : Literal)
  | bare (text : String)

namespace Scalar

def term : Scalar → Term
  | literal l => .literal l
  | bare text => .bare text

def kind : Scalar → TokenKind
  | literal l => .value l
  | bare text => .bare text

/-- The value of the scalar, with an origin. -/
def value (o : Origin) : Scalar → Value
  | literal l => literalValue o l
  | bare text => .bareText o text

end Scalar

section

variable (scalar : Scalar)

mutual

/-- The term has a field with the scalar at the end of the steps, which alone defines its path;
tokens of these kinds are a way of writing the term, and the field starts behind those of the
latter. -/
inductive Term.HasField : Term → List TokenKind → List TokenKind → List TreeStep → Prop
  | object (n : Nat) {body : Body} {kinds front : List TokenKind} {steps : List TreeStep}
      (h : Body.HasField body kinds front steps) :
      Term.HasField (.object body) (.openBrace :: (newlines n ++ (kinds ++ [.closeBrace])))
        (.openBrace :: (newlines n ++ front)) steps
  | list (n : Nat) {rows : Rows} {kinds front : List TokenKind} {steps : List TreeStep}
      (h : Rows.HasField rows kinds front steps) :
      Term.HasField (.list rows) (.openBracket :: (newlines n ++ (kinds ++ [.closeBracket])))
        (.openBracket :: (newlines n ++ front)) steps

/-- The same of terms beside each other. -/
inductive Terms.HasField : Terms → List TokenKind → List TokenKind → List TreeStep → Prop
  | head {term : Term} {terms : Terms} {kinds kinds' front : List TokenKind}
      {steps : List TreeStep} (h : Term.HasField term kinds front steps)
      (tail : Terms.Written terms kinds') (beside : Terms.Beside terms steps) :
      Terms.HasField (.cons term terms) (kinds ++ kinds') front steps
  | tail {term : Term} {terms : Terms} {kinds kinds' front : List TokenKind}
      {steps : List TreeStep} (head : Term.Written term kinds) (beside : Term.Beside term steps)
      (h : Terms.HasField terms kinds' front steps) :
      Terms.HasField (.cons term terms) (kinds ++ kinds') (kinds ++ front) (term.shift steps)

/-- The same of a value. -/
inductive Row.HasField : Row → List TokenKind → List TokenKind → List TreeStep → Prop
  | mk {term : Term} {terms : Terms} {kinds front : List TokenKind} {steps : List TreeStep}
      (h : Terms.HasField (.cons term terms) kinds front steps) :
      Row.HasField (.mk term terms) kinds front steps

/-- The same of the items of a list. -/
inductive Rows.HasField : Rows → List TokenKind → List TokenKind → List TreeStep → Prop
  | head {row : Row} {rows : Rows} {kinds gap rest front : List TokenKind} {steps : List TreeStep}
      (h : Row.HasField row kinds front steps) (hgap : WritesGap rows.isNil gap)
      (hrest : Rows.Written rows rest) :
      Rows.HasField (.cons row rows) (kinds ++ (gap ++ rest)) front (.item 0 :: steps)
  | tail {row : Row} {rows : Rows} {kinds gap rest front : List TokenKind} {i : Nat}
      {steps : List TreeStep} (hrow : Row.Written row kinds) (hgap : WritesGap rows.isNil gap)
      (h : Rows.HasField rows rest front (.item i :: steps)) :
      Rows.HasField (.cons row rows) (kinds ++ (gap ++ rest)) (kinds ++ (gap ++ front))
        (.item (i + 1) :: steps)

/-- The same of fields; here is the field itself, whose key, sign and scalar are on one line. -/
inductive Body.HasField : Body → List TokenKind → List TokenKind → List TreeStep → Prop
  | here {key : Path} {body : Body} {sign : TokenKind} {keys gap rest : List TokenKind}
      (hkey : WritesKey key keys) (hsign : WritesSign false sign)
      (hgap : WritesGap body.isNil gap) (hrest : Body.Written body rest)
      (misses : Body.Misses body key.keys) :
      Body.HasField (.field key false (.mk scalar.term .nil) body)
        (keys ++ ([sign] ++ ([scalar.kind] ++ (gap ++ rest)))) [] (key.keys.map .field)
  | inside {key : Path} {row : Row} {body : Body} {keys link kinds gap rest front : List TokenKind}
      {steps : List TreeStep} (hkey : WritesKey key keys) (hlink : WritesLink false row link)
      (h : Row.HasField row kinds front steps) (hgap : WritesGap body.isNil gap)
      (hrest : Body.Written body rest)
      (misses : Body.Misses body (key.keys ++ leadingKeys steps)) :
      Body.HasField (.field key false row body) (keys ++ (link ++ (kinds ++ (gap ++ rest))))
        (keys ++ (link ++ front)) (key.keys.map .field ++ steps)
  | behind {key : Path} {grows : Bool} {row : Row} {body : Body}
      {keys link kinds gap rest front : List TokenKind} {steps : List TreeStep}
      (hkey : WritesKey key keys) (hlink : WritesLink grows row link)
      (hrow : Row.Written row kinds) (hgap : WritesGap body.isNil gap)
      (misses : Body.Misses (.field key grows row .nil) (leadingKeys steps))
      (h : Body.HasField body rest front steps) :
      Body.HasField (.field key grows row body) (keys ++ (link ++ (kinds ++ (gap ++ rest))))
        (keys ++ (link ++ (kinds ++ (gap ++ front)))) steps

end

/-- The same of a document whose root is an object, with braces around it or without. -/
inductive Script.HasField : Script → List TokenKind → List TokenKind → List TreeStep → Prop
  | object (m n : Nat) {body : Body} {kinds front : List TokenKind} {steps : List TreeStep}
      (h : Term.HasField scalar (.object body) kinds front steps) :
      Script.HasField (.term (.object body)) (newlines m ++ (kinds ++ newlines n))
        (newlines m ++ front) steps
  | body (n : Nat) {body : Body} {kinds front : List TokenKind} {steps : List TreeStep}
      (h : Body.HasField scalar body kinds front steps) :
      Script.HasField (.body body) (newlines n ++ kinds) (newlines n ++ front) steps

end

variable {scalar : Scalar}

theorem Scalar.written : ∀ scalar : Scalar, Term.Written scalar.term [scalar.kind]
  | .literal l => .literal l
  | .bare text => .bare text

theorem Scalar.startsTerm (scalar : Scalar) : scalar.kind.startsTerm = true := by
  cases scalar <;> rfl

/-! ### What has a field is written -/

mutual

theorem Term.HasField.written {term : Term} {kinds front : List TokenKind}
    {steps : List TreeStep} :
    Term.HasField scalar term kinds front steps → Term.Written term kinds
  | .object n h => .object n h.written
  | .list n h => .list n h.written

theorem Terms.HasField.written {terms : Terms} {kinds front : List TokenKind}
    {steps : List TreeStep} :
    Terms.HasField scalar terms kinds front steps → Terms.Written terms kinds
  | .head h tail _ => .cons h.written tail
  | .tail head _ h => .cons head h.written

theorem Row.HasField.written {row : Row} {kinds front : List TokenKind}
    {steps : List TreeStep} :
    Row.HasField scalar row kinds front steps → Row.Written row kinds
  | .mk h => by
    cases h.written with
    | cons head tail => exact .mk head tail

theorem Rows.HasField.written {rows : Rows} {kinds front : List TokenKind}
    {steps : List TreeStep} :
    Rows.HasField scalar rows kinds front steps → Rows.Written rows kinds
  | .head h hgap hrest => .cons h.written hgap hrest
  | .tail hrow hgap h => .cons hrow hgap h.written

theorem Body.HasField.written {body : Body} {kinds front : List TokenKind}
    {steps : List TreeStep} :
    Body.HasField scalar body kinds front steps → Body.Written body kinds
  | .here hkey hsign hgap hrest _ =>
    .field hkey (.sign 0 0 _ hsign) (.ofTerm scalar.written) hgap hrest
  | .inside hkey hlink h hgap hrest _ => .field hkey hlink h.written hgap hrest
  | .behind hkey hlink hrow hgap _ h => .field hkey hlink hrow hgap h.written

end

/-- A field is in an object or in an item of a list. -/
theorem Body.HasField.exists_field {body : Body} {kinds front : List TokenKind}
    {steps : List TreeStep} :
    Body.HasField scalar body kinds front steps → ∃ key rest, steps = .field key :: rest
  | .here .. => ⟨_, _, rfl⟩
  | .inside .. => ⟨_, _, rfl⟩
  | .behind _ _ _ _ _ h => h.exists_field

/-! ### What phrases mean that define other paths -/

section

variable {answer : IncludeRequest → Loading Value} {place path : List String}
  {steps : List TreeStep}

theorem Value.Misses.isPiece {v : Value} (h : v.Misses path) : v.isPiece = true := by
  obtain ⟨key, path, rfl⟩ := List.exists_cons_of_ne_nil h.ne_nil
  obtain ⟨p, fs, rfl⟩ := h.exists_object
  rfl

/-- Objects that miss a path are joined to one that does. -/
theorem Value.Misses.gives_joinedValue {v : Value} {vs : List Value} (hv : v.Misses path)
    (hvs : ∀ w ∈ vs, w.Misses path) : Gives (joinedValue (v :: vs)) (·.Misses path) := by
  obtain ⟨key, path, rfl⟩ := List.exists_cons_of_ne_nil hv.ne_nil
  have beside {w : Value} : w.Beside (.field key :: path.map .field) ↔ w.Misses (key :: path) := by
    rw [Beside, leadingKeys_map]
  obtain ⟨u, joined, hu⟩ := exists_concatenate_beside (beside.2 hv)
    (fun w hw => beside.2 (hvs w hw)) (List.forall_mem_cons.2 ⟨hv.isPiece, fun w hw =>
      (hvs w hw).isPiece⟩)
  rw [joinedValue, joined]
  exact .pure (beside.1 hu)

mutual

theorem Term.Misses.gives_sense {place : List String} {term : Term} {path : List String}
    (onward : path ≠ []) : Term.Misses term path →
      Gives (term.sense answer place) (·.Misses path)
  | .object h => by
    rw [Term.sense]
    exact (h.gives_sense onward (misses_nil onward)).bind fun fs missing => .pure missing

theorem Terms.Misses.gives_sense {place : List String} {terms : Terms} {path : List String}
    (onward : path ≠ []) : Terms.Misses terms path →
      Gives (terms.sense answer place) (∀ v ∈ ·, v.Misses path)
  | .nil => by
    rw [Terms.sense]
    exact .pure (List.forall_mem_nil _)
  | .cons head tail => by
    rw [Terms.sense]
    refine (head.gives_sense onward).bind fun v hv => ?_
    exact (tail.gives_sense onward).bind fun vs hvs => .pure (List.forall_mem_cons.2 ⟨hv, hvs⟩)

theorem Row.Misses.gives_sense {place : List String} {row : Row} {path : List String}
    (onward : path ≠ []) : Row.Misses row path → Gives (row.sense answer place) (·.Misses path)
  | .mk head tail => by
    rw [Row.sense]
    refine (head.gives_sense onward).bind fun v hv => ?_
    exact (tail.gives_sense onward).bind fun vs hvs => hv.gives_joinedValue hvs

/-- **Fields that define other paths put nothing at a path.** -/
theorem Body.Misses.gives_sense {place : List String} {body : Body} {path : List String}
    (onward : path ≠ []) {p : Provenance} {fs : Entries Value}
    (hfs : (object p false fs).Misses path) : Body.Misses body path →
      Gives (body.sense answer place fs) fun gs => (object p false gs).Misses path
  | .nil => by
    rw [Body.sense]
    exact .pure hfs
  | @Body.Misses.apart key grows row rest _ h tail => by
    rw [Body.sense]
    refine .after fun v => .bind (P := fun gs => (object p false gs).Misses path) ?_
      fun gs hgs => tail.gives_sense onward hgs
    rw [definedFields]
    refine .after fun v => ?_
    have elsewhere : (nest v key.keys).Misses path := misses_nest_of_diverge h v
    exact .pure (hfs.includeField elsewhere)
  | @Body.Misses.along key row rest path' onward' head tail => by
    rw [Body.sense]
    refine (head.gives_sense onward').bind fun v hv => ?_
    rw [definedFields, grownValue, if_neg Bool.false_ne_true]
    simp only [pure_bind]
    exact tail.gives_sense onward (hfs.includeField (hv.nest key.keys))

end

/-- A list has as many items as there are rows. -/
theorem Rows.gives_sense (answer : IncludeRequest → Loading Value) (place : List String) :
    ∀ rows : Rows, Gives (rows.sense answer place) fun vs => vs.length = rows.length
  | .nil => by
    rw [Rows.sense]
    exact .pure rfl
  | .cons row rows => by
    rw [Rows.sense]
    refine .after fun v => ?_
    exact (Rows.gives_sense answer place rows).bind fun vs length =>
      .pure (congrArg (· + 1) length)

/-- A neighbour means a neighbour, behind which the steps are the same. -/
theorem Term.Beside.gives_sense {term : Term} (h : term.Beside steps) :
    Gives (term.sense answer place) fun v =>
      v.Beside steps ∧ v.shift steps = term.shift steps := by
  cases h with
  | object h =>
    rw [Term.sense]
    refine (h.gives_sense (List.cons_ne_nil _ _) (misses_nil (List.cons_ne_nil _ _))).bind
      fun fs missing => .pure ⟨missing, rfl⟩
  | list rows i steps =>
    rw [Term.sense]
    refine (Rows.gives_sense answer place rows).bind fun vs length => .pure ⟨rfl, ?_⟩
    rw [Value.shift, Term.shift, ← length]
    rfl

theorem Terms.Beside.gives_sense {terms : Terms} (h : terms.Beside steps) :
    Gives (terms.sense answer place) (∀ v ∈ ·, v.Beside steps) := by
  induction h with
  | nil =>
    rw [Terms.sense]
    exact .pure (List.forall_mem_nil _)
  | cons head tail ih =>
    rw [Terms.sense]
    refine head.gives_sense.bind fun v hv => ?_
    exact ih.bind fun vs hvs => .pure (List.forall_mem_cons.2 ⟨hv.1, hvs⟩)

end

end Hocon
