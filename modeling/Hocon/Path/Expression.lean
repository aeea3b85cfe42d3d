import Hocon.Path
import Hocon.Token.Lexer

/-!
# Path expressions

A path expression is read from tokens: quoted strings are taken whole, and periods split
everything else, the spelling of numbers included.  `Path.ofPlain?` reads the most common
expressions, plain words between periods, without looking at tokens.
-/

namespace Hocon

/-- Why a text is no path expression. -/
inductive PathFault where
  /-- A token that is neither text nor a scalar; the text describes it. -/
  | strayToken (token : String)
  | nothing
  /-- A key with no characters and no quotes. -/
  | emptyKey
  deriving DecidableEq, Repr

/-- The wording of a fault. -/
def PathFault.message : PathFault → String
  | strayToken token =>
    "Token not allowed in path expression: " ++ token
      ++ " (you can double-quote this token if you really want it here)"
  | nothing => "Expecting a field name or path here, but got nothing"
  | emptyKey =>
    "path has a leading, trailing, or two adjacent period '.' "
      ++ "(use quoted \"\" empty string if you want an empty element)"

namespace Path

/-! ### Keys under construction -/

/-- A key while its pieces are put together. -/
structure KeyDraft where
  text : List Char := []
  /-- Set by a quoted string that leaves the key empty. -/
  mayBeEmpty : Bool := false

/-- The keys before the last period, last first, and the key that is still open. -/
structure Draft where
  done : List KeyDraft := []
  openKey : KeyDraft := {}

namespace Draft

/-- Adds text without quotes: each period closes a key. -/
def addBare (d : Draft) : List Char → Draft
  | [] => d
  | c :: cs =>
    if c = '.' then addBare { done := d.openKey :: d.done } cs
    else addBare { d with openKey := { d.openKey with text := d.openKey.text ++ [c] } } cs

/-- Adds quoted text: it belongs to the open key whole. -/
def addQuoted (d : Draft) (cs : List Char) : Draft :=
  let text := d.openKey.text ++ cs
  { d with openKey := { text, mayBeEmpty := d.openKey.mayBeEmpty || text.isEmpty } }

/-- All keys in order. -/
def keys (d : Draft) : List KeyDraft := (d.openKey :: d.done).reverse

/-- The finished path; a key without characters has to have been quoted. -/
def toPath? (d : Draft) : Except PathFault Path :=
  if d.keys.any fun k => k.text.isEmpty && !k.mayBeEmpty then .error .emptyKey
  else
    match ofKeys? (d.keys.map fun k => String.ofList k.text) with
    | some p => .ok p
    | none => .error .nothing

end Draft

/-! ### Reading tokens -/

/-- Adds one token of an expression. -/
def addToken (d : Draft) : TokenKind → Except PathFault Draft
  | .value (.string text) => .ok (d.addQuoted text.toList)
  | .value literal => .ok (d.addBare literal.text.toList)
  | .bare text => .ok (d.addBare text.toList)
  | other => .error (.strayToken other.describe)

/-- Adds all tokens of an expression, in order. -/
def addTokens (d : Draft) : List TokenKind → Except PathFault Draft
  | [] => .ok d
  | kind :: kinds =>
    match addToken d kind with
    | .ok d => addTokens d kinds
    | .error fault => .error fault

/-- The path that the tokens of an expression spell. -/
def ofTokens? (kinds : List TokenKind) : Except PathFault Path :=
  match addTokens {} kinds with
  | .error fault => .error fault
  | .ok d => if kinds.isEmpty then .error .nothing else d.toPath?

/-- The tokens of a text, without the ends. -/
def expressionTokens (text : List Char) : List TokenKind :=
  (Token.ofText .conf text).filterMap fun t =>
    match t.kind with
    | .start => none
    | .stop => none
    | kind => some kind

/-! ### Plain expressions -/

/-- Splits at every period. -/
def splitPeriods (current : List Char) : List Char → List (List Char)
  | [] => [current.reverse]
  | c :: cs =>
    if c = '.' then current.reverse :: splitPeriods [] cs
    else splitPeriods (c :: current) cs

theorem splitPeriods_eq (current cs : List Char) :
    splitPeriods current cs = List.splitOnPPrepend (· == '.') cs current := by
  induction cs generalizing current with
  | nil => rw [splitPeriods, List.splitOnPPrepend_nil]
  | cons c cs ih =>
    rw [splitPeriods, List.splitOnPPrepend_cons_eq_if, ih, ih, List.splitOnPPrepend_nil_right]
    simp only [beq_iff_eq]

theorem splitPeriods_nil (cs : List Char) : splitPeriods [] cs = cs.splitOn '.' := by
  rw [splitPeriods_eq, List.splitOnPPrepend_nil_right, List.splitOn_eq_splitOnP]

/-- Whether a character may stand in a plain expression. -/
def isPlain (c : Char) : Bool :=
  c.isAlphanum || c == '_' || c == '-' || c == '.'

/-- The path of an expression made of plain words between periods. -/
def ofPlain? (text : List Char) : Option Path :=
  let words := splitPeriods [] text
  -- a dash in front could start a number
  if words.any List.isEmpty || text.head? == some '-' || !text.all isPlain then none
  else ofKeys? (words.map String.ofList)

/-- The path that a text spells. -/
def ofText? (text : String) : Except PathFault Path :=
  match ofPlain? text.toList with
  | some p => .ok p
  | none => ofTokens? (expressionTokens text.toList)

end Path

end Hocon
