import Hocon.Error

/-!
# Reports

What a report about an error shows: a title and, where the place in the text is known, the
line and column, a label, and advice.

A report counts characters where a span counts bytes, so behind a character of several bytes
the pointer lies further on, and a place beyond the last character is not shown.
-/

namespace Hocon

/-- A line and a column of a text, counted from one. -/
structure Location where
  line : Nat
  column : Nat
  deriving DecidableEq, Repr

/-- What a report shows at a place in the text. -/
structure Pointer where
  location : Location
  label : String
  help : Option String
  deriving DecidableEq, Repr

/-- A report about an error. -/
structure Report where
  title : String
  pointer : Option Pointer
  deriving DecidableEq, Repr

namespace Location

/-- The characters that end a line. -/
def lineEnds : List Char :=
  ['\n', '\r', '\x0b', '\x0c', '\u0085', '\u2028', '\u2029']

/-- The place of the character number `n`, counted from `here`.  A line begins only where a
character follows, and the two characters of a line end count as one. -/
def advance (here : Location) : Nat → List Char → Option Location
  | 0, _ => some here
  | _ + 1, [] => none
  | n + 1, [_] => advance { here with column := here.column + 1 } n []
  | n + 1, c :: d :: cs =>
    if lineEnds.contains c && !(c == '\r' && d == '\n') then
      advance ⟨here.line + 1, 1⟩ n (d :: cs)
    else advance { here with column := here.column + 1 } n (d :: cs)

/-- The place of a character of a text, or of its end. -/
def ofOffset? (n : Nat) (text : List Char) : Option Location := advance ⟨1, 1⟩ n text

/-- The place with the name of the file. -/
def render (l : Location) (fileName : String) : String :=
  fileName ++ ":" ++ toString l.line ++ ":" ++ toString l.column

end Location

namespace Report

/-- The span kept within a text of `length` bytes. -/
def confine (span : Span) (length : Nat) : Span :=
  let start := min span.start length
  ⟨start, max start (min span.stop length)⟩

/-- Whether one text occurs in another. -/
def occursIn (part : List Char) : List Char → Bool
  | [] => part.isEmpty
  | c :: cs => part.isPrefixOf (c :: cs) || occursIn part cs

/-- The label at the place of an error. -/
def pointerLabel (message : String) : String :=
  if "Expecting".toList.isPrefixOf message.toList then "unexpected token"
  else if occursIn "not allowed".toList message.toList then "not allowed here"
  else "here"

/-- The advice that goes with a message. -/
def adviceFor (message : String) : Option String :=
  if occursIn "try enclosing".toList message.toList then
    some "quote the text with double quotes"
  else none

/-- What the report says on top.  With a place to point at, the origin is left out. -/
def titleOf (e : Error) : String :=
  match e with
  | .parse _ _ _ (some _) => e.complaint
  | .unresolved _ fault => "could not resolve substitution: " ++ fault.detail
  | e => e.message

/-- The pointer to a span of a text, if the text has all characters of the span. -/
def pointTo? (span : Span) (message : String) (text : List Char) : Option Pointer :=
  let span := confine span (Text.byteLength text)
  let lastIsThere := (Location.ofOffset? (max span.start (span.stop - 1)) text).isSome
  if lastIsThere then
    (Location.ofOffset? span.start text).map fun location =>
      { location, label := pointerLabel message, help := adviceFor message }
  else none

/-- The report about an error in a text. -/
def ofError (e : Error) (text : String) : Report :=
  { title := titleOf e
    pointer := e.span?.bind fun span => pointTo? span e.complaint text.toList }

end Report

end Hocon
