import Hocon.Number
import Hocon.Span
import Hocon.Text.Blank
import Hocon.Text.Quoted

/-!
# Tokens

A document is a sequence of tokens.  Text that is no token is a token too, of the kind
`problem`, so that reading a text never fails; whoever meets the problem reports it.
-/

namespace Hocon

/-- A scalar that one token spells. -/
inductive Literal where
  | null
  | bool (value : Bool)
  /-- A whole number and its spelling. -/
  | whole (value : Int64) (text : String)
  /-- A number with a point or an exponent, and its spelling. -/
  | double (value : Double) (text : String)
  /-- The content of a quoted string. -/
  | string (text : String)
  deriving DecidableEq, Repr

namespace Literal

/-- The literal as a piece of a path or of a joined text. -/
def text : Literal → String
  | null => "null"
  | bool b => if b then "true" else "false"
  | whole _ text => text
  | double _ text => text
  | string text => text

/-- The kind of the literal, in messages. -/
def kindName : Literal → String
  | null => "NULL"
  | bool _ => "BOOLEAN"
  | whole _ _ => "NUMBER"
  | double _ _ => "NUMBER"
  | string _ => "STRING"

end Literal

/-! ### Problems -/

/-- Why some text is no token. -/
inductive LexicalProblem where
  /-- A character that must be quoted. -/
  | reserved (c : Char)
  | openString
  | openRawString
  /-- A control character inside a quoted string. -/
  | control (c : Char)
  | nothingAfterBackslash
  | unknownEscape (c : Char)
  | cutHexEscape
  | malformedHex (digits : String)
  /-- A leading surrogate followed by an escape that is not a trailing one. -/
  | unpairedSurrogate (lead follow : Nat)
  /-- An escape that names no character. -/
  | noCharacter (unit : Nat)
  | plusWithoutEquals (next : Option Char)
  | dollarWithoutBrace (next : Option Char)
  | openSubstitution
  deriving DecidableEq, Repr

namespace LexicalProblem

/-- The character that follows, in messages. -/
def describeNext : Option Char → String
  | some c => c.toString
  | none => "end of file"

/-- The text that the problem is about. -/
def subject : LexicalProblem → String
  | reserved c => c.toString
  | openString => "\""
  | openRawString => "\"\"\""
  | control c => Text.showQuotedChar c
  | nothingAfterBackslash => "\\"
  | unknownEscape c => c.toString
  | cutHexEscape => "\\u"
  | malformedHex digits => digits
  | unpairedSurrogate _ _ => "\\u"
  | noCharacter _ => "\\u"
  | plusWithoutEquals _ => "+"
  | dollarWithoutBrace _ => "$"
  | openSubstitution => "$\x7b"

/-- A code unit as four digits in base sixteen. -/
def unitText (unit : Nat) : String :=
  String.ofList (Text.hex 4 unit)

def message : LexicalProblem → String
  | reserved c => "Reserved character '" ++ c.toString ++ "' is not allowed outside quotes"
  | openString => "End of input but string quote was still open"
  | openRawString => "End of input but triple-quoted string was still open"
  | control c =>
    "JSON does not allow unescaped " ++ Text.showQuotedChar c
      ++ " in quoted strings, use a backslash escape"
  | nothingAfterBackslash => "End of input but backslash in string had nothing after it"
  | unknownEscape c =>
    "backslash followed by '" ++ c.toString
      ++ "', this is not a valid escape sequence (quoted strings use JSON escaping, "
      ++ "so use double-backslash \\\\ for literal backslash)"
  | cutHexEscape => "End of input but expecting 4 hex digits for \\uXXXX escape"
  | malformedHex digits =>
    "Malformed hex digits after \\u escape in string: '" ++ digits ++ "'"
  | unpairedSurrogate lead follow =>
    "Expected a low surrogate after \\u" ++ unitText lead ++ ", got \\u" ++ unitText follow
  | noCharacter unit => "Invalid unicode code point after \\u escape: " ++ unitText unit
  | plusWithoutEquals next =>
    "'+' not followed by =, '" ++ describeNext next ++ "' not allowed after '+'"
  | dollarWithoutBrace next =>
    "'$' not followed by \x7b, '" ++ describeNext next ++ "' not allowed after '$'"
  | openSubstitution => "Substitution $\x7b was not closed with a \x7d"

/-- Whether quoting the text is likely to help. -/
def suggestsQuotes : LexicalProblem → Bool
  | reserved _ => true
  | plusWithoutEquals _ => true
  | dollarWithoutBrace _ => true
  | _ => false

end LexicalProblem

/-! ### Tokens and their places -/

/-- Something read from a text, with its place there. -/
structure Placed (α : Type) where
  kind : α
  span : Span
  /-- The line it starts on, counted from one. -/
  line : Nat
  deriving Repr

/-- What a token is. -/
inductive TokenKind where
  /-- Stands before everything else. -/
  | start
  /-- Stands after everything else. -/
  | stop
  | comma
  | equals
  | colon
  | openBrace
  | closeBrace
  | openBracket
  | closeBracket
  | plusEquals
  | newline
  | value (literal : Literal)
  /-- Text without quotes, or the blanks between two values of one line. -/
  | bare (text : String)
  /-- A path between `${` and `}`, or after `${?`; the path is any tokens so far. -/
  | substitution (optional : Bool) (expression : List (Placed TokenKind))
  /-- The text of a comment without its marker. -/
  | comment (text : String) (slashes : Bool)
  | problem (cause : LexicalProblem)

/-- A token with its place. -/
abbrev Token := Placed TokenKind

namespace TokenKind

/-- Whether this is a value that joins its neighbours on the same line. -/
def isSimpleValue : TokenKind → Bool
  | value _ => true
  | bare _ => true
  | substitution _ _ => true
  | _ => false

/-- Whether an object or a list opens here. -/
def opensContainer : TokenKind → Bool
  | openBrace => true
  | openBracket => true
  | _ => false

/-- Whether this is the sign that sets a value. -/
def isEquals : TokenKind → Bool
  | equals => true
  | _ => false

/-- Whether this is the sign that adds to a list. -/
def isPlusEquals : TokenKind → Bool
  | plusEquals => true
  | _ => false

/-- Whether this is the keyword of an include statement. -/
def isInclude : TokenKind → Bool
  | bare text => text == "include"
  | _ => false

/-- Whether this is bare text of blanks only. -/
def isBlank : TokenKind → Bool
  | bare text => text.toList.all Text.isBlank
  | _ => false

mutual

/-- The token in messages. -/
def describe : TokenKind → String
  | start => "start of file"
  | stop => "end of file"
  | comma => "','"
  | equals => "'='"
  | colon => "':'"
  | openBrace => "'\x7b'"
  | closeBrace => "'\x7d'"
  | openBracket => "'['"
  | closeBracket => "']'"
  | plusEquals => "'+='"
  | newline => "newline"
  | value literal => "'" ++ literal.text ++ "' (" ++ literal.kindName ++ ")"
  | bare text => "'" ++ text ++ "'"
  | substitution optional expression =>
    "'$\x7b" ++ (if optional then "?" else "") ++ describeExpression expression ++ "\x7d'"
  | comment text slashes => "'" ++ (if slashes then "//" else "#") ++ text ++ "'"
  | problem cause => "'" ++ cause.subject ++ "'"

/-- The tokens of a path, one after the other. -/
def describeExpression : List Token → String
  | [] => ""
  | t :: ts => describePiece t ++ describeExpression ts

/-- A token of a path: text stands for itself. -/
def describePiece : Token → String
  | ⟨kind, _, _⟩ =>
    match kind with
    | bare text => text
    | value literal => literal.text
    | other => describe other

end

end TokenKind

end Hocon
