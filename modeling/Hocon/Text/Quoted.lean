import Hocon.Text.Numeral
import Hocon.Text.Hidden

/-!
# Quoted text

Two ways to write a text between double quotes: `quote` is the JSON string literal, which
documents use, and `showQuoted` the form for messages, in which every character can be
seen.  `bareOrQuoted` leaves the quotes out where the text reads back without them.
-/

namespace Hocon.Text

/-! ### Hexadecimal digits -/

/-- The lower case digits of `n` in base sixteen, at least `width` of them. -/
def hex (width n : Nat) : List Char :=
  let digits := Nat.toDigits 16 n
  List.replicate (width - digits.length) '0' ++ digits

/-! ### JSON string literals -/

/-- Whether `c` is a control character. -/
def isControl (c : Char) : Bool :=
  c.toNat < 0x20 || 0x7F ≤ c.toNat && c.toNat ≤ 0x9F

/-- A character inside a JSON string literal: the quote, the backslash and the control
characters are escaped. -/
def quoteChar (c : Char) : List Char :=
  if c == '"' then ['\\', '"']
  else if c == '\\' then ['\\', '\\']
  else if c == '\n' then ['\\', 'n']
  else if c == '\x08' then ['\\', 'b']
  else if c == '\x0c' then ['\\', 'f']
  else if c == '\r' then ['\\', 'r']
  else if c == '\t' then ['\\', 't']
  else if isControl c then '\\' :: 'u' :: hex 4 c.toNat
  else [c]

/-- The JSON string literal for a text. -/
def quote (s : String) : String :=
  String.ofList ('"' :: (s.toList.flatMap quoteChar ++ ['"']))

/-- Words that a bare text may not start with: it would read as something else. -/
def reservedWords : List String := ["include", "true", "false", "null"]

/-- Whether `word` occurs in `cs`. -/
def containsWord (word : List Char) : List Char → Bool
  | [] => word.isEmpty
  | c :: cs => word.isPrefixOf (c :: cs) || containsWord word cs

/-- Whether a text reads back as itself without quotes. -/
def readsBare (s : String) : Bool :=
  match s.toList with
  | [] => false
  | first :: rest =>
    let cs := first :: rest
    !(first.isDigit || first == '-')
      && !reservedWords.any (fun w => w.toList.isPrefixOf cs)
      && !containsWord ['/', '/'] cs
      && cs.all fun c => isWordChar c || c == '-'

/-- The text as it is where it reads back without quotes, else its JSON string literal. -/
def bareOrQuoted (s : String) : String :=
  if readsBare s then s else quote s

/-! ### Text in messages -/

/-- A character inside a text that a message shows; `fence` is the quote around it. -/
def showChar (fence : Char) (c : Char) : List Char :=
  if c == '\x00' then ['\\', '0']
  else if c == '\t' then ['\\', 't']
  else if c == '\r' then ['\\', 'r']
  else if c == '\n' then ['\\', 'n']
  else if c == '\\' then ['\\', '\\']
  else if c == fence then ['\\', fence]
  else if isHidden c then ['\\', 'u', '\x7b'] ++ Nat.toDigits 16 c.toNat ++ ['\x7d']
  else [c]

/-- A text between double quotes, as messages show it. -/
def showQuoted (s : String) : String :=
  String.ofList ('"' :: (s.toList.flatMap (showChar '"') ++ ['"']))

/-- A character between single quotes, as messages show it. -/
def showQuotedChar (c : Char) : String :=
  String.ofList ('\'' :: (showChar '\'' c ++ ['\'']))

end Hocon.Text
