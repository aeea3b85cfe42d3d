import Hocon.Token

/-!
# Scanning one token

Each scanner takes the characters at its place and gives what it read together with the
characters left over.  What is left over is never longer than what was there
(`scanQuoted_length_le` and its like), which is why reading a whole text comes to an end.
-/

namespace Hocon.Scan

open Text

/-- What a scanner read, or why it could not, and the characters that are left. -/
abbrev Outcome (α : Type) := Except LexicalProblem α × List Char

/-! ### Character classes -/

/-- The characters that end bare text and may not start it. -/
def reservedChars : List Char := "$\"\x7b\x7d[]:=,+#`^?!@*&\\".toList

def isReserved (c : Char) : Bool :=
  reservedChars.contains c

/-- Whether a number may start with `c`. -/
def startsNumber (c : Char) : Bool :=
  c.isDigit || c == '-'

/-- Whether a number may go on with `c`. -/
def continuesNumber (c : Char) : Bool :=
  c.isDigit || c == 'e' || c == 'E' || c == '+' || c == '-' || c == '.'

/-- Whether a comment starts here, where comments are allowed. -/
def opensComment (comments : Bool) : List Char → Bool
  | '#' :: _ => comments
  | '/' :: '/' :: _ => comments
  | _ => false

/-! ### Comments -/

/-- The text of a comment after its marker, up to the end of the line and without the
carriage returns there. -/
def scanComment (cs : List Char) : List Char × List Char :=
  let text := cs.takeWhile (· != '\n')
  ((text.reverse.dropWhile (· == '\r')).reverse, cs.dropWhile (· != '\n'))

/-! ### Bare text and keywords -/

/-- The literal that a keyword stands for. -/
def keyword? (text : List Char) : Option Literal :=
  if text = "true".toList then some (.bool true)
  else if text = "false".toList then some (.bool false)
  else if text = "null".toList then some .null
  else none

/-- Bare text, where `taken` was read before, last character first.  A keyword ends the
text as soon as it is complete. -/
def scanBare (comments : Bool) (taken : List Char) : List Char → TokenKind × List Char
  | [] => (.bare (String.ofList taken.reverse), [])
  | c :: cs =>
    if isReserved c || isBlank c || opensComment comments (c :: cs) then
      (.bare (String.ofList taken.reverse), c :: cs)
    else
      match keyword? (c :: taken).reverse with
      | some literal => (.value literal, cs)
      | none => scanBare comments (c :: taken) cs

theorem scanBare_length_le (comments : Bool) (taken cs : List Char) :
    (scanBare comments taken cs).2.length ≤ cs.length := by
  induction cs generalizing taken with
  | nil => simp [scanBare]
  | cons c cs ih =>
    rw [scanBare]
    split
    · exact Nat.le_refl _
    · split
      · exact Nat.le_succ _
      · exact Nat.le_succ_of_le (ih _)

/-! ### Numbers -/

/-- The number that a spelling stands for: whole unless it has a point or an exponent. -/
def numberLiteral? (text : List Char) : Option Literal :=
  if text.any fun c => c == '.' || c == 'e' || c == 'E' then
    (Double.ofText? text).map fun d => .double d (String.ofList text)
  else
    (readInt64? text).map fun n => .whole n (String.ofList text)

/-- A run of number characters after its first one.  A run that spells no number is bare
text, or a problem if bare text may not hold it. -/
def scanNumber (first : Char) (cs : List Char) : Outcome TokenKind :=
  let text := first :: cs.takeWhile continuesNumber
  let rest := cs.dropWhile continuesNumber
  match numberLiteral? text with
  | some literal => (.ok (.value literal), rest)
  | none =>
    match text.find? isReserved with
    | some c => (.error (.reserved c), rest)
    | none => (.ok (.bare (String.ofList text)), rest)

theorem dropWhile_length_le {α : Type} (p : α → Bool) (xs : List α) :
    (xs.dropWhile p).length ≤ xs.length :=
  (List.dropWhile_suffix p).length_le

theorem scanNumber_length_le (first : Char) (cs : List Char) :
    (scanNumber first cs).2.length ≤ cs.length := by
  rw [scanNumber]
  split
  · exact dropWhile_length_le _ _
  · split <;> exact dropWhile_length_le _ _

/-! ### Quoted strings -/

/-- The value of a digit in base sixteen. -/
def hexValue? (c : Char) : Option Nat :=
  if c.isDigit then some (c.toNat - '0'.toNat)
  else if 'a' ≤ c ∧ c ≤ 'f' then some (c.toNat - 'a'.toNat + 10)
  else if 'A' ≤ c ∧ c ≤ 'F' then some (c.toNat - 'A'.toNat + 10)
  else none

/-- The code unit that four digits in base sixteen stand for. -/
def hexUnit? (a b c d : Char) : Option Nat := do
  let a ← hexValue? a
  let b ← hexValue? b
  let c ← hexValue? c
  let d ← hexValue? d
  return ((a * 16 + b) * 16 + c) * 16 + d

/-- Four digits in base sixteen. -/
def scanHex : List Char → Outcome Nat
  | a :: b :: c :: d :: rest =>
    match hexUnit? a b c d with
    | some unit => (.ok unit, rest)
    | none => (.error (.malformedHex (String.ofList [a, b, c, d])), rest)
  | _ => (.error .cutHexEscape, [])

theorem scanHex_length_le (cs : List Char) : (scanHex cs).2.length ≤ cs.length := by
  unfold scanHex
  split
  · split <;> grind
  · simp

/-- The character with the given code point, surrogates having none. -/
def charOfCode? (n : Nat) : Option Char :=
  if h : n.isValidChar then some (Char.ofNatAux n h) else none

/-- The character of an escaped code unit. -/
def charOfUnit (unit : Nat) (rest : List Char) : Outcome Char :=
  match charOfCode? unit with
  | some c => (.ok c, rest)
  | none => (.error (.noCharacter unit), rest)

/-- The escape after `\u`: one code unit, or two for a character beyond the first plane. -/
def scanUnicode (cs : List Char) : Outcome Char :=
  match scanHex cs with
  | (.error p, rest) => (.error p, rest)
  | (.ok lead, rest) =>
    if 0xD800 ≤ lead ∧ lead < 0xDC00 then
      match rest with
      | '\\' :: 'u' :: rest =>
        match scanHex rest with
        | (.error p, rest) => (.error p, rest)
        | (.ok follow, rest) =>
          if 0xDC00 ≤ follow ∧ follow < 0xE000 then
            match charOfCode? (0x10000 + (lead - 0xD800) * 1024 + (follow - 0xDC00)) with
            | some c => (.ok c, rest)
            | none => (.error (.noCharacter lead), rest)
          else (.error (.unpairedSurrogate lead follow), rest)
      | rest => charOfUnit lead rest
    else charOfUnit lead rest

theorem charOfUnit_rest (unit : Nat) (rest : List Char) : (charOfUnit unit rest).2 = rest := by
  unfold charOfUnit
  split <;> rfl

theorem scanUnicode_length_le (cs : List Char) : (scanUnicode cs).2.length ≤ cs.length := by
  have first := scanHex_length_le cs
  unfold scanUnicode
  split
  · next e => rw [e] at first; exact first
  · next lead rest e =>
    rw [e] at first
    simp only at first
    split
    · split
      · next tail =>
        have second := scanHex_length_le tail
        simp only [List.length_cons] at first
        split
        · next e' => rw [e'] at second; simp only at second ⊢; omega
        · next e' =>
          rw [e'] at second
          simp only at second
          split
          · split <;> simp only <;> omega
          · simp only; omega
      · rw [charOfUnit_rest]; exact first
    · rw [charOfUnit_rest]; exact first

/-- The escape after a backslash. -/
def scanEscape : List Char → Outcome Char
  | [] => (.error .nothingAfterBackslash, [])
  | '"' :: rest => (.ok '"', rest)
  | '\\' :: rest => (.ok '\\', rest)
  | '/' :: rest => (.ok '/', rest)
  | 'b' :: rest => (.ok '\x08', rest)
  | 'f' :: rest => (.ok '\x0c', rest)
  | 'n' :: rest => (.ok '\n', rest)
  | 'r' :: rest => (.ok '\r', rest)
  | 't' :: rest => (.ok '\t', rest)
  | 'u' :: rest => scanUnicode rest
  | c :: rest => (.error (.unknownEscape c), rest)

theorem scanEscape_length_le (cs : List Char) : (scanEscape cs).2.length ≤ cs.length := by
  unfold scanEscape
  split <;> simp
  exact Nat.le_succ_of_le (scanUnicode_length_le _)

/-- The content of a string after its opening quote, where `taken` was read before, last
character first, and the characters after its closing quote. -/
def scanQuoted (taken : List Char) : List Char → Outcome (List Char)
  | [] => (.error .openString, [])
  | c :: cs =>
    if c = '"' then (.ok taken.reverse, cs)
    else if c = '\\' then
      let escape := scanEscape cs
      match escape.1 with
      | .ok escaped => scanQuoted (escaped :: taken) escape.2
      | .error p => (.error p, escape.2)
    else if c.toNat < 0x20 then (.error (.control c), cs)
    else scanQuoted (c :: taken) cs
termination_by cs => cs.length
decreasing_by
  · exact Nat.lt_succ_of_le (scanEscape_length_le cs)
  · exact Nat.lt_succ_self _

theorem scanQuoted_length_le (taken cs : List Char) :
    (scanQuoted taken cs).2.length ≤ cs.length := by
  fun_induction scanQuoted taken cs with
  | case1 => exact Nat.le_refl _
  | case2 => exact Nat.le_succ _
  | case3 => exact Nat.le_succ_of_le (Nat.le_trans (by assumption) (scanEscape_length_le _))
  | case4 => exact Nat.le_succ_of_le (scanEscape_length_le _)
  | case5 => exact Nat.le_succ _
  | case6 => exact Nat.le_succ_of_le (by assumption)

/-- The content of a string after three opening quotes.  Nothing is escaped, and the last
three quotes of a run close it. -/
def scanRaw (taken : List Char) : List Char → Outcome (List Char)
  | [] => (.error .openRawString, [])
  | c :: cs =>
    if ['"', '"', '"'].isPrefixOf (c :: cs) then
      let run := ((c :: cs).takeWhile (· == '"')).length
      (.ok (taken.reverse ++ List.replicate (run - 3) '"'), (c :: cs).dropWhile (· == '"'))
    else scanRaw (c :: taken) cs

theorem scanRaw_length_le (taken cs : List Char) :
    (scanRaw taken cs).2.length ≤ cs.length := by
  induction cs generalizing taken with
  | nil => simp [scanRaw]
  | cons c cs ih =>
    rw [scanRaw]
    split
    · exact dropWhile_length_le _ _
    · exact Nat.le_succ_of_le (ih _)

/-- A string after its first quote: two more quotes at once open a raw string. -/
def scanString (cs : List Char) : Outcome TokenKind :=
  let finish : Outcome (List Char) → Outcome TokenKind
    | (.ok content, rest) => (.ok (.value (.string (String.ofList content))), rest)
    | (.error p, rest) => (.error p, rest)
  match scanQuoted [] cs with
  | (.ok [], '"' :: rest) => finish (scanRaw [] rest)
  | other => finish other

theorem scanString_length_le (cs : List Char) : (scanString cs).2.length ≤ cs.length := by
  have quoted := scanQuoted_length_le [] cs
  unfold scanString
  split
  · next rest e =>
    rw [e] at quoted
    have raw := scanRaw_length_le [] rest
    simp only [List.length_cons] at quoted
    simp only
    split <;> next e' => rw [e'] at raw; simp only at raw ⊢; omega
  · next other h =>
    simp only
    split <;> next e' => rw [e'] at quoted; exact quoted

/-! ### Punctuation -/

/-- The sign after a plus. -/
def scanPlus : List Char → Outcome TokenKind
  | '=' :: rest => (.ok .plusEquals, rest)
  | rest => (.error (.plusWithoutEquals rest.head?), rest)

theorem scanPlus_length_le (cs : List Char) : (scanPlus cs).2.length ≤ cs.length := by
  unfold scanPlus
  split <;> simp

/-- The tokens of one character. -/
def punctuation? : Char → Option TokenKind
  | '\n' => some .newline
  | ':' => some .colon
  | ',' => some .comma
  | '=' => some .equals
  | '\x7b' => some .openBrace
  | '\x7d' => some .closeBrace
  | '[' => some .openBracket
  | ']' => some .closeBracket
  | _ => none

end Hocon.Scan
