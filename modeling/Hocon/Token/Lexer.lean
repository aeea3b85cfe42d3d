import Hocon.Token.Scan
import Hocon.Syntax

/-!
# The tokens of a text

`Token.ofText` reads a whole text.  Blanks between tokens vanish, except between two values
of one line: there they become a token of bare text, because such values are joined.

Reading a substitution reads the tokens of its path, and a path may hold what looks like
another substitution, so one token may hold others to any depth.  Every call leaves less of
the text than it was given, which the types below record.
-/

namespace Hocon

open Text

/-! ### Places in a text -/

/-- The characters that are left, and the place they start at. -/
structure Cursor where
  rest : List Char
  place : Nat
  line : Nat

namespace Cursor

/-- The front of a text. -/
def ofText (text : List Char) : Cursor := ⟨text, 0, 1⟩

/-- The cursor moved on to where only `rest` is left. -/
def moveTo (c : Cursor) (rest : List Char) : Cursor :=
  let read := c.rest.take (c.rest.length - rest.length)
  ⟨rest, c.place + byteLength read, c.line + read.count '\n'⟩

@[simp] theorem rest_moveTo (c : Cursor) (rest : List Char) : (c.moveTo rest).rest = rest := rfl

/-- Whether `c` is a blank that does not end the line. -/
def isGap (c : Char) : Bool := c != '\n' && isBlank c

/-- The cursor behind the blanks of this line. -/
def skipGap (c : Cursor) : Cursor := c.moveTo (c.rest.dropWhile isGap)

/-- The blanks of this line. -/
def gap (c : Cursor) : List Char := c.rest.takeWhile isGap

theorem skipGap_length_le (c : Cursor) : c.skipGap.rest.length ≤ c.rest.length :=
  Scan.dropWhile_length_le _ _

/-- The token of the given kind from here to where only `rest` is left. -/
def token (c : Cursor) (kind : TokenKind) (rest : List Char) : Token × Cursor :=
  let next := c.moveTo rest
  (⟨kind, ⟨c.place, next.place⟩, c.line⟩, next)

@[simp] theorem token_rest (c : Cursor) (kind : TokenKind) (rest : List Char) :
    (c.token kind rest).2.rest = rest := rfl

/-- The token for the end of the text. -/
def stopToken (c : Cursor) : Token := ⟨.stop, .empty c.place, c.line⟩

/-- The blanks from here to `next` as a token, between two values of one line. -/
def gapToken (c next : Cursor) (afterValue beforeValue : Bool) : List Token :=
  if afterValue && beforeValue && !c.gap.isEmpty then
    [⟨.bare (String.ofList c.gap), ⟨c.place, next.place⟩, c.line⟩]
  else []

end Cursor

/-! ### Single tokens -/

namespace Scan

/-- What was read as a kind of token. -/
def toKind : Outcome TokenKind → TokenKind × List Char
  | (.ok kind, rest) => (kind, rest)
  | (.error p, rest) => (.problem p, rest)

/-- The token that starts with `first`, unless that opens a substitution. -/
def scanFlat (comments : Bool) (first : Char) (cs : List Char) : TokenKind × List Char :=
  if opensComment comments (first :: cs) then
    let slashes := first == '/'
    let (text, rest) := scanComment (if slashes then cs.tail else cs)
    (.comment (String.ofList text) slashes, rest)
  else
    match punctuation? first with
    | some kind => (kind, cs)
    | none =>
      if first = '"' then toKind (scanString cs)
      else if first = '+' then toKind (scanPlus cs)
      else if startsNumber first then toKind (scanNumber first cs)
      else if first = '$' then (.problem (.dollarWithoutBrace cs.head?), cs)
      else if isReserved first then (.problem (.reserved first), cs)
      else scanBare comments [first] cs

theorem toKind_rest (o : Outcome TokenKind) : (toKind o).2 = o.2 := by
  unfold toKind
  split <;> rfl

theorem scanFlat_length_le (comments : Bool) (first : Char) (cs : List Char) :
    (scanFlat comments first cs).2.length ≤ cs.length := by
  unfold scanFlat
  split
  · simp only [scanComment]
    refine Nat.le_trans (dropWhile_length_le _ _) ?_
    split <;> simp
  · split
    · exact Nat.le_refl _
    · split
      · rw [toKind_rest]; exact scanString_length_le cs
      · split
        · rw [toKind_rest]; exact scanPlus_length_le cs
        · split
          · rw [toKind_rest]; exact scanNumber_length_le first cs
          · split
            · exact Nat.le_refl _
            · split
              · exact Nat.le_refl _
              · exact scanBare_length_le comments [first] cs

/-- Whether a substitution opens here, whether it is an optional one, and what follows. -/
def openSubstitution? : List Char → Option (Bool × List Char)
  | '$' :: '\x7b' :: '?' :: rest => some (true, rest)
  | '$' :: '\x7b' :: rest => some (false, rest)
  | _ => none

theorem openSubstitution?_length_lt {cs rest : List Char} {optional : Bool}
    (h : openSubstitution? cs = some (optional, rest)) : rest.length < cs.length := by
  unfold openSubstitution? at h
  split at h <;> simp at h <;> obtain ⟨-, rfl⟩ := h <;> simp only [List.length_cons] <;> omega

end Scan

mutual

/-- The token that starts at a cursor which stands on a character. -/
def pullToken (comments : Bool) (c : Cursor) (h : c.rest ≠ []) :
    { r : Token × Cursor // r.2.rest.length < c.rest.length } :=
  match hs : Scan.openSubstitution? c.rest with
  | some (optional, inner) =>
    have shorter : inner.length < c.rest.length := Scan.openSubstitution?_length_lt hs
    match pullExpression comments (c.moveTo inner) false with
    | ⟨(.ok expression, next), le⟩ =>
      ⟨c.token (.substitution optional expression) next.rest, Nat.lt_of_le_of_lt le shorter⟩
    | ⟨(.error p, next), le⟩ =>
      ⟨c.token (.problem p) next.rest, Nat.lt_of_le_of_lt le shorter⟩
  | none =>
    match hc : c.rest with
    | [] => absurd hc h
    | first :: cs =>
      ⟨c.token (Scan.scanFlat comments first cs).1 (Scan.scanFlat comments first cs).2,
        Nat.lt_succ_of_le (Scan.scanFlat_length_le comments first cs)⟩
termination_by 2 * c.rest.length
decreasing_by
  rw [Cursor.rest_moveTo]
  omega

/-- The tokens of a path up to the brace that closes it; `afterValue` tells whether the
token before was a value. -/
def pullExpression (comments : Bool) (c : Cursor) (afterValue : Bool) :
    { r : Except LexicalProblem (List Token) × Cursor // r.2.rest.length ≤ c.rest.length } :=
  let b := c.skipGap
  have le : b.rest.length ≤ c.rest.length := c.skipGap_length_le
  if h : b.rest = [] then ⟨(.error .openSubstitution, b), le⟩
  else
    let ⟨(t, next), lt⟩ := pullToken comments b h
    have shorter : next.rest.length < c.rest.length := Nat.lt_of_lt_of_le lt le
    match t.kind with
    | .closeBrace => ⟨(.ok [], next), Nat.le_of_lt shorter⟩
    | .problem p => ⟨(.error p, next), Nat.le_of_lt shorter⟩
    | kind =>
      match pullExpression comments next kind.isSimpleValue with
      | ⟨(.ok ts, last), le'⟩ =>
        ⟨(.ok (c.gapToken b afterValue kind.isSimpleValue ++ t :: ts), last),
          Nat.le_trans le' (Nat.le_of_lt shorter)⟩
      | ⟨(.error p, last), le'⟩ =>
        ⟨(.error p, last), Nat.le_trans le' (Nat.le_of_lt shorter)⟩
termination_by 2 * c.rest.length + 1
decreasing_by
  · have := c.skipGap_length_le
    omega
  · omega

end

/-! ### Whole texts -/

/-- The tokens from a cursor to the end of its text; `afterValue` tells whether the token
before was a value. -/
def tokensFrom (comments : Bool) (c : Cursor) (afterValue : Bool) : List Token :=
  let b := c.skipGap
  have le : b.rest.length ≤ c.rest.length := c.skipGap_length_le
  if h : b.rest = [] then [b.stopToken]
  else
    let ⟨(t, next), lt⟩ := pullToken comments b h
    have : next.rest.length < c.rest.length := Nat.lt_of_lt_of_le lt le
    c.gapToken b afterValue t.kind.isSimpleValue
      ++ t :: tokensFrom comments next t.kind.isSimpleValue
termination_by c.rest.length

/-- The tokens of a document, from `start` to `stop`.  Only JSON has no comments. -/
def Token.ofText (syn : DocumentSyntax) (text : List Char) : List Token :=
  ⟨.start, .empty 0, 1⟩ :: tokensFrom (syn != .json) (.ofText text) false

end Hocon
