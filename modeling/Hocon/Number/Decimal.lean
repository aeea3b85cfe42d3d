import Hocon.Number.Double

/-!
# Numbers as decimal text

Reading: `readWhole?` takes an optional sign and digits; `Double.ofText?` takes the usual
decimal notation with an optional point and exponent, and the names of infinity and
not-a-number.

Writing: `Double.toText` writes the fewest digits that read back as the same double, in
positional notation, whatever the size of the number.
-/

namespace Hocon

/-! ### Digits -/

/-- The number written by ASCII digits. -/
def ofDigits (digits : List Char) : Nat :=
  digits.foldl (fun n c => 10 * n + (c.toNat - '0'.toNat)) 0

/-- Splits an optional sign from the front; `true` is minus. -/
def splitSign : List Char → Bool × List Char
  | '-' :: rest => (true, rest)
  | '+' :: rest => (false, rest)
  | rest => (false, rest)

/-- A whole number between `lo` and `hi`: an optional sign and at least one digit. -/
def readWhole? (lo hi : Int) (text : List Char) : Option Int :=
  let (negative, digits) := splitSign text
  if digits.isEmpty || !digits.all Char.isDigit then none
  else
    let magnitude : Int := ofDigits digits
    let n := if negative then -magnitude else magnitude
    if lo ≤ n && n ≤ hi then some n else none

/-- A whole number of 64 bits. -/
def readInt64? (text : List Char) : Option Int64 :=
  (readWhole? Int64.minValue.toInt Int64.maxValue.toInt text).map Int64.ofInt

namespace Double

/-! ### Reading -/

/-- The exponent part of a decimal: nothing, or a letter `e` and a whole number. -/
def readExponent? : List Char → Option Int
  | [] => some 0
  | e :: rest =>
    if e == 'e' || e == 'E' then
      let (negative, digits) := splitSign rest
      if digits.isEmpty || !digits.all Char.isDigit then none
      else some (if negative then -(ofDigits digits : Int) else ofDigits digits)
    else none

/-- Digits before the point, optionally a point and digits after it, at least one digit in
all, and an optional exponent. -/
def readDecimal? (negative : Bool) (text : List Char) : Option Double :=
  let whole := text.takeWhile Char.isDigit
  let afterWhole := text.dropWhile Char.isDigit
  let (places, rest) :=
    match afterWhole with
    | '.' :: tail => (tail.takeWhile Char.isDigit, tail.dropWhile Char.isDigit)
    | tail => ([], tail)
  if whole.isEmpty && places.isEmpty then none
  else
    (readExponent? rest).map fun exponent =>
      ofDecimal negative (ofDigits (whole ++ places)) (exponent - places.length)

/-- A double in decimal notation, or one of the names `inf`, `infinity` and `nan` in
letters of any case, each with an optional sign. -/
def ofText? (text : List Char) : Option Double :=
  let (negative, body) := splitSign text
  match readDecimal? negative body with
  | some d => some d
  | none =>
    let name := body.map Char.toLower
    if name == "inf".toList || name == "infinity".toList then some (infinity negative)
    else if name == "nan".toList then some nan
    else none

/-! ### The fewest digits -/

/-- The reals that round to a positive finite double, with the double itself, all in
quarters of a unit.  The ends belong to the interval if the significand is even. -/
structure Neighbourhood where
  low : Nat
  centre : Nat
  high : Nat
  closed : Bool

/-- Halfway to either neighbour; below a power of two the neighbour is half as far. -/
def neighbourhood (d : Double) : Neighbourhood :=
  let scale := Nat.pow 2 d.doublings
  let below := if d.significand = Nat.pow 2 52 then 1 else 2
  { low := (4 * d.significand - below) * scale
    centre := 4 * d.significand * scale
    high := (4 * d.significand + 2) * scale
    closed := d.significand % 2 = 0 }

/-- The multiple of `10 ^ place` in the interval that is nearest to its centre, divided by
`10 ^ place`; of two equally near ones the greater. -/
def Neighbourhood.nearest? (n : Neighbourhood) (place : Int) : Option Nat :=
  let grow := Nat.pow 10 (-place).toNat
  let step := 4 * unitsPerOne * Nat.pow 10 place.toNat
  let low := n.low * grow
  let centre := n.centre * grow
  let high := n.high * grow
  let q := centre / step
  let lowerFits := if n.closed then low ≤ q * step else low < q * step
  let upperFits := if n.closed then (q + 1) * step ≤ high else (q + 1) * step < high
  if upperFits && (!lowerFits || 2 * (centre % step) ≥ step) then some (q + 1)
  else if lowerFits then some q
  else none

/-- The first place from `place` downward that has a multiple in the interval. -/
def Neighbourhood.shortest (n : Neighbourhood) : Nat → Int → Nat × Int
  | 0, place => (0, place)
  | tries + 1, place =>
    match n.nearest? place with
    | some digits => (digits, place)
    | none => n.shortest tries (place - 1)

/-- The fewest digits that read back as the positive finite double `d`, and the place of
the last of them. -/
def shortestDigits (d : Double) : Nat × Int :=
  let n := d.neighbourhood
  let exponent : Int := (n.centre.log2 : Int) - 1076
  n.shortest 24 (exponent * 30103 / 100000 + 2)

/-! ### Writing -/

/-- `digits * 10 ^ place` with a point where it is needed and no exponent. -/
def positional (digits : Nat) (place : Int) : String :=
  let text := toString digits
  match place with
  | .ofNat zeros => text ++ "".pushn '0' zeros
  | .negSucc p =>
    let places := p + 1
    let padded := ("".pushn '0' (places + 1 - text.length) ++ text).toList
    let whole := padded.length - places
    String.ofList (padded.take whole) ++ "." ++ String.ofList (padded.drop whole)

/-- The decimal text of a double. -/
def toText (d : Double) : String :=
  if d.isNaN then "NaN"
  else
    let sign := if d.negative then "-" else ""
    if d.isInfinite then sign ++ "inf"
    else if d.magnitude = 0 then sign ++ "0"
    else
      let (digits, place) := d.shortestDigits
      sign ++ positional digits place

end Double

end Hocon
