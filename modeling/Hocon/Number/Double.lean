/-!
# Double precision numbers

A double is kept by its three fields, so every one of them has exactly one form and all
arithmetic below is exact arithmetic on integers, rounded once.  The *code* of a magnitude
is its exponent field followed by its fraction field, read as one number: codes ascend with
the magnitudes, and rounding a magnitude is choosing a code.

A finite double is a whole number of *units*, a unit being the least positive double
`2 ^ -1074`.  Comparison is comparison of units.
-/

namespace Hocon

/-- A number of the binary64 format, by its three fields. -/
structure Double where
  negative : Bool
  exponent : Fin 2048
  fraction : Fin (Nat.pow 2 52)
  deriving DecidableEq, Repr

instance : Inhabited Double := ⟨⟨false, ⟨0, by decide⟩, ⟨0, by decide⟩⟩⟩

namespace Double

/-! ### Codes -/

/-- The code of the infinite magnitude: the exponent field is full, the fraction empty. -/
def infiniteCode : Nat := 2047 * Nat.pow 2 52

/-- The double with the given sign and magnitude code; codes above the infinite one stand
for infinity too. -/
def ofCode (negative : Bool) (code : Nat) : Double :=
  let code := min code infiniteCode
  { negative
    exponent := ⟨code / Nat.pow 2 52 % 2048, Nat.mod_lt _ (by decide)⟩
    fraction := ⟨code % Nat.pow 2 52, Nat.mod_lt _ (by decide)⟩ }

/-- The code of the magnitude. -/
def code (d : Double) : Nat :=
  d.exponent.val * Nat.pow 2 52 + d.fraction.val

/-- The 64 bits of the format, as a number. -/
def bits (d : Double) : Nat :=
  (if d.negative then Nat.pow 2 63 else 0) + d.code

/-- The quiet not-a-number. -/
def nan : Double :=
  { negative := false, exponent := ⟨2047, by decide⟩, fraction := ⟨Nat.pow 2 51, by decide⟩ }

/-- The infinity of the given sign. -/
def infinity (negative : Bool) : Double :=
  ofCode negative infiniteCode

/-- The zero of the given sign. -/
def zero (negative : Bool) : Double :=
  ofCode negative 0

/-! ### Kinds of doubles -/

def isNaN (d : Double) : Bool :=
  d.exponent.val == 2047 && d.fraction.val != 0

def isInfinite (d : Double) : Bool :=
  d.exponent.val == 2047 && d.fraction.val == 0

def isFinite (d : Double) : Bool :=
  d.exponent.val != 2047

/-! ### Magnitudes -/

/-- The digits of the magnitude in base two, as a number: the fraction with its leading
one, which the least exponent lacks. -/
def significand (d : Double) : Nat :=
  if d.exponent.val = 0 then d.fraction.val else Nat.pow 2 52 + d.fraction.val

/-- How many times the significand is doubled to give the magnitude in units. -/
def doublings (d : Double) : Nat :=
  d.exponent.val - 1

/-- The magnitude of a finite double in units of `2 ^ -1074`. -/
def magnitude (d : Double) : Nat :=
  d.significand * Nat.pow 2 d.doublings

/-- The value of a finite double in units of `2 ^ -1074`. -/
def units (d : Double) : Int :=
  if d.negative then -(d.magnitude : Int) else d.magnitude

/-- How many units make one. -/
def unitsPerOne : Nat := Nat.pow 2 1074

/-! ### Rounding -/

/-- The quotient rounded to the nearest whole number; a half goes to the even neighbour. -/
def roundDiv (num den : Nat) : Nat :=
  let q := num / den
  let twice := 2 * (num % den)
  if twice < den then q
  else if twice > den then q + 1
  else if q % 2 = 0 then q else q + 1

/-- The code of the magnitude nearest to `num / den` units.  With `s` doublings the
significand has at most 53 digits; one that rounds up to 54 digits carries into the
exponent by itself. -/
def roundCode (num den : Nat) : Nat :=
  let s := (num / den).log2 - 52
  s * Nat.pow 2 52 + roundDiv num (den * Nat.pow 2 s)

/-- The double nearest to `num / den`, ties to the even significand. -/
def ofRatio (negative : Bool) (num den : Nat) : Double :=
  ofCode negative (roundCode (num * unitsPerOne) den)

/-- The double nearest to a whole number. -/
def ofInt (n : Int) : Double :=
  ofRatio (n < 0) n.natAbs 1

/-- Digits further than this from the point decide nothing: every such number is beyond
the greatest double or below half a unit. -/
def farDigits : Nat := 400

/-- The double nearest to `digits * 10 ^ exponent`. -/
def ofDecimal (negative : Bool) (digits : Nat) (exponent : Int) : Double :=
  let length : Int := digits.log2 / 3 + 1
  if digits = 0 then zero negative
  else if exponent > farDigits then infinity negative
  else if exponent + length < -farDigits then zero negative
  else
    match exponent with
    | .ofNat e => ofRatio negative (digits * Nat.pow 10 e) 1
    | .negSucc e => ofRatio negative digits (Nat.pow 10 (e + 1))

/-! ### Comparison -/

/-- Equality of numbers: the two zeros are equal and not-a-number equals nothing. -/
def equals (a b : Double) : Bool :=
  if a.isFinite && b.isFinite then a.units == b.units
  else a.isInfinite && b.isInfinite && a.negative == b.negative

/-- Order of numbers; not-a-number is below and above nothing. -/
def below (a b : Double) : Bool :=
  if a.isNaN || b.isNaN then false
  else if a.isFinite && b.isFinite then a.units < b.units
  else if a.isInfinite then a.negative && !(b.isInfinite && b.negative)
  else !b.negative

/-! ### Arithmetic and whole numbers -/

/-- The product, rounded once. -/
def mul (a b : Double) : Double :=
  let negative := a.negative != b.negative
  if a.isNaN || b.isNaN then nan
  else if a.isFinite && b.isFinite then
    ofRatio negative (a.magnitude * b.magnitude) (unitsPerOne * unitsPerOne)
  else if a.isFinite && a.magnitude == 0 || b.isFinite && b.magnitude == 0 then nan
  else infinity negative

/-- The value of a finite double without its places after the point. -/
def truncate (d : Double) : Int :=
  if d.negative then -((d.magnitude / unitsPerOne : Nat) : Int)
  else (d.magnitude / unitsPerOne : Nat)

/-- Whether a finite double has no places after the point. -/
def isWhole (d : Double) : Bool :=
  d.isFinite && d.magnitude % unitsPerOne == 0

/-- The whole number nearest to zero's side, kept within `lo` and `hi`; zero for
not-a-number. -/
def toIntClamped (d : Double) (lo hi : Int) : Int :=
  if d.isNaN then 0
  else if d.isInfinite then (if d.negative then lo else hi)
  else max lo (min hi d.truncate)

end Double

end Hocon
