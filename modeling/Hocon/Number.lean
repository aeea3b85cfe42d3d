import Hocon.Number.Decimal

/-!
# Numbers of a configuration

A number is a whole number of 64 bits or a double.  The two kinds meet in comparison: a
double without places after the point is compared as the whole number it is.
-/

namespace Hocon

/-- A number as a configuration holds it. -/
inductive Number where
  | whole (n : Int64)
  | double (d : Double)
  deriving DecidableEq, Repr, Inhabited

/-- The narrowest of the three widths that a number needs. -/
inductive NumberWidth where
  | int
  | long
  | double
  deriving DecidableEq, Repr

namespace Number

/-- Whether a whole number fits in 32 bits. -/
def fitsInt32 (n : Int) : Bool :=
  -2147483648 ≤ n && n < 2147483648

def width : Number → NumberWidth
  | whole n => if fitsInt32 n.toInt then .int else .long
  | double _ => .double

/-- The whole number of 64 bits that this number is, if it is one. -/
def toWhole? : Number → Option Int64
  | whole n => some n
  | double d =>
    let n := d.truncate
    if d.isWhole && Int64.minValue.toInt ≤ n && n ≤ Int64.maxValue.toInt then
      some (Int64.ofInt n)
    else none

/-- The nearest double. -/
def toDouble : Number → Double
  | whole n => Double.ofInt n.toInt
  | double d => d

/-- The number without its places after the point, kept within 64 bits. -/
def truncate : Number → Int64
  | whole n => n
  | double d => Int64.ofInt (d.toIntClamped Int64.minValue.toInt Int64.maxValue.toInt)

/-- Equality of numbers: as whole numbers where both are whole, else as doubles. -/
def equals (a b : Number) : Bool :=
  match a.toWhole?, b.toWhole? with
  | some m, some n => m == n
  | _, _ => a.toDouble.equals b.toDouble

def isNaN : Number → Bool
  | whole _ => false
  | double d => d.isNaN

/-- The decimal text of a number that was not read from text. -/
def toText : Number → String
  | whole n => toString n.toInt
  | double d => d.toText

end Number

end Hocon
