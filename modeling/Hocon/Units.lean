import Hocon.Number.Decimal
import Hocon.Span
import Hocon.Text.Blank
import Hocon.Text.Letter

/-!
# Sizes and durations with units

A quantity is a number and the run of letters behind it, such as `10s` or `512 MiB`.  It is
read as a whole number of bytes or of nanoseconds.  A number of digits only is exact
whatever its length; any other goes through a double and loses its places after the point.
-/

namespace Hocon

/-- What is measured. -/
inductive Quantity where
  /-- A length of time; the result counts nanoseconds. -/
  | duration
  /-- An amount of memory; the result counts bytes. -/
  | size
  deriving DecidableEq, Repr

/-- Why a text is no quantity. -/
inductive UnitFault where
  | noNumber (quantity : Quantity) (input : String)
  | unknownUnit (quantity : Quantity) (name : String)
  | badNumber (quantity : Quantity) (number : String)
  /-- Negative, or more than 64 bits hold. -/
  | outOfRange (quantity : Quantity) (input : String)
  deriving DecidableEq, Repr

namespace Quantity

/-- The name of the quantity in messages. -/
def name : Quantity → String
  | duration => "duration"
  | size => "size-in-bytes"

/-- The units that a message proposes. -/
def hint : Quantity → String
  | duration => "ns, us, ms, s, m, h, d"
  | size => "k, K, kB, KiB, kilobytes, kibibytes"

/-! ### Units of time -/

/-- A long name of a unit in the plural: an `s` is added to three letters or more. -/
def plural (unit : List Char) : List Char :=
  if Text.byteLength unit > 2 && unit.getLast? != some 's' then unit ++ ['s'] else unit

/-- The units of time, by their names in the plural, with their nanoseconds. -/
def timeUnits : List (List String × Nat) := [
  (["", "ms", "millis", "milliseconds"], 1000000),
  (["us", "micros", "microseconds"], 1000),
  (["ns", "nanos", "nanoseconds"], 1),
  (["s", "seconds"], 1000000000),
  (["m", "minutes"], 60 * 1000000000),
  (["h", "hours"], 60 * 60 * 1000000000),
  (["d", "days"], 24 * 60 * 60 * 1000000000)]

/-- The nanoseconds of a unit of time. -/
def nanosPer? (unit : List Char) : Option Nat :=
  (timeUnits.find? fun u => u.1.contains (String.ofList (plural unit))).map (·.2)

/-! ### Units of memory -/

/-- The names of the powers of 1000. -/
def decimalNames : List String :=
  ["kilo", "mega", "giga", "tera", "peta", "exa", "zetta", "yotta"]

/-- The names of the powers of 1024. -/
def binaryNames : List String :=
  ["kibi", "mebi", "gibi", "tebi", "pebi", "exbi", "zebi", "yobi"]

/-- Whether a unit is the name of a power followed by `byte` or `bytes`. -/
def isLongForm (power unit : String) : Bool :=
  unit == power ++ "byte" || unit == power ++ "bytes"

/-- The first letter of the name of a power. -/
def initial (power : String) : Char := power.toList.headD ' '

/-- Whether a unit stands for the power of 1000 of the given name: `kB` and its like in
capitals, or the long form. -/
def isDecimalUnit (power unit : String) : Bool :=
  let letter := if power == "kilo" then 'k' else (initial power).toUpper
  unit.toList == [letter, 'B'] || isLongForm power unit

/-- Whether a unit stands for the power of 1024 of the given name: one letter, `Ki` and its
like, `KiB` and its like, or the long form. -/
def isBinaryUnit (power unit : String) : Bool :=
  let small := initial power
  let capital := small.toUpper
  [[small], [capital], [capital, 'i'], [capital, 'i', 'B']].contains unit.toList
    || isLongForm power unit

/-- The first power whose name fits, as a power of `base`. -/
def powerOf? (base : Nat) (fits : String → Bool) : Nat → List String → Option Nat
  | _, [] => none
  | k, name :: names =>
    if fits name then some (Nat.pow base k) else powerOf? base fits (k + 1) names

/-- The bytes of a unit of memory. -/
def bytesPer? (unit : List Char) : Option Nat :=
  let unit := String.ofList unit
  if ["", "b", "B", "byte", "bytes"].contains unit then some 1
  else
    (powerOf? 1000 (isDecimalUnit · unit) 1 decimalNames).or
      (powerOf? 1024 (isBinaryUnit · unit) 1 binaryNames)

/-! ### Reading -/

/-- How much of the base unit one of the given units is. -/
def perUnit? : Quantity → List Char → Option Nat
  | duration, unit => nanosPer? unit
  | size, unit => bytesPer? unit

/-- A trimmed text as a number and the run of letters at its end. -/
def splitUnit (input : List Char) : List Char × List Char :=
  let s := (Text.trim input).reverse
  (Text.trim (s.dropWhile Text.isLetter).reverse, (s.takeWhile Text.isLetter).reverse)

/-- What does not fit in 64 bits is out of range. -/
def limit : Nat := Nat.pow 2 64

/-- `number * per`, exact for plain digits and rounded toward zero otherwise. -/
def amount? (q : Quantity) (input : String) (number : List Char) (per : Nat) :
    Except UnitFault Nat :=
  -- plain digits are exact, whatever their number
  if number.all Char.isDigit then
    let total := ofDigits number * per
    if total < limit then .ok total else .error (.outOfRange q input)
  else
    match Double.ofText? number with
    | none => .error (.badNumber q (String.ofList number))
    | some value =>
      let total := value.mul (.ofInt per)
      if !total.isFinite || total.below (.zero false) || !total.below (.ofInt limit) then
        .error (.outOfRange q input)
      else .ok total.truncate.toNat

/-- The quantity that a text stands for, in bytes or nanoseconds. -/
def ofText? (q : Quantity) (input : String) : Except UnitFault Nat :=
  let (number, unit) := splitUnit input.toList
  if number.isEmpty then .error (.noNumber q input)
  else
    match q.perUnit? unit with
    | none => .error (.unknownUnit q (String.ofList unit))
    | some per => q.amount? input number per

end Quantity

/-- The wording of a fault. -/
def UnitFault.message : UnitFault → String
  | noNumber q input => "No number in " ++ q.name ++ " value '" ++ input ++ "'"
  | unknownUnit q name =>
    "Could not parse " ++ q.name ++ " unit '" ++ name ++ "' (try " ++ q.hint ++ ")"
  | badNumber q number => "Could not parse " ++ q.name ++ " number '" ++ number ++ "'"
  | outOfRange q input => q.name ++ " value '" ++ input ++ "' is negative or too large"

end Hocon
