/-!
# Sets of characters given by ranges of code points

A character class of the Unicode standard is written as an ascending list of inclusive
ranges.  `CodeRange.holds` is membership, and `CodeRange.holds_iff` says what it means.
-/

namespace Hocon.Text

/-- An inclusive range of code points. -/
structure CodeRange where
  first : Nat
  last : Nat
  deriving DecidableEq, Repr

namespace CodeRange

/-- Whether the code point of `c` lies in one of the ranges. -/
def holds (ranges : List CodeRange) (c : Char) : Bool :=
  ranges.any fun r => r.first ≤ c.toNat && c.toNat ≤ r.last

theorem holds_iff {ranges : List CodeRange} {c : Char} :
    holds ranges c = true ↔ ∃ r ∈ ranges, r.first ≤ c.toNat ∧ c.toNat ≤ r.last := by
  simp [holds]

end CodeRange

end Hocon.Text
