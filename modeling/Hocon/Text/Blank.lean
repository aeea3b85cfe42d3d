import Hocon.Text.CodeRange

/-!
# White space

Two classes: the Unicode property `White_Space`, which trimming uses, and the wider class
of blanks that separate tokens, which adds the byte order mark.
-/

namespace Hocon.Text

/-- The code points with the property `White_Space`. -/
def whiteSpaceRanges : List CodeRange := [
  ⟨0x9, 0xD⟩, ⟨0x20, 0x20⟩, ⟨0x85, 0x85⟩, ⟨0xA0, 0xA0⟩, ⟨0x1680, 0x1680⟩, ⟨0x2000, 0x200A⟩,
  ⟨0x2028, 0x2029⟩, ⟨0x202F, 0x202F⟩, ⟨0x205F, 0x205F⟩, ⟨0x3000, 0x3000⟩]

/-- Whether `c` has the property `White_Space`. -/
def isWhiteSpace (c : Char) : Bool :=
  CodeRange.holds whiteSpaceRanges c

/-- Whether `c` separates tokens: white space or the byte order mark. -/
def isBlank (c : Char) : Bool :=
  isWhiteSpace c || c == '\uFEFF'

/-- Every character that core calls white space is white space here. -/
theorem isWhiteSpace_of_isWhitespace {c : Char} (h : c.isWhitespace = true) :
    isWhiteSpace c = true := by
  simp only [Char.isWhitespace, Bool.or_eq_true, decide_eq_true_eq] at h
  rcases h with ((h | h) | h) | h <;> subst h <;> decide

/-- The text without white space at its front. -/
def trimStart (cs : List Char) : List Char :=
  cs.dropWhile isWhiteSpace

/-- The text without white space at its end. -/
def trimEnd (cs : List Char) : List Char :=
  (cs.reverse.dropWhile isWhiteSpace).reverse

/-- The text without white space at either end. -/
def trim (cs : List Char) : List Char :=
  trimEnd (trimStart cs)

end Hocon.Text
