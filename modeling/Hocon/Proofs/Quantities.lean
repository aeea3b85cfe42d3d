import Mathlib.Data.List.Basic
import Mathlib.Data.Nat.Digits.Defs
import Hocon.Units
import Hocon.Proofs.Scanning

/-!
# Whole quantities are exact

Which units there are is a table of spellings with what one unit is worth (`Quantity.spellings`),
made from a few names: short and long ones for times, and for sizes the powers of 1000 and of 1024.
The units that are understood are those of the table, and each is worth what the table says
(`Quantity.perUnit?_eq_some_iff`), although spellings of different units differ in one letter.

Digits with white space around them and a unit behind them are therefore read as the product of the
two, or as out of range, whatever their number (`Quantity.ofText?_whole`).
-/

namespace Hocon

open Text

namespace Quantity

variable {before digits between unit after cs : List Char} {per base n : Nat}

/-! ### Names of units -/

/-- The short names of units of time, with their nanoseconds. -/
def shortTimes : List (String × Nat) := [
  ("ns", 1), ("us", 10 ^ 3), ("ms", 10 ^ 6), ("s", 10 ^ 9), ("m", 60 * 10 ^ 9),
  ("h", 60 * 60 * 10 ^ 9), ("d", 24 * 60 * 60 * 10 ^ 9)]

/-- The long names of units of time in the singular, with their nanoseconds. -/
def longTimes : List (String × Nat) := [
  ("nano", 1), ("nanosecond", 1), ("micro", 10 ^ 3), ("microsecond", 10 ^ 3), ("milli", 10 ^ 6),
  ("millisecond", 10 ^ 6), ("second", 10 ^ 9), ("minute", 60 * 10 ^ 9), ("hour", 60 * 60 * 10 ^ 9),
  ("day", 24 * 60 * 60 * 10 ^ 9)]

/-- A power of 1000 and of 1024: what stands for it in front of `byte`, and its letters. -/
structure Magnitude where
  power : Nat
  decimal : String
  binary : String
  small : String
  capital : String
  deriving DecidableEq

def magnitudes : List Magnitude := [
  ⟨1, "kilo", "kibi", "k", "K"⟩, ⟨2, "mega", "mebi", "m", "M"⟩, ⟨3, "giga", "gibi", "g", "G"⟩,
  ⟨4, "tera", "tebi", "t", "T"⟩, ⟨5, "peta", "pebi", "p", "P"⟩, ⟨6, "exa", "exbi", "e", "E"⟩,
  ⟨7, "zetta", "zebi", "z", "Z"⟩, ⟨8, "yotta", "yobi", "y", "Y"⟩]

/-- The spellings of a power of 1000; of the letters only the first is a small one. -/
def Magnitude.decimals (m : Magnitude) : List String :=
  [(if m.power = 1 then m.small else m.capital) ++ "B", m.decimal ++ "byte", m.decimal ++ "bytes"]

/-- The spellings of a power of 1024. -/
def Magnitude.binaries (m : Magnitude) : List String :=
  [m.small, m.capital, m.capital ++ "i", m.capital ++ "iB", m.binary ++ "byte", m.binary ++ "bytes"]

/-- The spellings of units, with what one unit is worth in nanoseconds or in bytes. -/
def spellings : Quantity → List (String × Nat)
  | duration => ("", 10 ^ 6) :: shortTimes ++ longTimes.flatMap fun t => [t, (t.1 ++ "s", t.2)]
  | size => ["", "b", "B", "byte", "bytes"].map (·, 1) ++ magnitudes.flatMap fun m =>
      m.decimals.map (·, 1000 ^ m.power) ++ m.binaries.map (·, 1024 ^ m.power)

theorem perUnit?_of_mem_spellings {q : Quantity} {e : String × Nat} (he : e ∈ q.spellings) :
    q.perUnit? e.1.toList = some e.2 := by
  revert e
  cases q <;> decide +kernel

theorem all_isLetter_of_mem_spellings {q : Quantity} {e : String × Nat} (he : e ∈ q.spellings) :
    e.1.toList.all isLetter = true := by
  revert e
  cases q <;> decide +kernel

/-! ### Units of time -/

theorem plural_eq (unit : List Char) :
    plural unit = unit ∨ plural unit = unit ++ ['s'] ∧ 2 < byteLength unit := by
  rw [plural]
  split
  · next h =>
    rw [Bool.and_eq_true, decide_eq_true_eq] at h
    exact .inr ⟨rfl, h.1⟩
  · exact .inl rfl

/-- The names of times are in the table, and so are the long ones without their last letter. -/
theorem mem_spellings_of_nanosPer? (h : nanosPer? unit = some per) :
    (String.ofList unit, per) ∈ spellings duration := by
  have known : ∀ u ∈ timeUnits, ∀ name ∈ u.1, (name, u.2) ∈ spellings duration
      ∧ (2 < byteLength name.toList.dropLast →
        (String.ofList name.toList.dropLast, u.2) ∈ spellings duration) := by decide +kernel
  obtain ⟨u, found, rfl⟩ := Option.map_eq_some_iff.1 h
  have names := List.find?_some found
  rw [List.contains_iff_mem] at names
  obtain ⟨name, stem⟩ := known u (List.mem_of_find?_eq_some found) _ names
  rcases plural_eq unit with same | ⟨more, long⟩
  · rwa [same] at name
  · rw [more, String.toList_ofList, List.dropLast_concat] at stem
    exact stem long

/-! ### Units of memory -/

/-- A power that is found has a name that fits. -/
theorem exists_of_powerOf? {fits : String → Bool} {k : Nat} (name : Magnitude → String)
    (ms : List Magnitude) (powers : ms.map Magnitude.power = List.range' k ms.length)
    (h : powerOf? base fits k (ms.map name) = some n) :
    ∃ m ∈ ms, fits (name m) = true ∧ n = base ^ m.power := by
  induction ms generalizing k with
  | nil => cases h
  | cons m ms ih =>
    rw [List.map_cons, List.length_cons, List.range'_succ] at powers
    obtain ⟨here, rest⟩ := List.cons.inj powers
    rw [List.map_cons, powerOf?] at h
    split at h
    · next fit => exact ⟨m, List.mem_cons_self, fit, by cases h; rw [here]; rfl⟩
    · obtain ⟨m', hm', found⟩ := ih rest h
      exact ⟨m', List.mem_cons_of_mem _ hm', found⟩

theorem isDecimalUnit_iff {m : Magnitude} (hm : m ∈ magnitudes) {unit : String} :
    isDecimalUnit m.decimal unit = true ↔ unit ∈ m.decimals := by
  have letter : ∀ m ∈ magnitudes, String.ofList [if m.decimal == "kilo" then 'k'
      else (initial m.decimal).toUpper, 'B']
        = (if m.power = 1 then m.small else m.capital) ++ "B" := by decide +kernel
  rw [isDecimalUnit, isLongForm, Magnitude.decimals, ← letter m hm]
  simp [String.ext_iff]

theorem isBinaryUnit_iff {m : Magnitude} (hm : m ∈ magnitudes) {unit : String} :
    isBinaryUnit m.binary unit = true ↔ unit ∈ m.binaries := by
  have letters : ∀ m ∈ magnitudes, m.small = String.ofList [initial m.binary]
      ∧ m.capital = String.ofList [(initial m.binary).toUpper] := by decide +kernel
  rw [isBinaryUnit, isLongForm, Magnitude.binaries, (letters m hm).1, (letters m hm).2]
  simp [String.ext_iff, or_assoc]

theorem mem_spellings_of_bytesPer? (h : bytesPer? unit = some per) :
    (String.ofList unit, per) ∈ spellings size := by
  have mem_decimals {m : Magnitude} (hm : m ∈ magnitudes) {name : String} (h : name ∈ m.decimals) :
      (name, 1000 ^ m.power) ∈ spellings size :=
    List.mem_append_right _ (List.mem_flatMap.2
      ⟨m, hm, List.mem_append_left _ (List.mem_map_of_mem (f := (·, 1000 ^ m.power)) h)⟩)
  have mem_binaries {m : Magnitude} (hm : m ∈ magnitudes) {name : String} (h : name ∈ m.binaries) :
      (name, 1024 ^ m.power) ∈ spellings size :=
    List.mem_append_right _ (List.mem_flatMap.2
      ⟨m, hm, List.mem_append_right _ (List.mem_map_of_mem (f := (·, 1024 ^ m.power)) h)⟩)
  rw [bytesPer?] at h
  split at h
  · next single =>
    cases h
    exact List.mem_append_left _
      (List.mem_map_of_mem (f := (·, 1)) (List.contains_iff_mem.1 single))
  · rcases Option.or_eq_some_iff.1 h with found | ⟨-, found⟩
    · obtain ⟨m, hm, fit, rfl⟩ := exists_of_powerOf? Magnitude.decimal magnitudes rfl found
      exact mem_decimals hm ((isDecimalUnit_iff hm).1 fit)
    · obtain ⟨m, hm, fit, rfl⟩ := exists_of_powerOf? Magnitude.binary magnitudes rfl found
      exact mem_binaries hm ((isBinaryUnit_iff hm).1 fit)

/-- The units that are understood are those of the table. -/
theorem perUnit?_eq_some_iff (q : Quantity) (unit : List Char) (per : Nat) :
    q.perUnit? unit = some per ↔ (String.ofList unit, per) ∈ q.spellings := by
  constructor
  · cases q with
    | duration => exact mem_spellings_of_nanosPer?
    | size => exact mem_spellings_of_bytesPer?
  · intro spelled
    have := perUnit?_of_mem_spellings spelled
    rwa [String.toList_ofList] at this

/-! ### Splitting a text -/

theorem isLetter_of_isWhiteSpace {c : Char} (h : isWhiteSpace c = true) : isLetter c = false := by
  have := isWordChar_of_isBlank (c := c) (by rw [isBlank, h, Bool.true_or])
  rw [isWordChar, Bool.or_eq_false_iff] at this
  exact this.1

theorem not_isWhiteSpace_of_isDigit {c : Char} (h : c.isDigit = true) : isWhiteSpace c = false := by
  have := isBlank_of_startsNumber (c := c) (by rw [Scan.startsNumber, h, Bool.true_or])
  rw [isBlank, Bool.or_eq_false_iff] at this
  exact this.1

theorem not_isLetter_of_isDigit {c : Char} (h : c.isDigit = true) : isLetter c = false := by
  have apart : CodeRange.disjoint [⟨0x30, 0x39⟩] letterRanges = true := by decide +kernel
  refine CodeRange.not_holds_of_disjoint apart ?_
  simp only [Char.isDigit, Bool.and_eq_true, decide_eq_true_eq] at h
  exact CodeRange.holds_iff.2 ⟨_, List.mem_singleton_self _, h.1, h.2⟩

/-- White space is taken from both ends of a text that has none there itself. -/
theorem trim_append (before after : List Char) (hb : before.all isWhiteSpace = true)
    (ha : after.all isWhiteSpace = true)
    (nonempty : cs ≠ []) (head : ∀ c ∈ cs.head?, isWhiteSpace c = false)
    (last : ∀ c ∈ cs.getLast?, isWhiteSpace c = false) :
    trim (before ++ (cs ++ after)) = cs := by
  have front : trimStart (before ++ (cs ++ after)) = cs ++ after :=
    (Scan.takeWhile_append_of_all hb (by rwa [List.head?_append_of_ne_nil _ nonempty])).2
  have back : (after.reverse ++ cs.reverse).dropWhile isWhiteSpace = cs.reverse :=
    (Scan.takeWhile_append_of_all (by rwa [List.all_reverse]) (by rwa [List.head?_reverse])).2
  rw [trim, front, trimEnd, List.reverse_append, back, List.reverse_reverse]

/-- Digits and a unit behind them, with white space anywhere around them, are what a text is split
into. -/
theorem splitUnit_append (hbefore : before.all isWhiteSpace = true)
    (hbetween : between.all isWhiteSpace = true) (hafter : after.all isWhiteSpace = true)
    (nonempty : digits ≠ []) (hdigits : digits.all Char.isDigit = true)
    (hunit : unit.all isLetter = true) :
    splitUnit (before ++ (digits ++ (between ++ (unit ++ after)))) = (digits, unit) := by
  have digit (c) (hc : c ∈ digits) := List.all_eq_true.1 hdigits c hc
  have headDigit : ∀ c ∈ digits.head?, isWhiteSpace c = false := fun c hc =>
    not_isWhiteSpace_of_isDigit (digit c (List.mem_of_mem_head? hc))
  have lastDigit : ∀ c ∈ digits.getLast?, isWhiteSpace c = false := fun c hc =>
    not_isWhiteSpace_of_isDigit (digit c (List.mem_of_getLast? hc))
  -- without a unit the white space behind the digits is at the end of the text
  obtain ⟨gap, blank, trimmed⟩ : ∃ gap : List Char, gap.all isWhiteSpace = true
      ∧ trim (before ++ (digits ++ (between ++ (unit ++ after)))) = digits ++ (gap ++ unit) := by
    by_cases noUnit : unit = []
    · subst noUnit
      refine ⟨[], rfl, ?_⟩
      simp only [List.nil_append, List.append_nil]
      exact trim_append _ (between ++ after) hbefore
        (by rw [List.all_append, hbetween, hafter]; rfl) nonempty headDigit lastDigit
    · refine ⟨between, hbetween, ?_⟩
      rw [← List.append_assoc between, ← List.append_assoc digits]
      refine trim_append _ _ hbefore hafter (by simp [nonempty])
        (by rwa [List.head?_append_of_ne_nil _ nonempty]) fun c hc => ?_
      rw [← List.append_assoc, List.getLast?_append_of_ne_nil _ noUnit] at hc
      have letter := List.all_eq_true.1 hunit c (List.mem_of_getLast? hc)
      exact Bool.eq_false_iff.2 fun blank => by
        rw [isLetter_of_isWhiteSpace blank] at letter
        cases letter
  have stop : ∀ c ∈ (gap.reverse ++ digits.reverse).head?, isLetter c = false := by
    intro c hc
    rcases List.mem_append.1 (List.mem_of_mem_head? hc) with hc | hc
    · exact isLetter_of_isWhiteSpace (List.all_eq_true.1 blank c (List.mem_reverse.1 hc))
    · exact not_isLetter_of_isDigit (digit c (List.mem_reverse.1 hc))
  have all : unit.reverse.all isLetter = true := by rwa [List.all_reverse]
  obtain ⟨letters, rest⟩ := Scan.takeWhile_append_of_all all stop
  have number : trim (digits ++ gap) = digits :=
    trim_append [] _ rfl blank nonempty headDigit lastDigit
  rw [splitUnit, trimmed]
  simp only [List.reverse_append, List.append_assoc, letters, rest, List.reverse_reverse, number]

/-! ### Whole numbers -/

/-- The value of a digit. -/
def digitValue (c : Char) : Nat := c.toNat - '0'.toNat

/-- The digits are read in base ten, the last of them counting ones. -/
theorem ofDigits_eq (digits : List Char) :
    Hocon.ofDigits digits = Nat.ofDigits 10 (digits.map digitValue).reverse := by
  rw [Nat.ofDigits_eq_foldr, List.foldr_reverse, List.foldl_map, Hocon.ofDigits]
  congr 1
  funext n c
  rw [Nat.add_comm]
  rfl

/-- **Whole quantities are exact.**  The units that are understood are those of the table, with the
worth that it gives them; and digits with such a unit behind them, wherever white space is around
them, are their product if 64 bits hold it, and out of range if not. -/
theorem ofText?_whole (q : Quantity) :
    (∀ unit per, q.perUnit? unit = some per ↔ (String.ofList unit, per) ∈ q.spellings)
      ∧ ∀ (before digits between unit after : List Char) (per : Nat),
        before.all isWhiteSpace = true → between.all isWhiteSpace = true →
        after.all isWhiteSpace = true → digits ≠ [] → digits.all Char.isDigit = true →
        (String.ofList unit, per) ∈ q.spellings →
        let input := String.ofList (before ++ (digits ++ (between ++ (unit ++ after))))
        let total := Nat.ofDigits 10 (digits.map digitValue).reverse * per
        q.ofText? input = if total < 2 ^ 64 then .ok total else .error (.outOfRange q input) := by
  refine ⟨q.perUnit?_eq_some_iff, ?_⟩
  intro before digits between unit after per hbefore hbetween hafter nonempty hdigits spelled
    input total
  have letters : unit.all isLetter = true := by
    simpa using all_isLetter_of_mem_spellings spelled
  have worth := (q.perUnit?_eq_some_iff unit per).2 spelled
  have split : splitUnit input.toList = (digits, unit) := by
    rw [String.toList_ofList]
    exact splitUnit_append hbefore hbetween hafter nonempty hdigits letters
  rw [ofText?, split]
  simp only [List.isEmpty_eq_false_iff.2 nonempty, worth, amount?, hdigits, ofDigits_eq]
  rfl

/-- Sixteen exbibytes less one, written with zeros in front, and sixteen. -/
theorem ofText?_whole_example :
    let blank := "\t ".toList
    (blank.all isWhiteSpace = true ∧ "015".toList.all Char.isDigit = true
        ∧ ("EiB", 1024 ^ 6) ∈ size.spellings)
      ∧ size.ofText? "\t 015\t EiB\t " = .ok (15 * 1024 ^ 6)
      ∧ size.ofText? "\t 16\t EiB\t " = .error (.outOfRange size "\t 16\t EiB\t ") := by
  intro blank
  have white : blank.all isWhiteSpace = true := by decide
  have digits : "015".toList.all Char.isDigit = true := by decide
  have spelled : ("EiB", 1024 ^ 6) ∈ size.spellings := by decide +kernel
  refine ⟨⟨white, digits, spelled⟩, ?_, ?_⟩
  · exact ((ofText?_whole size).2 blank "015".toList blank "EiB".toList blank _ white white white
      (by decide) digits spelled).trans (by decide +kernel)
  · exact ((ofText?_whole size).2 blank "16".toList blank "EiB".toList blank _ white white white
      (by decide) (by decide) spelled).trans (by decide +kernel)

end Quantity

end Hocon
