import Hocon.Token.Lexer

/-!
# Scanning what was written

The scanners read back what the writers of numbers, strings and keys put down, whatever stands
behind it, as long as that cannot belong to the token.  Each lemma says what that is: behind a
number no character that continues one, behind a string no quote, behind a key something that
ends bare text.
-/

namespace Hocon

open Text

namespace Text

/-! ### Classes of characters -/

/-- Whether no code point is in a range of both. -/
def CodeRange.disjoint (rs ss : List CodeRange) : Bool :=
  rs.all fun r => ss.all fun s => r.last < s.first || s.last < r.first

theorem CodeRange.not_holds_of_disjoint {rs ss : List CodeRange} (h : disjoint rs ss = true)
    {c : Char} (hc : holds rs c = true) : holds ss c = false := by
  obtain ⟨r, hr, ge, le⟩ := holds_iff.1 hc
  rw [← Bool.not_eq_true, holds_iff]
  rintro ⟨s, hs, ge', le'⟩
  have apart := List.all_eq_true.1 (List.all_eq_true.1 h r hr) s hs
  simp only [Bool.or_eq_true, decide_eq_true_eq] at apart
  omega

/-- No letter and no numeral is a blank. -/
theorem isWordChar_of_isBlank {c : Char} (h : isBlank c = true) : isWordChar c = false := by
  have letters : CodeRange.disjoint whiteSpaceRanges letterRanges = true := by decide +kernel
  have numerals : CodeRange.disjoint whiteSpaceRanges numeralRanges = true := by decide +kernel
  rcases Bool.or_eq_true _ _ ▸ h with h | h
  · rw [isWordChar, isLetter, isNumeral, CodeRange.not_holds_of_disjoint letters h,
      CodeRange.not_holds_of_disjoint numerals h]
    rfl
  · rw [beq_iff_eq.1 h]
    decide +kernel

/-- No number starts with a blank. -/
theorem isBlank_of_startsNumber {c : Char} (h : Scan.startsNumber c = true) : isBlank c = false := by
  have digits : CodeRange.disjoint [⟨0x30, 0x39⟩] whiteSpaceRanges = true := by decide
  rcases Bool.or_eq_true _ _ ▸ h with digit | dash
  · have holds : CodeRange.holds [⟨0x30, 0x39⟩] c = true := by
      simp only [Char.isDigit, Bool.and_eq_true, decide_eq_true_eq] at digit
      exact CodeRange.holds_iff.2 ⟨_, List.mem_singleton_self _, digit.1, digit.2⟩
    have mark : c ≠ '\uFEFF' := by
      rintro rfl
      exact absurd digit (by decide)
    rw [isBlank, isWhiteSpace, CodeRange.not_holds_of_disjoint digits holds, beq_false_of_ne mark]
    rfl
  · rw [beq_iff_eq.1 dash]
    decide

/-- No letter and no numeral is a character that ends bare text. -/
theorem isWordChar_of_isReserved {c : Char} (h : Scan.isReserved c = true) :
    isWordChar c = false := by
  have reserved : (Scan.reservedChars.all fun d => !isWordChar d) = true := by decide +kernel
  simpa using List.all_eq_true.1 reserved c (List.contains_iff_mem.1 h)

end Text

namespace Scan

/-- Comments start with a number sign or with two slashes. -/
theorem opensComment_cons {comments : Bool} {c : Char} (hash : c ≠ '#') (slash : c ≠ '/')
    (cs : List Char) : opensComment comments (c :: cs) = false := by
  unfold opensComment
  split
  · next h => exact absurd (List.cons.inj h).1 hash
  · next h => exact absurd (List.cons.inj h).1 slash
  · rfl

/-! ### Quoted strings -/

/-- The digits of a control character stand for it. -/
theorem scanHex_hex {n : Nat} (h : n < 160) (rest : List Char) :
    scanHex (hex 4 n ++ rest) = (.ok n, rest) := by
  have digits : ∀ n < 160, hex 4 n = ['0', '0', Nat.digitChar (n / 16), Nat.digitChar (n % 16)]
      ∧ hexUnit? '0' '0' (Nat.digitChar (n / 16)) (Nat.digitChar (n % 16)) = some n := by
    decide +kernel
  obtain ⟨written, unit⟩ := digits n h
  rw [written]
  show scanHex ('0' :: '0' :: _ :: _ :: rest) = _
  rw [scanHex, unit]

theorem charOfCode?_toNat (c : Char) : charOfCode? c.toNat = some c := by
  have valid : c.toNat.isValidChar := c.valid
  rw [charOfCode?, dif_pos valid]
  rfl

/-- A character of a string literal is read as the character that was written. -/
theorem scanQuoted_quoteChar (taken : List Char) (c : Char) (cs : List Char) :
    scanQuoted taken (quoteChar c ++ cs) = scanQuoted (c :: taken) cs := by
  have escaped (e : Char) (d : Char) (h : ∀ cs, scanEscape (e :: cs) = (.ok d, cs)) :
      scanQuoted taken ('\\' :: e :: cs) = scanQuoted (d :: taken) cs := by
    rw [scanQuoted, if_neg (by decide), if_pos rfl]
    simp only [h]
  unfold quoteChar
  split
  · next h => rw [beq_iff_eq.1 h]; exact escaped '"' '"' fun _ => rfl
  split
  · next h => rw [beq_iff_eq.1 h]; exact escaped '\\' '\\' fun _ => rfl
  split
  · next h => rw [beq_iff_eq.1 h]; exact escaped 'n' '\n' fun _ => rfl
  split
  · next h => rw [beq_iff_eq.1 h]; exact escaped 'b' '\x08' fun _ => rfl
  split
  · next h => rw [beq_iff_eq.1 h]; exact escaped 'f' '\x0c' fun _ => rfl
  split
  · next h => rw [beq_iff_eq.1 h]; exact escaped 'r' '\r' fun _ => rfl
  split
  · next h => rw [beq_iff_eq.1 h]; exact escaped 't' '\t' fun _ => rfl
  split
  · next control =>
    -- a control character is written by its code
    have small : c.toNat < 160 := by
      simp only [isControl, Bool.or_eq_true, Bool.and_eq_true, decide_eq_true_eq] at control
      omega
    have unit : scanUnicode (hex 4 c.toNat ++ cs) = (.ok c, cs) := by
      rw [scanUnicode, scanHex_hex small]
      simp only []
      rw [if_neg (by omega), charOfUnit, charOfCode?_toNat]
    show scanQuoted taken ('\\' :: 'u' :: (hex 4 c.toNat ++ cs)) = _
    rw [scanQuoted, if_neg (by decide), if_pos rfl]
    have escape : scanEscape ('u' :: (hex 4 c.toNat ++ cs)) = (.ok c, cs) := unit
    simp only [escape]
  · next quote backslash _ _ _ _ _ control =>
    -- any other character stands for itself
    have visible : ¬ c.toNat < 0x20 := fun lt => control (by
      rw [isControl, decide_eq_true lt, Bool.true_or])
    show scanQuoted taken (c :: cs) = _
    rw [scanQuoted, if_neg (by simpa using quote), if_neg (by simpa using backslash),
      if_neg visible]

theorem scanQuoted_quote (taken cs rest : List Char) :
    scanQuoted taken (cs.flatMap quoteChar ++ '"' :: rest) = (.ok (taken.reverse ++ cs), rest) := by
  induction cs generalizing taken with
  | nil =>
    show scanQuoted taken ('"' :: rest) = _
    rw [scanQuoted, if_pos rfl, List.append_nil]
  | cons c cs ih =>
    rw [List.flatMap_cons, List.append_assoc, scanQuoted_quoteChar, ih, List.reverse_cons,
      List.append_assoc]
    rfl

/-- A string literal is read as the text that it was written for. -/
theorem scanFlat_quote (s : String) {rest : List Char} (h : rest.head? ≠ some '"') :
    scanFlat true '"' (s.toList.flatMap quoteChar ++ '"' :: rest)
      = (.value (.string s), rest) := by
  have string : scanString (s.toList.flatMap quoteChar ++ '"' :: rest)
      = (.ok (.value (.string s)), rest) := by
    unfold scanString
    rw [scanQuoted_quote]
    simp only [List.reverse_nil, List.nil_append]
    split
    · next rest' eq =>
      have := (Prod.ext_iff.1 eq).2
      simp only [] at this
      rw [this] at h
      exact absurd rfl h
    · simp only [String.ofList_toList]
  unfold scanFlat
  rw [opensComment_cons (by decide) (by decide)]
  simp only [Bool.false_eq_true, if_false, punctuation?, if_true, string]
  rfl

/-! ### Numbers and keywords -/

/-- A run of characters ends at its own end, or before that, if what stands behind it does not
belong to it. -/
theorem takeWhile_append_of_head {p : Char → Bool} (cs : List Char) {tail : List Char}
    (h : ∀ b ∈ tail.head?, p b = false) :
    (cs ++ tail).takeWhile p = cs.takeWhile p
      ∧ (cs ++ tail).dropWhile p = cs.dropWhile p ++ tail := by
  have behind : tail.takeWhile p = [] ∧ tail.dropWhile p = tail := by
    cases tail with
    | nil => exact ⟨rfl, rfl⟩
    | cons b tail =>
      have stops := h b rfl
      exact ⟨by rw [List.takeWhile_cons, stops]; rfl, by rw [List.dropWhile_cons, stops]; rfl⟩
  induction cs with
  | nil => exact behind
  | cons c cs ih =>
    rw [List.cons_append, List.takeWhile_cons, List.takeWhile_cons, List.dropWhile_cons,
      List.dropWhile_cons, ih.1, ih.2]
    split <;> exact ⟨rfl, rfl⟩

/-- A run of characters ends where something else stands. -/
theorem takeWhile_append_of_all {p : Char → Bool} {cs tail : List Char} (all : cs.all p = true)
    (h : ∀ b ∈ tail.head?, p b = false) :
    (cs ++ tail).takeWhile p = cs ∧ (cs ++ tail).dropWhile p = tail := by
  have all := List.all_eq_true.1 all
  obtain ⟨take, drop⟩ := takeWhile_append_of_head [] h
  rw [List.takeWhile_append_of_pos all, List.dropWhile_append_of_pos all]
  exact ⟨(congrArg (cs ++ ·) take).trans (List.append_nil cs), drop⟩

theorem continuesNumber_of_startsNumber {c : Char} (h : startsNumber c = true) :
    continuesNumber c = true := by
  rcases Bool.or_eq_true _ _ ▸ h with digit | dash
  · simp only [continuesNumber, digit, Bool.true_or]
  · rw [beq_iff_eq.1 dash]
    rfl

theorem punctuation?_of_startsNumber {c : Char} (h : startsNumber c = true) :
    punctuation? c = none := by
  unfold punctuation?
  split <;> first | rfl | exact absurd h (by decide)

/-- The spelling of a number is read as this number. -/
theorem scanFlat_number {comments : Bool} {first : Char} {cs rest : List Char} {literal : Literal}
    (hf : startsNumber first = true) (hcs : cs.all continuesNumber = true)
    (h : numberLiteral? (first :: cs) = some literal)
    (hr : ∀ c ∈ rest.head?, continuesNumber c = false) :
    scanFlat comments first (cs ++ rest) = (.value literal, rest) := by
  have ne (d : Char) (hd : startsNumber d = false) : first ≠ d := by
    rintro rfl
    rw [hf] at hd
    cases hd
  obtain ⟨take, drop⟩ := takeWhile_append_of_all hcs hr
  unfold scanFlat
  rw [opensComment_cons (ne '#' (by decide)) (ne '/' (by decide)), punctuation?_of_startsNumber hf]
  simp only [Bool.false_eq_true, if_false]
  rw [if_neg (ne '"' (by decide)), if_neg (ne '+' (by decide)), if_pos hf, scanNumber]
  simp only [take, drop, h]
  rfl

theorem scanFlat_keyword {comments : Bool} {literal : Literal} {first : Char} {cs : List Char}
    (h : (literal, first :: cs) ∈ [(Literal.null, "null".toList), (.bool true, "true".toList),
      (.bool false, "false".toList)]) (rest : List Char) :
    scanFlat comments first (cs ++ rest) = (.value literal, rest) := by
  simp only [List.mem_cons, List.not_mem_nil, or_false, Prod.mk.injEq] at h
  rcases h with ⟨rfl, h⟩ | ⟨rfl, h⟩ | ⟨rfl, h⟩ <;> cases h <;> rfl

/-! ### Bare text -/

/-- Whether bare text ends here. -/
def EndsBare : List Char → Prop
  | [] => True
  | c :: _ => isReserved c = true ∨ isBlank c = true

theorem scanBare_all {taken cs rest : List Char}
    (word : ∀ c ∈ cs, isReserved c = false ∧ isBlank c = false ∧ c ≠ '/')
    (keyword : ∀ w ∈ reservedWords, ¬ w.toList <+: taken.reverse ++ cs)
    (hr : EndsBare rest) :
    scanBare true taken (cs ++ rest) = (.bare (String.ofList (taken.reverse ++ cs)), rest) := by
  induction cs generalizing taken with
  | nil =>
    rw [List.append_nil, List.nil_append]
    cases rest with
    | nil => rfl
    | cons c rest =>
      rw [scanBare, if_pos]
      rcases hr with h | h <;> rw [h] <;> simp
  | cons c cs ih =>
    obtain ⟨⟨reserved, blank, slash⟩, word⟩ := List.forall_mem_cons.1 word
    have hash : c ≠ '#' := by
      rintro rfl
      exact absurd reserved (by decide)
    have eq : taken.reverse ++ c :: cs = (c :: taken).reverse ++ cs := by
      rw [List.reverse_cons, List.append_assoc]
      rfl
    -- a keyword would be a reserved word in front of the whole text
    have none : keyword? (c :: taken).reverse = none := by
      have front (w : String) (hw : w ∈ reservedWords) : (c :: taken).reverse ≠ w.toList :=
        fun h => keyword w hw (eq ▸ h ▸ List.prefix_append _ _)
      rw [keyword?, if_neg (front "true" (by decide)), if_neg (front "false" (by decide)),
        if_neg (front "null" (by decide))]
    rw [List.cons_append, scanBare,
      if_neg (by rw [reserved, blank, opensComment_cons hash slash]; decide), none, eq]
    exact ih word (eq ▸ keyword)

/-- The characters of a text that needs no quotes. -/
theorem forall_mem_of_readsBare {s : String} (bare : readsBare s = true) :
    ∀ c ∈ s.toList, isReserved c = false ∧ isBlank c = false ∧ c ≠ '/' ∧ c ≠ '.' := by
  intro c hc
  unfold readsBare at bare
  split at bare
  · cases bare
  · next first cs hs =>
    rw [hs] at hc
    have hc := List.all_eq_true.1 ((Bool.and_eq_true _ _).mp bare).2 c hc
    rcases Bool.or_eq_true _ _ ▸ hc with hw | dash
    · refine ⟨?_, ?_, ?_, ?_⟩
      · refine Bool.eq_false_iff.2 fun h => ?_
        rw [isWordChar_of_isReserved h] at hw
        cases hw
      · refine Bool.eq_false_iff.2 fun h => ?_
        rw [isWordChar_of_isBlank h] at hw
        cases hw
      · rintro rfl
        exact absurd hw (by decide +kernel)
      · rintro rfl
        exact absurd hw (by decide +kernel)
    · rw [beq_iff_eq.1 dash]
      decide +kernel

/-- A text that needs no quotes is read as bare text. -/
theorem scanFlat_bare {s : String} {first : Char} {cs rest : List Char} (hs : s.toList = first :: cs)
    (bare : readsBare s = true) (hr : EndsBare rest) :
    scanFlat true first (cs ++ rest) = (.bare s, rest) := by
  have word : ∀ c ∈ first :: cs, isReserved c = false ∧ isBlank c = false ∧ c ≠ '/' := fun c hc =>
    let ⟨reserved, blank, slash, _⟩ := forall_mem_of_readsBare bare c (hs ▸ hc)
    ⟨reserved, blank, slash⟩
  unfold readsBare at bare
  rw [hs] at bare
  simp only [Bool.and_eq_true, Bool.not_eq_true'] at bare
  obtain ⟨⟨⟨start, reserved⟩, -⟩, -⟩ := bare
  have keyword : ∀ w ∈ reservedWords, ¬ w.toList <+: first :: cs := by
    intro w hw h
    have := List.any_eq_false.1 reserved w hw
    exact this (List.isPrefixOf_iff_prefix.2 h)
  obtain ⟨hf, hcs⟩ := List.forall_mem_cons.1 word
  have ne (d : Char) (hd : isReserved d = true ∨ isBlank d = true ∨ d = '/') : first ≠ d := by
    rintro rfl
    rcases hd with hd | hd | rfl
    · rw [hf.1] at hd
      cases hd
    · rw [hf.2.1] at hd
      cases hd
    · exact hf.2.2 rfl
  have number : startsNumber first = false := start
  unfold scanFlat
  rw [opensComment_cons (ne '#' (by decide)) (ne '/' (by decide))]
  have none : punctuation? first = none := by
    unfold punctuation?
    split <;> first | rfl | exact absurd rfl (ne _ (by decide))
  simp only [Bool.false_eq_true, if_false, none]
  rw [if_neg (ne '"' (by decide)), if_neg (ne '+' (by decide)), number, if_neg (by decide),
    if_neg (ne '$' (by decide)), hf.1, if_neg (by decide)]
  have whole : [first].reverse ++ cs = s.toList := hs.symm
  rw [scanBare_all hcs (whole ▸ hs ▸ keyword) hr, whole, String.ofList_toList]

end Scan

end Hocon
