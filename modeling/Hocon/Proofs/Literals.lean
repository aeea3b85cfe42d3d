import Hocon.Proofs.JsonWriting
import Hocon.Proofs.Lossless

/-!
# Literals

A text that is one literal falls into one token, in either syntax: a number of JSON
(`JsonValue.IsNumber.literal_ofText`), a quoted string however its characters are escaped
(`Token.quoted_ofText`), and a raw string (`Token.raw_ofText`).

For strings the other way round holds too.  The scanners accept nothing but such spellings, so a
string token of any text stands on a spelling of its content (`Token.spells_ofText`).  Strings may
stand in the path of a substitution, which is a token itself; the proof goes down into these by the
recursion of the lexer, as that of `lossless_ofText` does.
-/

namespace Hocon

open Scan

/-! ### Numbers -/

namespace Scan

/-- A run of number characters that spells no number is bare text, if it may be. -/
theorem scanFlat_noNumber {comments : Bool} {first : Char} {cs rest : List Char}
    (hf : startsNumber first = true) (hcs : cs.all continuesNumber = true)
    (noLiteral : numberLiteral? (first :: cs) = none)
    (free : (first :: cs).find? isReserved = none)
    (hr : ∀ c ∈ rest.head?, continuesNumber c = false) :
    scanFlat comments first (cs ++ rest) = (.bare (String.ofList (first :: cs)), rest) := by
  have ne (d : Char) (hd : startsNumber d = false) : first ≠ d := by
    rintro rfl
    rw [hf] at hd
    cases hd
  obtain ⟨take, drop⟩ := takeWhile_append_of_all hcs hr
  unfold scanFlat
  rw [opensComment_cons (ne '#' (by decide)) (ne '/' (by decide)), punctuation?_of_startsNumber hf]
  simp only [Bool.false_eq_true, if_false]
  rw [if_neg (ne '"' (by decide)), if_neg (ne '+' (by decide)), if_pos hf, scanNumber]
  simp only [take, drop, noLiteral, free]
  rfl

/-- No digit is a reserved character. -/
theorem isReserved_of_isDigit {c : Char} (digit : c.isDigit = true) : isReserved c = false := by
  refine Bool.eq_false_iff.2 fun reserved => ?_
  have apart : (reservedChars.all fun c => !c.isDigit) = true := by decide
  have := List.all_eq_true.1 apart c (List.contains_iff_mem.1 reserved)
  rw [digit] at this
  cases this

end Scan

namespace JsonValue

/-- An integer beyond 64 bits is digits, which spell no number here. -/
theorem IsNumber.not_fits {text : List Char} (h : IsNumber text) (large : ¬ Fits text) :
    numberLiteral? text = none ∧ text.find? isReserved = none := by
  have plain : hasPlaces text = false := Bool.eq_false_iff.2 fun places => large (.inl places)
  have outside : ¬ (Int64.minValue.toInt ≤ integer text ∧ integer text ≤ Int64.maxValue.toInt) :=
    fun inside => large (.inr inside)
  constructor
  · rw [numberLiteral?_eq, plain, if_neg Bool.false_ne_true, readInt64?,
      readWhole?_integer _ _ h plain, if_neg outside]
    rfl
  · obtain ⟨d, ds, digits, form⟩ := h.integer_form plain
    have free : ∀ c ∈ d :: ds, isReserved c = false :=
      fun c hc => isReserved_of_isDigit (List.all_eq_true.1 digits c hc)
    refine List.find?_eq_none.2 fun c hc => Bool.eq_false_iff.1 ?_
    obtain rfl | rfl := form
    · exact free c hc
    · obtain rfl | hc := List.mem_cons.1 hc
      · rfl
      · exact free c hc

/-- A number that is read starts no blank and no substitution. -/
theorem IsNumber.passes {text : List Char} {kind : TokenKind} (h : IsNumber text) (comments : Bool)
    (scan : ∀ first cs, text = first :: cs → startsNumber first = true →
      cs.all continuesNumber = true → scanFlat comments first (cs ++ []) = (kind, [])) :
    Passes comments false text [kind] kind.isSimpleValue [] := by
  obtain ⟨first, cs, rfl, starts, more⟩ := h.continues
  have solid : Cursor.isGap first = false := by
    rw [Cursor.isGap, Text.isBlank_of_startsNumber starts, Bool.and_false]
  have flat : first ≠ '$' := by
    rintro rfl
    exact absurd starts (by decide)
  have scan := scan first cs rfl starts more
  rw [List.append_nil] at scan
  exact .front solid flat scan

theorem IsNumber.bare_ofText {text : List Char} (h : IsNumber text) (large : ¬ Fits text)
    (syn : DocumentSyntax) :
    (Token.ofText syn text).map Placed.kind = [.start, .bare (String.ofList text), .stop] := by
  obtain ⟨noLiteral, free⟩ := h.not_fits large
  refine (h.passes (syn != .json) ?_).kinds_ofText rfl
  rintro first cs rfl starts more
  exact scanFlat_noNumber starts more noLiteral free nofun

/-- **A number of JSON is one token**, in either syntax: a number that keeps the literal; or bare
text, if it is an integer beyond 64 bits. -/
theorem IsNumber.literal_ofText {text : List Char} (h : IsNumber text) (syn : DocumentSyntax) :
    (Fits text → ∃ literal, IsLiteral text literal
      ∧ (Token.ofText syn text).map Placed.kind = [.start, .value literal, .stop])
    ∧ (¬ Fits text →
      (Token.ofText syn text).map Placed.kind = [.start, .bare (String.ofList text), .stop]) := by
  refine ⟨fun fits => ?_, fun large => h.bare_ofText large syn⟩
  obtain ⟨literal, value, isLiteral⟩ := h.exists_literal fits
  refine ⟨literal, isLiteral, (h.passes (syn != .json) ?_).kinds_ofText rfl⟩
  rintro first cs rfl starts more
  exact scanFlat_number starts more value nofun

/-- Digits of which the first is no zero. -/
theorem IsNumber.of_digits {d : Char} {ds : List Char} (first : d.isDigit = true)
    (positive : d ≠ '0') (more : ds.all Char.isDigit = true) : IsNumber (d :: ds) := by
  have number : IsNumber ([] ++ (d :: ds ++ ([] ++ []))) :=
    .mk (.inl rfl) (.digits first positive more) .none .none
  simpa only [List.nil_append, List.append_nil] using number

/-- The greatest integer of 64 bits. -/
theorem IsNumber.literal_ofText_example :
    IsNumber "9223372036854775807".toList
      ∧ ∃ literal, IsLiteral "9223372036854775807".toList literal
        ∧ (Token.ofText .json "9223372036854775807".toList).map Placed.kind
          = [.start, .value literal, .stop] := by
  have number : IsNumber "9223372036854775807".toList :=
    .of_digits (by decide) (by decide) (by decide)
  exact ⟨number, (number.literal_ofText .json).1 (.inr (by decide))⟩

/-- An integer beyond them is no number, although there is a double for it. -/
theorem IsNumber.literal_ofText_counterexample :
    IsNumber "99999999999999999999".toList
      ∧ ¬ ∃ literal, (Token.ofText .json "99999999999999999999".toList).map Placed.kind
        = [.start, .value literal, .stop] := by
  have number : IsNumber "99999999999999999999".toList :=
    .of_digits (by decide) (by decide) (by decide)
  have large : ¬ Fits "99999999999999999999".toList := by
    unfold Fits
    decide
  refine ⟨number, ?_⟩
  rintro ⟨literal, kinds⟩
  rw [number.bare_ofText large] at kinds
  cases kinds

end JsonValue

/-! ### What escapes are -/

namespace JsonValue

/-- A digit that has a value is one of those for it. -/
theorem isHexDigit_of_hexValue? {c : Char} {n : Nat} (h : hexValue? c = some n) :
    IsHexDigit c n := by
  obtain ⟨low, high⟩ : c.toNat < 128 ∧ c = Char.ofNat c.toNat := by
    refine ⟨?_, (Char.ofNat_toNat c).symm⟩
    unfold hexValue? at h
    split at h
    · next digit =>
      simp only [Char.isDigit, Bool.and_eq_true, decide_eq_true_eq] at digit
      have : c.toNat ≤ '9'.toNat := digit.2
      exact Nat.lt_of_le_of_lt this (by decide)
    · split at h
      · next lower =>
        have : c.toNat ≤ 'f'.toNat := lower.2
        exact Nat.lt_of_le_of_lt this (by decide)
      · split at h
        · next upper =>
          have : c.toNat ≤ 'F'.toNat := upper.2
          exact Nat.lt_of_le_of_lt this (by decide)
        · cases h
  have all : ∀ k < 128, ∀ n ∈ hexValue? (Char.ofNat k), IsHexDigit (Char.ofNat k) n := by
    decide +kernel
  rw [high] at h ⊢
  exact all _ low n h

/-- What four digits are read from. -/
theorem exists_writesUnit {cs rest : List Char} {unit : Nat}
    (scan : scanHex cs = (.ok unit, rest)) :
    ∃ digits, cs = digits ++ rest ∧ WritesUnit unit digits := by
  unfold scanHex at scan
  split at scan
  · next a b c d behind =>
    split at scan <;> cases scan
    next h =>
    simp only [hexUnit?, bind, Option.bind_eq_some_iff, pure, Option.some.injEq] at h
    obtain ⟨x, hx, y, hy, z, hz, w, hw, rfl⟩ := h
    exact ⟨[a, b, c, d], rfl, .mk (isHexDigit_of_hexValue? hx) (isHexDigit_of_hexValue? hy)
      (isHexDigit_of_hexValue? hz) (isHexDigit_of_hexValue? hw)⟩
  · cases scan

/-- A code has at most the character that it is the code of. -/
theorem toNat_of_charOfCode? {n : Nat} {c : Char} (h : charOfCode? n = some c) : c.toNat = n := by
  unfold charOfCode? at h
  by_cases valid : n.isValidChar
  · rw [dif_pos valid] at h
    cases h
    rfl
  · rw [dif_neg valid] at h
    cases h

theorem toNat_of_charOfUnit {unit : Nat} {c : Char} {cs rest : List Char}
    (scan : charOfUnit unit cs = (.ok c, rest)) : c.toNat = unit ∧ cs = rest := by
  unfold charOfUnit at scan
  split at scan
  · next code =>
    cases scan
    exact ⟨toNat_of_charOfCode? code, rfl⟩
  · cases scan

/-- What an escape of a code is read from. -/
theorem exists_writesChar_unicode {cs rest : List Char} {c : Char}
    (scan : scanUnicode cs = (.ok c, rest)) :
    ∃ piece, cs = piece ++ rest ∧ WritesChar c ('\\' :: 'u' :: piece) := by
  unfold scanUnicode at scan
  split at scan
  · cases scan
  next lead behind hex =>
  obtain ⟨digits, rfl, unit⟩ := exists_writesUnit hex
  split at scan
  · next surrogate =>
    split at scan
    · next behind =>
      split at scan
      · cases scan
      next follow behind hex' =>
      obtain ⟨digits', rfl, unit'⟩ := exists_writesUnit hex'
      split at scan
      · next trailing =>
        split at scan <;> cases scan
        next code =>
        have code := toNat_of_charOfCode? code
        obtain ⟨high, rfl⟩ := Nat.exists_eq_add_of_le surrogate.1
        obtain ⟨low, rfl⟩ := Nat.exists_eq_add_of_le trailing.1
        rw [Nat.add_sub_cancel_left, Nat.add_sub_cancel_left] at code
        refine ⟨digits ++ '\\' :: 'u' :: digits', by simp, ?_⟩
        exact .pair (Nat.lt_of_add_lt_add_left surrogate.2) (Nat.lt_of_add_lt_add_left trailing.2)
          code unit unit'
      · cases scan
    · obtain ⟨rfl, rfl⟩ := toNat_of_charOfUnit scan
      exact ⟨digits, rfl, .unit unit⟩
  · obtain ⟨rfl, rfl⟩ := toNat_of_charOfUnit scan
    exact ⟨digits, rfl, .unit unit⟩

/-- What an escape is read from. -/
theorem exists_writesChar {cs rest : List Char} {c : Char} (scan : scanEscape cs = (.ok c, rest)) :
    ∃ piece, cs = piece ++ rest ∧ WritesChar c ('\\' :: piece) := by
  unfold scanEscape at scan
  split at scan
  case h_10 =>
    obtain ⟨piece, rfl, writes⟩ := exists_writesChar_unicode scan
    exact ⟨'u' :: piece, rfl, writes⟩
  all_goals cases scan
  all_goals exact ⟨[_], rfl, .short (by decide)⟩

/-- **What the content of a quoted string is read from** is a spelling of it. -/
theorem exists_writesText {taken cs content rest : List Char}
    (scan : scanQuoted taken cs = (.ok content, rest)) :
    ∃ text written, cs = text ++ '"' :: rest ∧ content = taken.reverse ++ written
      ∧ WritesText written text := by
  fun_induction scanQuoted taken cs with
  | case1 => cases scan
  | case2 taken cs =>
    cases scan
    exact ⟨[], [], rfl, (List.append_nil _).symm, .nil⟩
  | case3 taken cs escape c ok notQuote ih =>
    obtain ⟨piece, whole, head⟩ := exists_writesChar (Prod.ext ok rfl : scanEscape cs = (.ok c, _))
    obtain ⟨text, written, behind, rfl, tail⟩ := ih scan
    have whole : cs = piece ++ (text ++ '"' :: rest) := whole.trans (congrArg (piece ++ ·) behind)
    exact ⟨'\\' :: piece ++ text, c :: written, by rw [whole]; simp, by simp, .cons head tail⟩
  | case4 => cases scan
  | case5 => cases scan
  | case6 taken c cs quote backslash visible ih =>
    obtain ⟨text, written, rfl, rfl, tail⟩ := ih scan
    exact ⟨[c] ++ text, c :: written, rfl, by simp,
      .cons (.raw (Nat.not_lt.1 visible) quote backslash) tail⟩

/-- The digits that a control character is written with. -/
theorem writesUnit_hex {n : Nat} (h : n < 160) : WritesUnit n (Text.hex 4 n) := by
  have digits : ∀ n < 160,
      Text.hex 4 n = ['0', '0', Nat.digitChar (n / 16), Nat.digitChar (n % 16)] := by
    decide +kernel
  have unit : WritesUnit (((0 * 16 + 0) * 16 + n / 16) * 16 + n % 16)
      ['0', '0', Nat.digitChar (n / 16), Nat.digitChar (n % 16)] :=
    .mk (by decide) (by decide) ⟨by omega, .inl rfl⟩ ⟨by omega, .inl rfl⟩
  rw [digits n h]
  have code : ((0 * 16 + 0) * 16 + n / 16) * 16 + n % 16 = n := by omega
  rwa [code] at unit

/-- The string literals that are written are spellings. -/
theorem writesString_quote (s : String) : WritesString s (Text.quote s).toList := by
  have char (c : Char) : WritesChar c (Text.quoteChar c) := by
    unfold Text.quoteChar
    split
    · next h => rw [beq_iff_eq.1 h]; exact .short (by decide)
    split
    · next h => rw [beq_iff_eq.1 h]; exact .short (by decide)
    split
    · next h => rw [beq_iff_eq.1 h]; exact .short (by decide)
    split
    · next h => rw [beq_iff_eq.1 h]; exact .short (by decide)
    split
    · next h => rw [beq_iff_eq.1 h]; exact .short (by decide)
    split
    · next h => rw [beq_iff_eq.1 h]; exact .short (by decide)
    split
    · next h => rw [beq_iff_eq.1 h]; exact .short (by decide)
    split
    · next control =>
      have small : c.toNat < 160 := by
        simp only [Text.isControl, Bool.or_eq_true, Bool.and_eq_true, decide_eq_true_eq] at control
        omega
      exact .unit (writesUnit_hex small)
    · next quote backslash _ _ _ _ _ control =>
      have visible : 0x20 ≤ c.toNat := by
        simp only [Text.isControl, Bool.or_eq_true, Bool.and_eq_true, decide_eq_true_eq] at control
        omega
      exact .raw visible (by simpa using quote) (by simpa using backslash)
  have text (cs : List Char) : WritesText cs (cs.flatMap Text.quoteChar) := by
    induction cs with
    | nil => exact .nil
    | cons c cs ih => exact .cons (char c) ih
  rw [Text.quote, String.toList_ofList]
  exact .mk (text s.toList)

end JsonValue

/-! ### Raw strings -/

/-- The quotes around a raw string. -/
def Text.rawQuotes : List Char := ['"', '"', '"']

/-- A text that may stand between such quotes: three quotes in a row come at its end, if at all. -/
def Text.IsRaw (cs : List Char) : Prop :=
  ∀ front back, cs = front ++ (rawQuotes ++ back) → back.all (· == '"') = true

namespace Scan

open Text (rawQuotes IsRaw)

variable {c : Char} {cs rest : List Char}

theorem isRaw_of_cons (h : IsRaw (c :: cs)) : IsRaw cs := by
  intro front back whole
  exact h (c :: front) back (congrArg (c :: ·) whole)

/-- Where three quotes stand in front of a raw text and its closing quotes, the text is quotes. -/
theorem all_quotes_of_isRaw (h : IsRaw cs) (front : rawQuotes <+: cs ++ rawQuotes ++ rest) :
    cs.all (· == '"') = true := by
  rw [List.append_assoc] at front
  match cs, front with
  | [], _ => rfl
  | [c], one =>
    obtain ⟨rfl, -⟩ := List.cons_prefix_cons.1 one
    rfl
  | [c, d], one =>
    obtain ⟨rfl, two⟩ := List.cons_prefix_cons.1 one
    obtain ⟨rfl, -⟩ := List.cons_prefix_cons.1 two
    rfl
  | c :: d :: e :: cs, one =>
    obtain ⟨rfl, two⟩ := List.cons_prefix_cons.1 one
    obtain ⟨rfl, three⟩ := List.cons_prefix_cons.1 two
    obtain ⟨rfl, -⟩ := List.cons_prefix_cons.1 three
    exact h [] cs rfl

/-- A run of quotes behind three others, up to something else. -/
theorem scanRaw_quotes (taken : List Char) (n : Nat) (stops : rest.head? ≠ some '"') :
    scanRaw taken (List.replicate n '"' ++ rawQuotes ++ rest)
      = (.ok (taken.reverse ++ List.replicate n '"'), rest) := by
  have run : List.replicate n '"' ++ rawQuotes = List.replicate (n + 3) '"' :=
    List.replicate_append_replicate (m := 3)
  have all : (List.replicate (n + 3) '"').all (· == '"') = true :=
    List.all_eq_true.2 fun c hc => beq_iff_eq.2 (List.eq_of_mem_replicate hc)
  have ends : ∀ b ∈ rest.head?, (b == '"') = false := fun b hb =>
    beq_false_of_ne fun quote => stops (hb.trans (congrArg some quote))
  obtain ⟨take, drop⟩ := takeWhile_append_of_all all ends
  have front : ['"', '"', '"'].isPrefixOf (List.replicate (n + 3) '"' ++ rest) = true := by
    refine List.isPrefixOf_iff_prefix.2 ⟨List.replicate n '"' ++ rest, ?_⟩
    rw [Nat.add_comm, ← List.replicate_append_replicate, List.append_assoc]
    rfl
  rw [run]
  rw [List.replicate_succ, List.cons_append] at front take drop ⊢
  rw [scanRaw, if_pos front]
  simp only [take, drop, List.length_replicate, List.length_cons]
  rfl

theorem isRaw_replicate (n : Nat) : IsRaw (List.replicate n '"') := by
  intro front back whole
  refine List.all_eq_true.2 fun c hc => beq_iff_eq.2 (List.eq_of_mem_replicate (n := n) ?_)
  rw [whole]
  exact List.mem_append_right _ (List.mem_append_right _ hc)

/-- **A raw text is read up to its closing quotes.** -/
theorem scanRaw_of_isRaw (taken : List Char) (h : IsRaw cs) (stops : rest.head? ≠ some '"') :
    scanRaw taken (cs ++ rawQuotes ++ rest) = (.ok (taken.reverse ++ cs), rest) := by
  induction cs generalizing taken with
  | nil => exact scanRaw_quotes taken 0 stops
  | cons c cs ih =>
    by_cases front : rawQuotes <+: c :: cs ++ rawQuotes ++ rest
    · have all := all_quotes_of_isRaw h front
      have quotes : c :: cs = List.replicate (c :: cs).length '"' :=
        List.eq_replicate_of_mem fun d hd => beq_iff_eq.1 (List.all_eq_true.1 all d hd)
      rw [quotes]
      exact scanRaw_quotes taken _ stops
    · have closed : ¬ ['"', '"', '"'].isPrefixOf (c :: (cs ++ rawQuotes ++ rest)) = true :=
        fun opens => front (List.isPrefixOf_iff_prefix.1 opens)
      have behind := ih (c :: taken) (isRaw_of_cons h)
      rw [List.reverse_cons, List.append_assoc taken.reverse] at behind
      show scanRaw taken (c :: (cs ++ rawQuotes ++ rest)) = _
      rw [scanRaw, if_neg closed]
      exact behind

/-- **What a raw text is read from** is the text and its closing quotes. -/
theorem exists_isRaw {taken content : List Char} (scan : scanRaw taken cs = (.ok content, rest)) :
    ∃ raw, IsRaw raw ∧ content = taken.reverse ++ raw ∧ cs = raw ++ rawQuotes ++ rest
      ∧ rest.head? ≠ some '"' := by
  induction cs generalizing taken with
  | nil => cases scan
  | cons c cs ih =>
    rw [scanRaw] at scan
    split at scan
    · next opens =>
      cases scan
      have whole : (c :: cs).takeWhile (· == '"') ++ (c :: cs).dropWhile (· == '"') = c :: cs :=
        List.takeWhile_append_dropWhile
      have stops : ((c :: cs).dropWhile (· == '"')).head? ≠ some '"' := by
        intro quote
        have stops := List.head?_dropWhile_not (· == '"') (c :: cs)
        rw [quote] at stops
        cases stops
      -- the run of quotes goes on behind the first three
      obtain ⟨behind, front⟩ := List.isPrefixOf_iff_prefix.1 opens
      have long : ((c :: cs).takeWhile (· == '"')).length
          = (behind.takeWhile (· == '"')).length + 3 := by
        rw [← front]
        rfl
      have run : (c :: cs).takeWhile (· == '"')
          = List.replicate (behind.takeWhile (· == '"')).length '"' ++ rawQuotes := by
        have same := List.eq_replicate_of_mem fun d (hd : d ∈ (c :: cs).takeWhile (· == '"')) =>
          beq_iff_eq.1 (List.all_eq_true.1 List.all_takeWhile d hd)
        rw [same, long]
        exact (List.replicate_append_replicate (m := 3)).symm
      refine ⟨List.replicate _ '"', isRaw_replicate _, rfl, ?_, stops⟩
      rw [long, Nat.add_sub_cancel, ← run, whole]
    · next closed =>
      obtain ⟨raw, isRaw, rfl, rfl, stops⟩ := ih scan
      refine ⟨c :: raw, ?_, by simp, rfl, stops⟩
      intro front back whole
      cases front with
      | cons d front => exact isRaw front back (List.cons.inj whole).2
      | nil =>
        refine absurd (List.isPrefixOf_iff_prefix.2 ⟨back ++ (rawQuotes ++ rest), ?_⟩) closed
        rw [← List.cons_append, ← List.cons_append, whole, List.nil_append, List.append_assoc,
          List.append_assoc]
        rfl

end Scan

/-! ### Spellings of strings -/

/-- What a string is written as: between two quotes with its characters escaped, or between three
quotes each, as it is. -/
inductive Text.SpellsString (s : String) : List Char → Prop
  | quoted {piece : List Char} (h : JsonValue.WritesString s piece) : SpellsString s piece
  | raw (h : IsRaw s.toList) : SpellsString s (rawQuotes ++ s.toList ++ rawQuotes)

namespace Text.SpellsString

variable {s : String} {piece : List Char}

/-- A spelling without three quotes in front is a quoted one. -/
theorem writesString (h : SpellsString s piece) (front : ¬ rawQuotes <+: piece) :
    JsonValue.WritesString s piece := by
  cases h with
  | quoted h => exact h
  | raw => exact absurd ⟨_, (List.append_assoc ..).symm⟩ front

/-- No character of a quoted string is a bare quote. -/
theorem head?_of_writesChar {c : Char} (h : JsonValue.WritesChar c piece) :
    ∃ d rest, piece = d :: rest ∧ d ≠ '"' := by
  cases h with
  | raw _ quote => exact ⟨_, _, rfl, quote⟩
  | short | unit | pair => exact ⟨_, _, rfl, by decide⟩

/-- A spelling with three quotes in front is a raw one. -/
theorem eq_raw (h : SpellsString s piece) (front : rawQuotes <+: piece) :
    piece = rawQuotes ++ s.toList ++ rawQuotes := by
  cases h with
  | raw => rfl
  | quoted h =>
    obtain ⟨text⟩ := h
    have second := (List.cons_prefix_cons.1 front).2
    generalize s.toList = cs at text
    cases text with
    | nil => cases (List.cons_prefix_cons.1 second).2.length_le
    | cons head =>
      obtain ⟨d, rest, rfl, noQuote⟩ := head?_of_writesChar head
      exact absurd (List.cons_prefix_cons.1 second).1.symm noQuote

end Text.SpellsString

namespace Scan

open Text (rawQuotes IsRaw SpellsString)

/-- **What a string is read from** is a spelling of it. -/
theorem spells_of_scanString {cs rest : List Char} {kind : TokenKind}
    (scan : scanString cs = (.ok kind, rest)) :
    ∃ s read, kind = .value (.string s) ∧ cs = read ++ rest ∧ SpellsString s ('"' :: read) := by
  unfold scanString at scan
  split at scan
  · next behind quoted =>
    -- two quotes at once, and then what three of them open
    obtain ⟨text, written, rfl, empty, writes⟩ := JsonValue.exists_writesText quoted
    obtain rfl : written = [] := empty.symm
    cases writes
    rcases closed : scanRaw [] behind with ⟨e | content, left⟩ <;> rw [closed] at scan <;> cases scan
    obtain ⟨raw, isRaw, same, rfl, -⟩ := exists_isRaw closed
    obtain rfl : content = raw := same
    refine ⟨String.ofList content, '"' :: '"' :: (content ++ rawQuotes), rfl, rfl, ?_⟩
    have spells : SpellsString (String.ofList content)
        (rawQuotes ++ (String.ofList content).toList ++ rawQuotes) :=
      .raw (by rwa [String.toList_ofList])
    rwa [String.toList_ofList] at spells
  · rcases quoted : scanQuoted [] cs with ⟨e | content, left⟩ <;> rw [quoted] at scan <;> cases scan
    obtain ⟨text, written, rfl, rfl, writes⟩ := JsonValue.exists_writesText quoted
    refine ⟨_, text ++ ['"'], rfl, by simp, .quoted (.mk ?_)⟩
    rwa [String.toList_ofList]

theorem numberLiteral?_ne_string (text : List Char) (s : String) :
    numberLiteral? text ≠ some (.string s) := by
  unfold numberLiteral?
  split
  · intro h
    obtain ⟨d, -, ⟨⟩⟩ := Option.map_eq_some_iff.1 h
  · intro h
    obtain ⟨n, -, ⟨⟩⟩ := Option.map_eq_some_iff.1 h

theorem scanBare_ne_string (comments : Bool) (taken cs : List Char) (s : String) :
    (scanBare comments taken cs).1 ≠ .value (.string s) := by
  induction cs generalizing taken with
  | nil => rintro ⟨⟩
  | cons c cs ih =>
    rw [scanBare]
    split
    · rintro ⟨⟩
    split
    · next literal keyword =>
      rintro ⟨⟩
      unfold keyword? at keyword
      split at keyword
      · cases keyword
      split at keyword
      · cases keyword
      split at keyword <;> cases keyword
    · exact ih _

/-- Only a quote opens a string. -/
theorem spells_of_scanFlat {comments : Bool} {first : Char} {cs rest : List Char} {s : String}
    (scan : scanFlat comments first cs = (.value (.string s), rest)) :
    ∃ read, cs = read ++ rest ∧ SpellsString s (first :: read) := by
  unfold scanFlat at scan
  split at scan
  · cases scan
  split at scan
  · next kind h =>
    unfold punctuation? at h
    split at h <;> cases h <;> cases scan
  split at scan
  · next quote =>
    subst quote
    rcases string : scanString cs with ⟨e | kind, left⟩ <;> rw [string] at scan <;> cases scan
    obtain ⟨s', read, kind, whole, spells⟩ := spells_of_scanString string
    cases kind
    exact ⟨read, whole, spells⟩
  split at scan
  · unfold scanPlus at scan
    split at scan <;> cases scan
  split at scan
  · unfold scanNumber at scan
    simp only at scan
    split at scan
    · next literal number =>
      cases scan
      exact absurd number (numberLiteral?_ne_string _ s)
    split at scan <;> cases scan
  split at scan
  · cases scan
  split at scan
  · cases scan
  · exact absurd (congrArg Prod.fst scan) (scanBare_ne_string comments [first] cs s)

end Scan

/-! ### The strings of a text -/

namespace Token

/-- The first token is the second one, or one of those in a substitution that is inside it. -/
inductive Inside : Token → Token → Prop
  | self (t : Token) : Inside t t
  | inner {t u v : Token} {optional : Bool} {expression : List Token}
      (kind : t.kind = .substitution optional expression) (mem : v ∈ expression)
      (within : Inside u v) : Inside u t

/-- Every string token inside this one stands on a spelling of its content. -/
def SpellsStrings (text : List Char) (t : Token) : Prop :=
  ∀ u, Inside u t → ∀ s, u.kind = .value (.string s) → Text.SpellsString s (u.span.slice text)

variable {text front : List Char} {c : Cursor} {t : Token}

/-- Of a token that is no substitution only its own text matters. -/
theorem SpellsStrings.flat (noExpression : ∀ optional expression,
      t.kind ≠ .substitution optional expression)
    (spells : ∀ s, t.kind = .value (.string s) → Text.SpellsString s (t.span.slice text)) :
    SpellsStrings text t := by
  intro u inside
  cases inside with
  | self => exact spells
  | inner kind => exact absurd kind (noExpression _ _)

theorem spellsStrings_gapToken (c next : Cursor) (after before : Bool) :
    ∀ t ∈ c.gapToken next after before, SpellsStrings text t := by
  unfold Cursor.gapToken
  split
  · refine List.forall_mem_singleton.2 (.flat ?_ ?_)
    · rintro _ _ ⟨⟩
    · rintro _ ⟨⟩
  · exact List.forall_mem_nil _

end Token

mutual

theorem pullToken_spellsStrings (comments : Bool) (c : Cursor) (h : c.rest ≠ [])
    {text front : List Char} (stands : c.At text front) :
    Token.SpellsStrings text (pullToken comments c h).val.1 := by
  cases hs : Scan.openSubstitution? c.rest with
  | some opened =>
    obtain ⟨optional, inner⟩ := opened
    obtain ⟨mark, whole⟩ := Scan.openSubstitution?_eq hs
    have shorter := Scan.openSubstitution?_length_lt hs
    have row := pullExpression_spellsStrings comments (c.moveTo inner) false (stands.moveTo whole)
    rw [pullToken_substitution hs h]
    generalize (pullExpression comments (c.moveTo inner) false).val = r at row ⊢
    obtain ⟨result, next⟩ := r
    cases result with
    | error p =>
      refine .flat ?_ ?_
      · rintro _ _ ⟨⟩
      · rintro _ ⟨⟩
    | ok expression =>
      intro u inside
      cases inside with
      | self => rintro _ ⟨⟩
      | inner kind mem within =>
        cases kind
        exact row expression rfl _ mem u within
  | none =>
    match c, h with
    | ⟨first :: cs, place, line⟩, h =>
    rw [pullToken]
    split
    · next hs' => cases hs.symm.trans hs'
    · refine .flat (Scan.scanFlat_noExpression comments first cs) fun s kind => ?_
      obtain ⟨read, left, spells⟩ := Scan.spells_of_scanFlat
        (Prod.ext kind rfl : Scan.scanFlat comments first cs = (_, _))
      have whole : first :: cs = (first :: read) ++ (Scan.scanFlat comments first cs).2 :=
        congrArg (first :: ·) left
      have slice := stands.slice (stands.moveTo whole)
      exact slice.symm ▸ spells
termination_by 2 * c.rest.length
decreasing_by
  simp only [Cursor.rest_moveTo] at *
  omega

theorem pullExpression_spellsStrings (comments : Bool) (c : Cursor) (after : Bool)
    {text front : List Char} (stands : c.At text front) :
    ∀ ts, (pullExpression comments c after).val.1 = .ok ts →
      ∀ t ∈ ts, Token.SpellsStrings text t := by
  have blank := stands.skipGap
  have le := c.skipGap_length_le
  by_cases h : c.skipGap.rest = []
  · rw [pullExpression_nil h]
    exact nofun
  · have token := pullToken_spellsStrings comments c.skipGap h blank
    have between := pullToken_readBetween comments c.skipGap h blank
    rcases pulled : (pullToken comments c.skipGap h).val with ⟨t, next⟩
    have shorter : next.rest.length < c.skipGap.rest.length := by
      have shorter := (pullToken comments c.skipGap h).property
      rwa [pulled] at shorter
    rw [pulled] at token between
    obtain ⟨read, moved⟩ := between.moved
    rw [pullExpression_eq h pulled]
    split
    · rintro _ ⟨⟩
      exact List.forall_mem_nil _
    · exact nofun
    · have row := pullExpression_spellsStrings comments next t.kind.isSimpleValue moved
      generalize (pullExpression comments next t.kind.isSimpleValue).val = r at row ⊢
      obtain ⟨result, last⟩ := r
      cases result with
      | error p => exact nofun
      | ok ts =>
        rintro _ ⟨⟩
        exact List.forall_mem_append.2 ⟨Token.spellsStrings_gapToken _ _ _ _,
          List.forall_mem_cons.2 ⟨token, row ts rfl⟩⟩
termination_by 2 * c.rest.length + 1
decreasing_by all_goals omega

end

/-- **The string tokens of any text stand on spellings** of their contents. -/
theorem Token.spells_ofText (syn : DocumentSyntax) (text : List Char) :
    ∀ t ∈ Token.ofText syn text, SpellsStrings text t := by
  have tokens (c : Cursor) (after : Bool) {front : List Char} (stands : c.At text front) :
      ∀ t ∈ tokensFrom (syn != .json) c after, SpellsStrings text t := by
    fun_induction tokensFrom (syn != .json) c after generalizing front with
    | case1 =>
      refine List.forall_mem_singleton.2 (.flat ?_ ?_)
      · rintro _ _ ⟨⟩
      · rintro _ ⟨⟩
    | case2 =>
      rename_i c after b le h t next lt hp shorter ih
      have token := pullToken_spellsStrings (syn != .json) c.skipGap h stands.skipGap
      have between := pullToken_readBetween (syn != .json) c.skipGap h stands.skipGap
      rw [hp] at token between
      obtain ⟨read, moved⟩ := between.moved
      exact List.forall_mem_append.2 ⟨spellsStrings_gapToken _ _ _ _,
        List.forall_mem_cons.2 ⟨token, ih moved⟩⟩
  have front : (Cursor.ofText text).At text [] := ⟨rfl, rfl, rfl⟩
  refine List.forall_mem_cons.2 ⟨.flat ?_ ?_, tokens (.ofText text) false front⟩
  · rintro _ _ ⟨⟩
  · rintro _ ⟨⟩

/-- **Quoted strings are those of JSON.**  A spelling of a string is one token, the literal that is
written for it among them; and a token whose text does not start with three quotes stands on such a
spelling. -/
theorem Token.quoted_ofText (syn : DocumentSyntax) :
    (∀ (s : String) (piece : List Char), JsonValue.WritesString s piece →
      (Token.ofText syn piece).map Placed.kind = [.start, .value (.string s), .stop])
    ∧ (∀ s : String, JsonValue.WritesString s (Text.quote s).toList)
    ∧ ∀ (text : List Char), ∀ t ∈ Token.ofText syn text, ∀ u, Inside u t →
      ∀ s, u.kind = .value (.string s) → ¬ Text.rawQuotes <+: u.span.slice text →
        JsonValue.WritesString s (u.span.slice text) := by
  refine ⟨fun s piece h => ?_, JsonValue.writesString_quote, ?_⟩
  · have passes : Passes (syn != .json) false (piece ++ []) [.value (.string s)] true [] :=
      JsonValue.passes_string h (by rintro ⟨⟩)
    rw [List.append_nil] at passes
    exact passes.kinds_ofText rfl
  · intro text t mem u inside s kind front
    exact (spells_ofText syn text t mem u inside s kind).writesString front

/-- A grinning face as two surrogates, in digits of either case. -/
theorem Token.quoted_ofText_example :
    JsonValue.WritesString "😀" "\"\\uD83d\\uDe00\"".toList
      ∧ (Token.ofText .json "\"\\uD83d\\uDe00\"".toList).map Placed.kind
        = [.start, .value (.string "😀"), .stop] := by
  have lead : JsonValue.WritesUnit (0xD800 + 0x3D) ['D', '8', '3', 'd'] :=
    .mk (x := 13) (y := 8) (z := 3) (w := 13) (by decide) (by decide) (by decide) (by decide)
  have trail : JsonValue.WritesUnit (0xDC00 + 0x200) ['D', 'e', '0', '0'] :=
    .mk (x := 13) (y := 14) (z := 0) (w := 0) (by decide) (by decide) (by decide) (by decide)
  have face : JsonValue.WritesString "😀" "\"\\uD83d\\uDe00\"".toList :=
    @JsonValue.WritesString.mk "😀" "\\uD83d\\uDe00".toList
      (@JsonValue.WritesText.cons '😀' [] _ [] (.pair (by decide) (by decide) (by decide) lead trail)
        .nil)
  exact ⟨face, (quoted_ofText .json).1 _ _ face⟩

/-- **Raw strings are as they stand.**  A text of which three quotes in a row come at the end, if at
all, is one token between three quotes each; and a token whose text starts with three quotes holds
what stands between them and the last three. -/
theorem Token.raw_ofText (syn : DocumentSyntax) :
    (∀ s : String, Text.IsRaw s.toList →
      (Token.ofText syn (Text.rawQuotes ++ s.toList ++ Text.rawQuotes)).map Placed.kind
        = [.start, .value (.string s), .stop])
    ∧ ∀ (text : List Char), ∀ t ∈ Token.ofText syn text, ∀ u, Inside u t →
      ∀ s, u.kind = .value (.string s) → Text.rawQuotes <+: u.span.slice text →
        u.span.slice text = Text.rawQuotes ++ s.toList ++ Text.rawQuotes := by
  constructor
  · intro s isRaw
    have string : scanString ('"' :: '"' :: (s.toList ++ Text.rawQuotes))
        = (.ok (.value (.string s)), []) := by
      have raw : scanRaw [] (s.toList ++ Text.rawQuotes ++ []) = (.ok ([].reverse ++ s.toList), []) :=
        scanRaw_of_isRaw [] isRaw (by rintro ⟨⟩)
      rw [List.append_nil, List.reverse_nil, List.nil_append] at raw
      have opens : scanQuoted [] ('"' :: '"' :: (s.toList ++ Text.rawQuotes))
          = (.ok [], '"' :: (s.toList ++ Text.rawQuotes)) := by
        rw [scanQuoted, if_pos rfl]
        rfl
      unfold scanString
      simp only [opens, raw, String.ofList_toList]
    have scan : scanFlat (syn != .json) '"' ('"' :: '"' :: (s.toList ++ Text.rawQuotes))
        = (.value (.string s), []) := by
      unfold scanFlat
      rw [opensComment_cons (by decide) (by decide)]
      simp only [Bool.false_eq_true, if_false, punctuation?, if_true, string]
      rfl
    exact (Passes.front (by decide) (by decide) scan).kinds_ofText rfl
  · intro text t mem u inside s kind front
    exact (spells_ofText syn text t mem u inside s kind).eq_raw front

/-- Quotes at either end, and a backslash between them. -/
theorem Token.raw_ofText_example :
    Text.IsRaw "\"\\\"\"".toList
      ∧ (Token.ofText .conf (Text.rawQuotes ++ "\"\\\"\"".toList ++ Text.rawQuotes)).map Placed.kind
        = [.start, .value (.string "\"\\\"\""), .stop] := by
  have isRaw : Text.IsRaw "\"\\\"\"".toList := by
    intro front back whole
    match front, whole with
    | [], whole => simp [Text.rawQuotes] at whole
    | [_], whole => simp [Text.rawQuotes] at whole
    | _ :: _ :: front, whole =>
      have := congrArg List.length whole
      simp [Text.rawQuotes] at this
      omega
  exact ⟨isRaw, (raw_ofText .conf).1 _ isRaw⟩

end Hocon
