import Hocon.Proofs.Passing
import Hocon.Proofs.Spelling

/-!
# How JSON is written

The grammar of RFC 8259 over the characters of a text: `JsonValue.Writes j cs` says that `cs` is
one way to write the value `j`.  White space is free wherever the grammar has it, and every
character of a string may be written in any of its forms.  Numbers and strings are also followed
through the scanner here, in either syntax: what is written is the one token that it should be.
-/

namespace Hocon

open Scan

/-- A JSON value.  Of a number it keeps the literal, because documents keep that, too. -/
inductive JsonValue where
  | null
  | bool (b : Bool)
  | number (literal : List Char)
  | string (text : String)
  | array (items : List JsonValue)
  | object (fields : List (String × JsonValue))

namespace JsonValue

/-! ### White space -/

/-- White space between tokens: `ws`. -/
def isSpace (c : Char) : Bool := c == ' ' || c == '\t' || c == '\n' || c == '\r'

/-! ### Numbers -/

/-- A zero, or digits that do not start with one: `int`. -/
inductive IsInt : List Char → Prop
  | zero : IsInt ['0']
  | digits {d : Char} {ds : List Char} (first : d.isDigit = true) (positive : d ≠ '0')
      (more : ds.all Char.isDigit = true) : IsInt (d :: ds)

/-- Nothing, or a point and digits: `[ frac ]`. -/
inductive IsFraction : List Char → Prop
  | none : IsFraction []
  | places {d : Char} {ds : List Char} (digits : (d :: ds).all Char.isDigit = true) :
      IsFraction ('.' :: d :: ds)

/-- Nothing, or a letter, perhaps a sign, and digits: `[ exp ]`. -/
inductive IsExponent : List Char → Prop
  | none : IsExponent []
  | power {e d : Char} {sign ds : List Char} (letter : e = 'e' ∨ e = 'E')
      (plusMinus : sign = [] ∨ sign = ['+'] ∨ sign = ['-'])
      (digits : (d :: ds).all Char.isDigit = true) : IsExponent (e :: (sign ++ d :: ds))

/-- `number = [ minus ] int [ frac ] [ exp ]` -/
inductive IsNumber : List Char → Prop
  | mk {minus whole fraction exponent : List Char} (sign : minus = [] ∨ minus = ['-'])
      (int : IsInt whole) (frac : IsFraction fraction) (exp : IsExponent exponent) :
      IsNumber (minus ++ (whole ++ (fraction ++ exponent)))

/-- Whether a literal has a fraction or an exponent. -/
def hasPlaces (literal : List Char) : Bool :=
  literal.any fun c => c == '.' || c == 'e' || c == 'E'

/-- The integer that a literal of digits stands for, a minus perhaps in front. -/
def integer : List Char → Int
  | '-' :: digits => -(ofDigits digits : Int)
  | digits => ofDigits digits

/-! ### Strings -/

/-- A digit in base sixteen, in either case. -/
def IsHexDigit (c : Char) (n : Nat) : Prop :=
  n < 16 ∧ (c = Nat.digitChar n ∨ c = (Nat.digitChar n).toUpper)

instance (c : Char) (n : Nat) : Decidable (IsHexDigit c n) := inferInstanceAs (Decidable (_ ∧ _))

/-- Four digits in base sixteen, for a code unit. -/
inductive WritesUnit : Nat → List Char → Prop
  | mk {a b c d : Char} {x y z w : Nat} (ha : IsHexDigit a x) (hb : IsHexDigit b y)
      (hc : IsHexDigit c z) (hd : IsHexDigit d w) :
      WritesUnit (((x * 16 + y) * 16 + z) * 16 + w) [a, b, c, d]

/-- The letters of the short escapes, each with the character it stands for. -/
def shortEscapes : List (Char × Char) :=
  [('"', '"'), ('\\', '\\'), ('/', '/'), ('b', '\x08'), ('f', '\x0c'), ('n', '\n'), ('r', '\r'),
    ('t', '\t')]

/-- A character inside a string: `char`. -/
inductive WritesChar : Char → List Char → Prop
  | raw {c : Char} (visible : 0x20 ≤ c.toNat) (quote : c ≠ '"') (backslash : c ≠ '\\') :
      WritesChar c [c]
  | short {e c : Char} (escape : (e, c) ∈ shortEscapes) : WritesChar c ['\\', e]
  | unit {c : Char} {digits : List Char} (code : WritesUnit c.toNat digits) :
      WritesChar c ('\\' :: 'u' :: digits)
  /-- A character beyond the first plane, as a leading surrogate and a trailing one. -/
  | pair {c : Char} {high low : Nat} {lead trail : List Char} (ten : high < 0x400)
      (ten' : low < 0x400) (code : c.toNat = 0x10000 + high * 0x400 + low)
      (hlead : WritesUnit (0xD800 + high) lead) (htrail : WritesUnit (0xDC00 + low) trail) :
      WritesChar c ('\\' :: 'u' :: (lead ++ '\\' :: 'u' :: trail))

/-- What stands between the quotes of a string. -/
inductive WritesText : List Char → List Char → Prop
  | nil : WritesText [] []
  | cons {c : Char} {cs piece text : List Char} (head : WritesChar c piece)
      (tail : WritesText cs text) : WritesText (c :: cs) (piece ++ text)

/-- `string = quotation-mark *char quotation-mark` -/
inductive WritesString : String → List Char → Prop
  | mk {s : String} {text : List Char} (h : WritesText s.toList text) :
      WritesString s ('"' :: (text ++ ['"']))

/-! ### Values -/

mutual

/-- The text of a value, without white space around it. -/
inductive Writes : JsonValue → List Char → Prop
  | null : Writes null "null".toList
  | false : Writes (bool false) "false".toList
  | true : Writes (bool true) "true".toList
  | number {literal : List Char} (h : IsNumber literal) : Writes (number literal) literal
  | string {s : String} {text : List Char} (h : WritesString s text) : Writes (string s) text
  | emptyArray {ws : List Char} (space : ws.all isSpace = true) :
      Writes (array []) ('[' :: (ws ++ [']']))
  | array {js : List JsonValue} {text : List Char} (items : WritesItems js text) :
      Writes (array js) ('[' :: (text ++ [']']))
  | emptyObject {ws : List Char} (space : ws.all isSpace = true) :
      Writes (object []) ('\x7b' :: (ws ++ ['\x7d']))
  | object {fs : List (String × JsonValue)} {text : List Char} (fields : WritesFields fs text) :
      Writes (object fs) ('\x7b' :: (text ++ ['\x7d']))

/-- One item or more, with commas between them. -/
inductive WritesItems : List JsonValue → List Char → Prop
  | last {j : JsonValue} {before text after : List Char} (space : before.all isSpace = true)
      (value : Writes j text) (space' : after.all isSpace = true) :
      WritesItems [j] (before ++ (text ++ after))
  | cons {j : JsonValue} {js : List JsonValue} {before text after more : List Char}
      (space : before.all isSpace = true) (value : Writes j text)
      (space' : after.all isSpace = true) (items : WritesItems js more) :
      WritesItems (j :: js) (before ++ (text ++ (after ++ ',' :: more)))

/-- A key, a colon and a value: `member`, with the white space around it. -/
inductive WritesField : String × JsonValue → List Char → Prop
  | mk {k : String} {j : JsonValue} {before key beforeColon afterColon text after : List Char}
      (space : before.all isSpace = true) (hkey : WritesString k key)
      (spaceColon : beforeColon.all isSpace = true) (spaceValue : afterColon.all isSpace = true)
      (value : Writes j text) (spaceEnd : after.all isSpace = true) :
      WritesField (k, j) (before ++ (key ++ (beforeColon ++ ':' :: (afterColon ++ (text ++ after)))))

/-- One field or more, with commas between them. -/
inductive WritesFields : List (String × JsonValue) → List Char → Prop
  | last {f : String × JsonValue} {text : List Char} (field : WritesField f text) :
      WritesFields [f] text
  | cons {f : String × JsonValue} {fs : List (String × JsonValue)} {text more : List Char}
      (field : WritesField f text) (fields : WritesFields fs more) :
      WritesFields (f :: fs) (text ++ ',' :: more)

end

/-- `JSON-text = ws value ws` -/
inductive WritesDocument : JsonValue → List Char → Prop
  | mk {j : JsonValue} {before text after : List Char} (space : before.all isSpace = true)
      (value : Writes j text) (space' : after.all isSpace = true) :
      WritesDocument j (before ++ (text ++ after))

/-! ### Scanning strings -/

theorem hexValue?_eq {c : Char} {n : Nat} (h : IsHexDigit c n) : hexValue? c = some n := by
  have all : ∀ n < 16, hexValue? (Nat.digitChar n) = some n
      ∧ hexValue? (Nat.digitChar n).toUpper = some n := by decide +kernel
  obtain ⟨small, rfl | rfl⟩ := h
  · exact (all n small).1
  · exact (all n small).2

theorem scanHex_unit {unit : Nat} {digits : List Char} (h : WritesUnit unit digits)
    (rest : List Char) : scanHex (digits ++ rest) = (.ok unit, rest) := by
  obtain ⟨ha, hb, hc, hd⟩ := h
  simp only [List.cons_append, List.nil_append, scanHex, hexUnit?, hexValue?_eq ha, hexValue?_eq hb,
    hexValue?_eq hc, hexValue?_eq hd]
  rfl

/-- Every form of a character is read as the character. -/
theorem scanEscape_char {c : Char} {piece : List Char} (h : WritesChar c ('\\' :: piece))
    (rest : List Char) : scanEscape (piece ++ rest) = (.ok c, rest) := by
  cases h with
  | raw _ _ backslash => exact absurd rfl backslash
  | short escape =>
    simp only [shortEscapes, List.mem_cons, Prod.mk.injEq, List.not_mem_nil, or_false] at escape
    obtain ⟨rfl, rfl⟩ | ⟨rfl, rfl⟩ | ⟨rfl, rfl⟩ | ⟨rfl, rfl⟩ | ⟨rfl, rfl⟩ | ⟨rfl, rfl⟩ | ⟨rfl, rfl⟩
      | ⟨rfl, rfl⟩ := escape <;> rfl
  | @unit _ digits code =>
    show scanUnicode (digits ++ rest) = _
    -- no character has the code of a surrogate
    have single : ¬ (0xD800 ≤ c.toNat ∧ c.toNat < 0xDC00) := by
      have valid : c.toNat.isValidChar := c.valid
      obtain low | high := valid <;> omega
    rw [scanUnicode, scanHex_unit code]
    simp only [if_neg single, charOfUnit, charOfCode?_toNat]
  | @pair _ high low lead trail ten ten' code hlead htrail =>
    show scanUnicode ((lead ++ '\\' :: 'u' :: trail) ++ rest) = _
    have leading : 0xD800 ≤ 0xD800 + high ∧ 0xD800 + high < 0xDC00 := by omega
    have trailing : 0xDC00 ≤ 0xDC00 + low ∧ 0xDC00 + low < 0xE000 := by omega
    have same : 0x10000 + (0xD800 + high - 0xD800) * 1024 + (0xDC00 + low - 0xDC00) = c.toNat := by
      omega
    rw [List.append_assoc, scanUnicode, scanHex_unit hlead]
    simp only [if_pos leading, List.cons_append, scanHex_unit htrail, if_pos trailing, same,
      charOfCode?_toNat]

theorem scanQuoted_char {c : Char} {piece : List Char} (h : WritesChar c piece)
    (taken rest : List Char) : scanQuoted taken (piece ++ rest) = scanQuoted (c :: taken) rest := by
  have escaped {tail : List Char} (h : WritesChar c ('\\' :: tail)) :
      scanQuoted taken ('\\' :: tail ++ rest) = scanQuoted (c :: taken) rest := by
    rw [List.cons_append, scanQuoted, if_neg (by decide), if_pos rfl]
    simp only [scanEscape_char h]
  cases h with
  | raw visible quote backslash =>
    rw [List.singleton_append, scanQuoted, if_neg quote, if_neg backslash,
      if_neg (Nat.not_lt.2 visible)]
  | short escape => exact escaped (.short escape)
  | unit code => exact escaped (.unit code)
  | pair ten ten' code hlead htrail => exact escaped (.pair ten ten' code hlead htrail)

theorem scanQuoted_text {cs text : List Char} (h : WritesText cs text) (taken rest : List Char) :
    scanQuoted taken (text ++ '"' :: rest) = (.ok (taken.reverse ++ cs), rest) := by
  induction h generalizing taken with
  | nil => rw [List.nil_append, scanQuoted, if_pos rfl, List.append_nil]
  | cons head _ ih =>
    rw [List.append_assoc, scanQuoted_char head, ih, List.reverse_cons, List.append_assoc]
    rfl

/-- **A string is one token**, whose content is what was written. -/
theorem passes_string {comments after : Bool} {s : String} {text rest : List Char}
    (h : WritesString s text) (noQuote : rest.head? ≠ some '"') :
    Passes comments after (text ++ rest) [.value (.string s)] true rest := by
  cases h with
  | @mk text h =>
  have string : scanString (text ++ '"' :: rest) = (.ok (.value (.string s)), rest) := by
    unfold scanString
    rw [scanQuoted_text h]
    simp only [List.reverse_nil, List.nil_append]
    split
    · next eq =>
      cases (Prod.ext_iff.1 eq).2
      exact absurd rfl noQuote
    · simp only [String.ofList_toList]
  have scan : scanFlat comments '"' (text ++ '"' :: rest) = (.value (.string s), rest) := by
    unfold scanFlat
    rw [opensComment_cons (by decide) (by decide)]
    simp only [Bool.false_eq_true, if_false, punctuation?, if_true, string]
    rfl
  rw [List.cons_append, List.append_assoc]
  exact .front (by decide) (by decide) scan

/-! ### Scanning numbers -/

theorem continuesNumber_of_isDigit {c : Char} (h : c.isDigit = true) :
    continuesNumber c = true := by
  simp only [continuesNumber, h, Bool.true_or]

theorem all_continuesNumber {ds : List Char} (h : ds.all Char.isDigit = true) :
    ds.all continuesNumber = true :=
  List.all_eq_true.2 fun c hc => continuesNumber_of_isDigit (List.all_eq_true.1 h c hc)

theorem IsInt.digits_cons {whole : List Char} (h : IsInt whole) :
    ∃ d ds, whole = d :: ds ∧ (d :: ds).all Char.isDigit = true := by
  cases h with
  | zero => exact ⟨'0', [], rfl, by decide⟩
  | digits first _ more => exact ⟨_, _, rfl, by rw [List.all_cons, first, more]; rfl⟩

/-- A number starts like one, and all that follows goes on with it. -/
theorem IsNumber.continues {literal : List Char} (h : IsNumber literal) :
    ∃ first cs, literal = first :: cs ∧ startsNumber first = true
      ∧ cs.all continuesNumber = true := by
  obtain ⟨sign, int, frac, exp⟩ := h
  rename_i minus whole fraction exponent
  have fraction_all : fraction.all continuesNumber = true := by
    cases frac with
    | none => rfl
    | places digits =>
      rw [List.all_cons, all_continuesNumber digits]
      rfl
  have exponent_all : exponent.all continuesNumber = true := by
    cases exp with
    | none => rfl
    | power letter plusMinus digits =>
      rw [List.all_cons, List.all_append, all_continuesNumber digits]
      obtain rfl | rfl := letter <;> obtain rfl | rfl | rfl := plusMinus <;> rfl
  obtain ⟨d, ds, rfl, digits⟩ := int.digits_cons
  obtain ⟨digit, more⟩ := (Bool.and_eq_true _ _).mp (List.all_cons ▸ digits)
  have behind : (ds ++ (fraction ++ exponent)).all continuesNumber = true := by
    rw [List.all_append, List.all_append, all_continuesNumber more, fraction_all, exponent_all]
    rfl
  obtain rfl | rfl := sign
  · exact ⟨d, _, rfl, by rw [startsNumber, digit]; rfl, behind⟩
  · refine ⟨'-', _, rfl, by decide, ?_⟩
    show (d :: (ds ++ (fraction ++ exponent))).all continuesNumber = true
    rw [List.all_cons, continuesNumber_of_isDigit digit, behind]
    rfl

theorem splitSign_digits {sign : List Char} {d : Char}
    (plusMinus : sign = [] ∨ sign = ['+'] ∨ sign = ['-']) (digit : d.isDigit = true)
    (ds : List Char) : ∃ negative, splitSign (sign ++ d :: ds) = (negative, d :: ds) := by
  obtain rfl | rfl | rfl := plusMinus
  · refine ⟨false, ?_⟩
    rw [List.nil_append]
    unfold splitSign
    split
    · next h => cases h; exact absurd digit (by decide)
    · next h => cases h; exact absurd digit (by decide)
    · rfl
  · exact ⟨false, rfl⟩
  · exact ⟨true, rfl⟩

theorem exists_readExponent? {exponent : List Char} (h : IsExponent exponent) :
    ∃ n, Double.readExponent? exponent = some n := by
  cases h with
  | none => exact ⟨0, rfl⟩
  | @power _ _ _ ds letter plusMinus digits =>
    have digit := ((Bool.and_eq_true _ _).mp (List.all_cons ▸ digits)).1
    obtain ⟨negative, apart⟩ := splitSign_digits plusMinus digit ds
    have marks : ∀ e, e = 'e' ∨ e = 'E' → (e == 'e' || e == 'E') = true := by
      rintro e (rfl | rfl) <;> rfl
    simp only [Double.readExponent?, marks _ letter, if_true, apart, List.isEmpty_cons, digits,
      Bool.not_true, Bool.or_false, Bool.false_eq_true, if_false]
    exact ⟨_, rfl⟩

theorem IsExponent.head?_not_digit {exponent : List Char} (h : IsExponent exponent) :
    ∀ b ∈ exponent.head?, Char.isDigit b = false := by
  intro b hb
  cases h with
  | none => cases hb
  | power letter =>
    cases hb
    obtain rfl | rfl := letter <;> decide

/-- The reader of a decimal finds the digits, the fraction and the exponent where they stand. -/
theorem exists_readDecimal? (negative : Bool) {d : Char} {ds fraction exponent : List Char}
    (digits : (d :: ds).all Char.isDigit = true) (frac : IsFraction fraction)
    (exp : IsExponent exponent) :
    ∃ e, Double.readDecimal? negative (d :: ds ++ (fraction ++ exponent)) = some e := by
  obtain ⟨n, power⟩ := exists_readExponent? exp
  -- the digits in front end where the fraction or the exponent starts
  have ends : ∀ b ∈ (fraction ++ exponent).head?, Char.isDigit b = false := by
    cases frac with
    | none => exact exp.head?_not_digit
    | places =>
      rintro b ⟨⟩
      decide
  obtain ⟨take, drop⟩ := takeWhile_append_of_all digits ends
  unfold Double.readDecimal?
  rw [take, drop]
  cases frac with
  | places places =>
    obtain ⟨take', drop'⟩ := takeWhile_append_of_all places exp.head?_not_digit
    simp only [List.cons_append] at take' drop' ⊢
    simp only [take', drop', List.isEmpty_cons, Bool.false_and, Bool.false_eq_true, if_false,
      power]
    exact ⟨_, rfl⟩
  | none =>
    cases exp with
    | none =>
      simp only [List.append_nil, List.isEmpty_cons, Bool.false_and, Bool.false_eq_true, if_false,
        power]
      exact ⟨_, rfl⟩
    | power letter =>
      simp only [List.isEmpty_cons, Bool.false_and, Bool.false_eq_true, if_false]
      obtain rfl | rfl := letter <;> exact ⟨_, congrArg (Option.map _) power⟩

/-- **Every number is a double.** -/
theorem IsNumber.exists_double {literal : List Char} (h : IsNumber literal) :
    ∃ d, Double.ofText? literal = some d := by
  obtain ⟨sign, int, frac, exp⟩ := h
  rename_i minus whole fraction exponent
  obtain ⟨d, ds, rfl, digits⟩ := int.digits_cons
  have digit := ((Bool.and_eq_true _ _).mp (List.all_cons ▸ digits)).1
  obtain ⟨negative, apart⟩ :=
    splitSign_digits (sign.imp_right .inr) digit (ds ++ (fraction ++ exponent))
  obtain ⟨e, decimal⟩ := exists_readDecimal? negative digits frac exp
  rw [List.cons_append] at decimal
  refine ⟨e, ?_⟩
  rw [Double.ofText?]
  simp only [List.cons_append, apart, decimal]

/-- A literal without fraction and exponent is digits, a minus perhaps in front. -/
theorem IsNumber.integer_form {literal : List Char} (h : IsNumber literal)
    (plain : hasPlaces literal = false) :
    ∃ d ds, (d :: ds).all Char.isDigit = true ∧
      (literal = d :: ds ∨ literal = '-' :: d :: ds) := by
  obtain ⟨sign, int, frac, exp⟩ := h
  simp only [hasPlaces, List.any_append, Bool.or_eq_false_iff] at plain
  obtain ⟨d, ds, rfl, digits⟩ := int.digits_cons
  cases frac with
  | places => simp at plain
  | none =>
    cases exp with
    | power letter =>
      obtain rfl | rfl := letter <;> simp at plain
    | none =>
      refine ⟨d, ds, digits, ?_⟩
      obtain rfl | rfl := sign
      · exact .inl (List.append_nil _)
      · exact .inr (congrArg (List.cons '-') (List.append_nil (d :: ds)))

/-- An integer is read as it is, if it lies between the bounds. -/
theorem readWhole?_integer {literal : List Char} (lo hi : Int) (h : IsNumber literal)
    (plain : hasPlaces literal = false) : readWhole? lo hi literal =
      if lo ≤ integer literal ∧ integer literal ≤ hi then some (integer literal) else none := by
  obtain ⟨d, ds, digits, rfl | rfl⟩ := h.integer_form plain
  · have digit := ((Bool.and_eq_true _ _).mp (List.all_cons ▸ digits)).1
    have noMinus : integer (d :: ds) = (ofDigits (d :: ds) : Int) := by
      unfold integer
      split
      · next h => cases h; exact absurd digit (by decide)
      · rfl
    have apart : splitSign (d :: ds) = (false, d :: ds) := by
      unfold splitSign
      split
      · next h => cases h; exact absurd digit (by decide)
      · next h => cases h; exact absurd digit (by decide)
      · rfl
    rw [noMinus]
    simp [readWhole?, apart, digits]
  · have minus : integer ('-' :: d :: ds) = -(ofDigits (d :: ds) : Int) := rfl
    rw [minus]
    simp [readWhole?, splitSign, digits]

/-- What a number's token holds: an integer without fraction and exponent is whole. -/
inductive IsLiteral (text : List Char) : Literal → Prop
  | whole {n : Int64} (plain : hasPlaces text = false) (value : n.toInt = integer text) :
      IsLiteral text (.whole n (String.ofList text))
  | double {d : Double} (places : hasPlaces text = true) (value : Double.ofText? text = some d) :
      IsLiteral text (.double d (String.ofList text))

/-- The number is an integer of 64 bits, or has a fraction or an exponent. -/
def Fits (text : List Char) : Prop :=
  hasPlaces text = true ∨ Int64.minValue.toInt ≤ integer text ∧ integer text ≤ Int64.maxValue.toInt

theorem numberLiteral?_eq (text : List Char) : numberLiteral? text =
    if hasPlaces text then (Double.ofText? text).map fun d => .double d (String.ofList text)
    else (readInt64? text).map fun n => .whole n (String.ofList text) := rfl

theorem IsNumber.exists_literal {text : List Char} (h : IsNumber text) (fits : Fits text) :
    ∃ literal, numberLiteral? text = some literal ∧ IsLiteral text literal := by
  cases places : hasPlaces text with
  | true =>
    obtain ⟨d, value⟩ := h.exists_double
    refine ⟨.double d (String.ofList text), ?_, .double places value⟩
    rw [numberLiteral?_eq, if_pos places, value]
    rfl
  | false =>
    obtain ⟨low, high⟩ := fits.resolve_left (by rw [places]; exact Bool.false_ne_true)
    have value : (Int64.ofInt (integer text)).toInt = integer text :=
      Int64.toInt_ofInt_of_le low (Int.lt_of_le_sub_one high)
    refine ⟨.whole (.ofInt (integer text)) (String.ofList text), ?_, .whole places value⟩
    rw [numberLiteral?_eq, places, if_neg Bool.false_ne_true, readInt64?,
      readWhole?_integer _ _ h places, if_pos ⟨low, high⟩]
    rfl

/-- **A number is one token**, which keeps the literal. -/
theorem passes_number {comments after : Bool} {text rest : List Char} {literal : Literal}
    (h : IsNumber text) (value : numberLiteral? text = some literal)
    (ends : ∀ c ∈ rest.head?, continuesNumber c = false) :
    Passes comments after (text ++ rest) [.value literal] true rest := by
  obtain ⟨first, cs, rfl, starts, more⟩ := h.continues
  have solid : Cursor.isGap first = false := by
    rw [Cursor.isGap, Text.isBlank_of_startsNumber starts, Bool.and_false]
  have flat : first ≠ '$' := by
    rintro rfl
    exact absurd starts (by decide)
  exact .front solid flat (scanFlat_number starts more value ends)

/-! ### Scanning white space -/

theorem isGap_of_isSpace {c : Char} (h : isSpace c = true) (line : c ≠ '\n') :
    Cursor.isGap c = true := by
  simp only [isSpace, Bool.or_eq_true, beq_iff_eq] at h
  obtain ((rfl | rfl) | rfl) | rfl := h
  · decide
  · decide
  · exact absurd rfl line
  · decide

/-- White space in front of a token comes to its line ends, unless it parts two values. -/
theorem passes_space {comments after after' : Bool} {ws cs rest : List Char} {kind : TokenKind}
    {kinds : List TokenKind} (space : ws.all isSpace = true)
    (h : Passes comments after cs (kind :: kinds) after' rest)
    (apart : after = true → kind.isSimpleValue = false) :
    Passes comments after (ws ++ cs) (newlines (ws.count '\n') ++ kind :: kinds) after' rest := by
  induction ws generalizing after with
  | nil => exact h
  | cons c ws ih =>
    obtain ⟨hc, space⟩ := (Bool.and_eq_true _ _).mp (List.all_cons ▸ space)
    by_cases line : c = '\n'
    · subst line
      rw [List.count_cons_self, newlines, List.replicate_succ]
      exact (Passes.sign rfl).trans (ih space h.of_after nofun)
    · have more := ih space h apart
      rw [List.count_cons_of_ne line]
      have blank : [c].all Cursor.isGap = true := by
        rw [List.all_cons, isGap_of_isSpace hc line]
        rfl
      cases lines : ws.count '\n' with
      | zero =>
        rw [lines] at more
        exact more.blanks apart blank
      | succ n =>
        rw [lines] at more
        exact more.blanks (fun _ => rfl) blank

/-- A sign with white space in front of it. -/
theorem passes_sign {comments after : Bool} {ws rest : List Char} {c : Char} {kind : TokenKind}
    (space : ws.all isSpace = true) (h : punctuation? c = some kind)
    (noValue : kind.isSimpleValue = false) :
    Passes comments after (ws ++ c :: rest) (newlines (ws.count '\n') ++ [kind]) false rest :=
  passes_space space (.sign h) fun _ => noValue

end JsonValue

end Hocon
