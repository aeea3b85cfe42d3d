import Mathlib.Data.List.TakeWhile
import Hocon.Proofs.Literals

/-!
# What a token depends on

No scanner looks far beyond what it reads.  A number or a bare text ends at any blank or comma; a
string ends by itself, up to a quote behind it; a comment ends with its line.  So a token that was
read in front of something is read in front of something else, if that is told apart from it as
well (`Scan.scanFlat_swap`).
-/

namespace Hocon

open Text

namespace Scan

/-! ### Ends of tokens -/

/-- Nothing is behind, or the first of it is a blank or a comma. -/
abbrev Stops (tail : List Char) : Prop := ∀ b ∈ tail.head?, isBlank b = true ∨ b = ','

variable {cs u v tail tail' rest : List Char}

theorem stops_nil : Stops [] := by
  rintro b ⟨⟩

/-- No number goes on with a blank. -/
theorem continuesNumber_of_isBlank {b : Char} (h : isBlank b = true) : continuesNumber b = false := by
  have apart : ∀ d, continuesNumber d = true → isBlank d = false := by
    intro d hd
    simp only [continuesNumber, Bool.or_eq_true, beq_iff_eq] at hd
    obtain ((((digit | rfl) | rfl) | rfl) | rfl) | rfl := hd
    · exact isBlank_of_startsNumber (by rw [startsNumber, digit]; rfl)
    all_goals decide
  refine Bool.eq_false_iff.2 fun continues => ?_
  rw [apart b continues] at h
  cases h

theorem Stops.ne {d : Char} (h : Stops tail) (blank : isBlank d = false) (comma : d ≠ ',') :
    tail.head? ≠ some d := by
  intro front
  obtain isBlank | rfl := h d front
  · rw [blank] at isBlank
    cases isBlank
  · exact comma rfl

/-! ### Comments, bare text and numbers -/

theorem opensComment_append (comments : Bool) (c : Char) (stops : Stops tail) :
    opensComment comments (c :: (cs ++ tail)) = opensComment comments (c :: cs) := by
  cases cs with
  | cons d cs =>
    rw [List.cons_append]
    unfold opensComment
    split
    · next h => cases h; rfl
    · next h => cases h; rfl
    · next hash slashes =>
      split
      · next h => cases h; exact absurd rfl (hash _)
      · next h => cases h; exact absurd rfl (slashes _)
      · rfl
  | nil =>
    have slash : tail.head? ≠ some '/' := stops.ne (by decide) (by decide)
    rw [List.nil_append]
    unfold opensComment
    split
    · next h => cases h; rfl
    · next h =>
      cases h
      exact absurd rfl slash
    · next hash _ =>
      split
      · next h => cases h; exact absurd rfl (hash _)
      · next h => cases h
      · rfl

/-- A run of characters that ended in front of something ends in front of something else, if that
ends it. -/
theorem takeWhile_swap {p : Char → Bool} (drop : (u ++ tail).dropWhile p = v ++ tail)
    (ends : (∀ b ∈ tail.head?, p b = false) → ∀ b ∈ tail'.head?, p b = false) :
    (u ++ tail').takeWhile p = (u ++ tail).takeWhile p
      ∧ (u ++ tail').dropWhile p = v ++ tail' := by
  induction u with
  | nil =>
    have drop : tail.dropWhile p = v ++ tail := drop
    have le := (List.dropWhile_suffix (l := tail) p).length_le
    rw [drop, List.length_append] at le
    obtain rfl : v = [] := List.eq_nil_of_length_eq_zero (by omega)
    have stop : ∀ b ∈ tail.head?, p b = false := by
      intro b hb
      cases tail with
      | nil => cases hb
      | cons c tail =>
        cases hb
        refine Bool.eq_false_iff.2 fun holds => ?_
        rw [List.dropWhile_cons, if_pos holds] at drop
        have le := (List.dropWhile_suffix (l := tail) p).length_le
        rw [drop, List.nil_append, List.length_cons] at le
        omega
    obtain ⟨take, -⟩ := takeWhile_append_of_head [] stop
    obtain ⟨take', drop'⟩ := takeWhile_append_of_head [] (ends stop)
    exact ⟨take'.trans take.symm, drop'⟩
  | cons c u ih =>
    rw [List.cons_append, List.dropWhile_cons] at drop
    rw [List.cons_append, List.cons_append, List.takeWhile_cons, List.takeWhile_cons,
      List.dropWhile_cons]
    split
    · next holds =>
      rw [if_pos holds] at drop
      obtain ⟨take, drop'⟩ := ih drop
      exact ⟨congrArg (c :: ·) take, drop'⟩
    · next holds =>
      rw [if_neg holds, ← List.cons_append] at drop
      rw [← List.append_cancel_right drop]
      exact ⟨rfl, rfl⟩

/-- Nothing is behind, or the first of it ends the line. -/
abbrev EndsLine (tail : List Char) : Prop := ∀ b ∈ tail.head?, (b != '\n') = false

theorem scanComment_swap {text : List Char} (scan : scanComment (u ++ tail) = (text, v ++ tail))
    (line : EndsLine tail → EndsLine tail') : scanComment (u ++ tail') = (text, v ++ tail') := by
  have drop : (u ++ tail).dropWhile (· != '\n') = v ++ tail := congrArg Prod.snd scan
  obtain ⟨take, drop'⟩ := takeWhile_swap drop line
  refine Prod.ext ?_ drop'
  rw [← congrArg Prod.fst scan]
  show ((List.takeWhile _ _).reverse.dropWhile _).reverse = _
  rw [take]
  rfl

theorem scanBare_append (comments : Bool) (taken cs : List Char) (stops : Stops tail) :
    scanBare comments taken (cs ++ tail)
      = ((scanBare comments taken cs).1, (scanBare comments taken cs).2 ++ tail) := by
  induction cs generalizing taken with
  | nil =>
    cases tail with
    | nil => rfl
    | cons b tail =>
      show scanBare comments taken (b :: tail) = (.bare (String.ofList taken.reverse), b :: tail)
      rw [scanBare]
      obtain blank | rfl := stops b rfl
      · rw [blank, Bool.or_true, Bool.true_or, if_pos rfl]
      · rfl
  | cons c cs ih =>
    rw [List.cons_append, scanBare, scanBare, opensComment_append comments c stops]
    split
    · rfl
    · split
      · rfl
      · exact ih (c :: taken)

theorem scanNumber_append (first : Char) (stops : Stops tail) :
    scanNumber first (cs ++ tail) = ((scanNumber first cs).1, (scanNumber first cs).2 ++ tail) := by
  obtain ⟨take, drop⟩ := takeWhile_append_of_head (p := continuesNumber) cs fun b hb => by
    obtain blank | rfl := stops b hb
    · exact continuesNumber_of_isBlank blank
    · rfl
  rw [scanNumber, scanNumber, take, drop]
  split
  · rfl
  · split <;> rfl

/-! ### Strings and other tokens that end by themselves -/

/-- What was read does not depend on what is left. -/
def EndsAlone {α : Type} (f : List Char → Outcome α) (cs : List Char) (a : α) (rest : List Char) :
    Prop :=
  ∃ read, cs = read ++ rest ∧ ∀ s, f (read ++ s) = (.ok a, s)

theorem scanPlus_alone {kind : TokenKind} (scan : scanPlus cs = (.ok kind, rest)) :
    EndsAlone scanPlus cs kind rest := by
  unfold scanPlus at scan
  split at scan <;> cases scan
  exact ⟨['='], rfl, fun _ => rfl⟩

theorem scanQuoted_alone {taken content : List Char}
    (scan : scanQuoted taken cs = (.ok content, rest)) :
    EndsAlone (scanQuoted taken) cs content rest := by
  obtain ⟨text, written, rfl, rfl, writes⟩ := JsonValue.exists_writesText scan
  refine ⟨text ++ ['"'], by simp, fun s => ?_⟩
  rw [List.append_assoc]
  exact JsonValue.scanQuoted_text writes taken s

/-- A raw string ends in front of anything but a quote. -/
theorem scanRaw_alone {taken content : List Char} (scan : scanRaw taken cs = (.ok content, rest)) :
    ∃ read, cs = read ++ rest ∧ rest.head? ≠ some '"'
      ∧ ∀ s, s.head? ≠ some '"' → scanRaw taken (read ++ s) = (.ok content, s) := by
  obtain ⟨raw, isRaw, rfl, rfl, last⟩ := exists_isRaw scan
  exact ⟨_, rfl, last, fun s next => scanRaw_of_isRaw taken isRaw next⟩

theorem scanString_alone {kind : TokenKind} (scan : scanString cs = (.ok kind, rest)) :
    ∃ read, cs = read ++ rest ∧ ∀ s, (s.head? = some '"' → rest.head? = some '"') →
      scanString (read ++ s) = (.ok kind, s) := by
  unfold scanString at scan
  split at scan
  · next behind quoted =>
    obtain ⟨read, rfl, alone⟩ := scanQuoted_alone quoted
    -- two quotes at once, and then what three of them open
    rcases raw : scanRaw [] behind with ⟨e | content, left⟩ <;> rw [raw] at scan <;> cases scan
    obtain ⟨read', rfl, last, alone'⟩ := scanRaw_alone raw
    refine ⟨read ++ '"' :: read', by simp, fun s next => ?_⟩
    have next : s.head? ≠ some '"' := fun quote => last (next quote)
    unfold scanString
    rw [List.append_assoc, List.cons_append, alone]
    simp only [alone' s next]
  · next other =>
    rcases quoted : scanQuoted [] cs with ⟨e | content, left⟩ <;> rw [quoted] at scan <;> cases scan
    obtain ⟨read, rfl, alone⟩ := scanQuoted_alone quoted
    refine ⟨read, rfl, fun s next => ?_⟩
    unfold scanString
    rw [alone]
    split
    · next behind front =>
      obtain ⟨empty, rfl⟩ := Prod.ext_iff.1 front
      cases empty
      obtain ⟨rest', rfl⟩ : ∃ rest', rest = '"' :: rest' := List.head?_eq_some_iff.1 (next rfl)
      exact absurd quoted (other _)
    · rfl

/-! ### Any token -/

/-- What ends by itself is read in front of something else. -/
theorem EndsAlone.swap {α : Type} {f : List Char → Outcome α} {a : α}
    (h : EndsAlone f (u ++ tail) a (v ++ tail)) (tail' : List Char) :
    f (u ++ tail') = (.ok a, v ++ tail') := by
  obtain ⟨read, whole, alone⟩ := h
  rw [← List.append_assoc] at whole
  rw [List.append_cancel_right whole, List.append_assoc]
  exact alone _

theorem scanString_swap {kind : TokenKind} (scan : scanString (u ++ tail) = (.ok kind, v ++ tail))
    (quote : tail'.head? ≠ some '"') : scanString (u ++ tail') = (.ok kind, v ++ tail') := by
  obtain ⟨read, whole, alone⟩ := scanString_alone scan
  rw [← List.append_assoc] at whole
  rw [List.append_cancel_right whole, List.append_assoc]
  refine alone _ fun front => ?_
  cases v with
  | nil => exact absurd front quote
  | cons => exact front

/-- What was read as a token that is no problem. -/
theorem exists_ok_of_toKind {o : Outcome TokenKind} {kind : TokenKind}
    (scan : toKind o = (kind, rest)) (noProblem : ∀ p, kind ≠ .problem p) : o = (.ok kind, rest) := by
  rcases o with ⟨e | k, r⟩
  · cases scan
    exact absurd rfl (noProblem e)
  · cases scan
    rfl

/-- **A token is the same** in front of something else, if that ends it; a comment needs the end of
its line. -/
theorem scanFlat_swap {first : Char} {kind : TokenKind}
    (scan : scanFlat true first (u ++ tail) = (kind, v ++ tail)) (noProblem : ∀ p, kind ≠ .problem p)
    (stops : Stops tail) (stops' : Stops tail')
    (line : (∃ text slashes, kind = .comment text slashes) → EndsLine tail → EndsLine tail') :
    scanFlat true first (u ++ tail') = (kind, v ++ tail') := by
  unfold scanFlat at scan ⊢
  rw [opensComment_append true first stops] at scan
  rw [opensComment_append true first stops']
  split at scan
  · next opens =>
    rw [if_pos opens]
    unfold opensComment at opens
    split at opens
    · next h =>
      cases h
      obtain ⟨rfl, rest⟩ := Prod.mk.inj scan
      exact congrArg (fun r => (TokenKind.comment (String.ofList r.1) false, r.2))
        (scanComment_swap (Prod.ext rfl rest : scanComment (u ++ tail) = (_, v ++ tail))
          (line ⟨_, _, rfl⟩))
    · next u h =>
      cases h
      obtain ⟨rfl, rest⟩ := Prod.mk.inj scan
      exact congrArg (fun r => (TokenKind.comment (String.ofList r.1) true, r.2))
        (scanComment_swap (Prod.ext rfl rest : scanComment (u ++ tail) = (_, v ++ tail))
          (line ⟨_, _, rfl⟩))
    · cases opens
  · next closed =>
    rw [if_neg closed]
    cases hp : punctuation? first with
    | some sign =>
      rw [hp] at scan
      obtain ⟨rfl, rest⟩ := Prod.mk.inj scan
      rw [List.append_cancel_right rest]
    | none =>
      simp only [hp] at scan ⊢
      split at scan
      · next h =>
        rw [if_pos h, scanString_swap (exists_ok_of_toKind scan noProblem)
          (stops'.ne (by decide) (by decide))]
        rfl
      next h =>
      rw [if_neg h]
      split at scan
      · next h =>
        rw [if_pos h, (scanPlus_alone (exists_ok_of_toKind scan noProblem)).swap tail']
        rfl
      next h =>
      rw [if_neg h]
      split at scan
      · next h =>
        rw [if_pos h]
        have number := exists_ok_of_toKind scan noProblem
        rw [scanNumber_append first stops] at number
        rw [scanNumber_append first stops', (Prod.mk.inj number).1,
          List.append_cancel_right (Prod.mk.inj number).2]
        rfl
      next h =>
      rw [if_neg h]
      split at scan
      · exact absurd (congrArg Prod.fst scan).symm (noProblem _)
      next h =>
      rw [if_neg h]
      split at scan
      · exact absurd (congrArg Prod.fst scan).symm (noProblem _)
      next h =>
      rw [scanBare_append true _ _ stops] at scan
      rw [if_neg h, scanBare_append true _ _ stops', (Prod.mk.inj scan).1,
        List.append_cancel_right (Prod.mk.inj scan).2]

end Scan

end Hocon
