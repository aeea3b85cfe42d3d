import Mathlib.Data.List.Chain
import Mathlib.Data.List.TakeWhile
import Hocon.Proofs.Lexing

/-!
# No text is lost between tokens

The tokens of a text stand on it one behind the other.  Between two of them there is nothing but
blanks of one line, and between two values there is nothing at all, because such blanks are a
token themselves.  A token without quotes or escapes holds the very characters it stands on.
`Token.Lossless` says so of any text, whatever is wrong with it, and of the tokens inside
substitutions as well (`lossless_ofText`).

The lexer moves one cursor over the text.  That the cursor stands behind the characters it has
read, and counts their bytes and lines (`Cursor.At`), is the invariant that all else comes from.
-/

namespace Hocon

open Text

/-! ### Bytes -/

namespace Text

theorem byteLength_append (as bs : List Char) :
    byteLength (as ++ bs) = byteLength as + byteLength bs := by
  induction as with
  | nil => rw [List.nil_append, byteLength, Nat.zero_add]
  | cons a as ih => rw [List.cons_append, byteLength, byteLength, ih, Nat.add_assoc]

theorem byteLength_pos {cs : List Char} (h : cs ≠ []) : 0 < byteLength cs := by
  cases cs with
  | nil => exact absurd rfl h
  | cons c cs => exact Nat.add_pos_left c.utf8Size_pos _

theorem takeBytes_byteLength (front cs : List Char) :
    takeBytes (byteLength front) (front ++ cs) = front := by
  induction front with
  | nil =>
    cases cs with
    | nil => rfl
    | cons c cs => rw [byteLength, List.nil_append, takeBytes, if_pos c.utf8Size_pos]
  | cons c front ih =>
    rw [byteLength, List.cons_append, takeBytes, if_neg (by omega), Nat.add_sub_cancel_left, ih]

theorem dropBytes_byteLength (front cs : List Char) :
    dropBytes (byteLength front) (front ++ cs) = cs := by
  induction front with
  | nil =>
    cases cs with
    | nil => rfl
    | cons c cs => rfl
  | cons c front ih =>
    have positive := c.utf8Size_pos
    rw [byteLength, List.cons_append, dropBytes, if_neg (by omega), Nat.add_sub_cancel_left, ih]

/-- The place is that of a character of the text, or the end of it. -/
def IsBoundary (text : List Char) (place : Nat) : Prop :=
  ∃ front, front <+: text ∧ byteLength front = place

end Text

/-- The span of a piece of a text covers that piece. -/
theorem Span.slice_piece (front piece back : List Char) :
    Span.slice ⟨byteLength front, byteLength (front ++ piece)⟩ (front ++ (piece ++ back))
      = piece := by
  rw [slice, length, dropBytes_byteLength, byteLength_append, Nat.add_sub_cancel_left,
    takeBytes_byteLength]

/-! ### Tokens on a text -/

/-- What a token of this kind can stand on.  The ends of a text stand on none of it. -/
def TokenKind.Quotes (piece : List Char) : TokenKind → Prop
  | start => False
  | stop => False
  | newline => piece = ['\n']
  | bare text => piece = text.toList
  | value .null => piece = "null".toList
  | value (.bool b) => piece = (if b then "true" else "false").toList
  | value (.whole _ text) => piece = text.toList
  | value (.double _ text) => piece = text.toList
  | comment text slashes => ∃ returns,
      piece = (if slashes then "//" else "#").toList ++ text.toList ++ List.replicate returns '\r'
  | _ => True

namespace Token

variable {text : List Char}

/-- The token stands on whole characters of the text, on the line that it names. -/
structure Covers (text : List Char) (t : Token) : Prop where
  nonempty : t.span.start < t.span.stop
  starts : IsBoundary text t.span.start
  stops : IsBoundary text t.span.stop
  line : t.line = 1 + (takeBytes t.span.start text).count '\n'
  quotes : t.kind.Quotes (t.span.slice text)

/-- The second token stands behind the first one, with nothing but blanks of the line between
them, and with nothing at all if both are values. -/
structure Follows (text : List Char) (t u : Token) : Prop where
  order : t.span.stop ≤ u.span.start
  blank : (Span.slice ⟨t.span.stop, u.span.start⟩ text).all Cursor.isGap = true
  touches : t.kind.isSimpleValue = true → u.kind.isSimpleValue = true → t.span.stop = u.span.start

/-- The token covers its text, and so do the tokens inside it, one behind the other. -/
inductive Faithful (text : List Char) : Token → Prop
  | mk {t : Token} (covers : Covers text t)
      (chain : ∀ optional expression, t.kind = .substitution optional expression →
        expression.IsChain (Follows text))
      (within : ∀ optional expression, t.kind = .substitution optional expression →
        ∀ u ∈ expression, t.span.start ≤ u.span.start ∧ u.span.stop ≤ t.span.stop)
      (inner : ∀ optional expression, t.kind = .substitution optional expression →
        ∀ u ∈ expression, Faithful text u) : Faithful text t

/-- The tokens of a whole text: its ends, and between them tokens that leave out only blanks. -/
structure Lossless (text : List Char) (inner tokens : List Token) : Prop where
  ends : tokens = ⟨.start, .empty 0, 1⟩
    :: (inner ++ [⟨.stop, .empty (byteLength text), 1 + text.count '\n'⟩])
  noEnd : ∀ t ∈ inner, t.kind ≠ .start ∧ t.kind ≠ .stop
  faithful : ∀ t ∈ inner, Faithful text t
  chain : tokens.IsChain (Follows text)

end Token

/-! ### The cursor -/

/-- The cursor stands in the text behind `front`. -/
structure Cursor.At (text front : List Char) (c : Cursor) : Prop where
  rest : text = front ++ c.rest
  place : c.place = byteLength front
  line : c.line = 1 + front.count '\n'

namespace Cursor.At

variable {text front read rest gap : List Char} {c : Cursor}

theorem moveTo (h : c.At text front) (hr : c.rest = read ++ rest) :
    (c.moveTo rest).At text (front ++ read) := by
  have taken : c.rest.take (c.rest.length - rest.length) = read := by
    rw [hr, List.length_append, Nat.add_sub_cancel, List.take_left]
  constructor
  · rw [h.rest, hr, Cursor.rest_moveTo, List.append_assoc]
  · rw [Cursor.moveTo, taken, h.place, byteLength_append]
  · rw [Cursor.moveTo, taken, h.line, List.count_append, Nat.add_assoc]

theorem skipGap (h : c.At text front) : c.skipGap.At text (front ++ c.gap) :=
  h.moveTo List.takeWhile_append_dropWhile.symm

theorem isBoundary (h : c.At text front) : IsBoundary text c.place :=
  ⟨front, h.rest ▸ List.prefix_append _ _, h.place.symm⟩

/-- What lies between two places of the cursor. -/
theorem slice {next : Cursor} (h : c.At text front) (h' : next.At text (front ++ read)) :
    Span.slice ⟨c.place, next.place⟩ text = read := by
  have := Span.slice_piece front read next.rest
  rwa [← h.place, ← h'.place, ← List.append_assoc, ← h'.rest] at this

theorem place_le {next : Cursor} (h : c.At text front) (h' : next.At text (front ++ read)) :
    c.place ≤ next.place := by
  rw [h.place, h'.place, byteLength_append]
  exact Nat.le_add_right _ _

/-- A token that was read from one place to another. -/
theorem covers {next : Cursor} {kind : TokenKind} (h : c.At text front)
    (h' : next.At text (front ++ read)) (nonempty : read ≠ []) (quotes : kind.Quotes read) :
    Token.Covers text ⟨kind, ⟨c.place, next.place⟩, c.line⟩ where
  nonempty := by
    show c.place < next.place
    rw [h.place, h'.place, byteLength_append]
    exact Nat.lt_add_of_pos_right (byteLength_pos nonempty)
  starts := h.isBoundary
  stops := h'.isBoundary
  line := by
    have taken := takeBytes_byteLength front c.rest
    rw [← h.rest, ← h.place] at taken
    rw [h.line]
    show _ = 1 + (takeBytes c.place text).count '\n'
    rw [taken]
  quotes := by rwa [h.slice h']

end Cursor.At

/-! ### What the scanners leave -/

namespace Scan

theorem scanHex_suffix (cs : List Char) : (scanHex cs).2 <:+ cs := by
  unfold scanHex
  split
  · next a b c d rest => split <;> exact ⟨[a, b, c, d], rfl⟩
  · exact List.nil_suffix

theorem scanUnicode_suffix (cs : List Char) : (scanUnicode cs).2 <:+ cs := by
  have first := scanHex_suffix cs
  unfold scanUnicode
  split
  · next e => rwa [e] at first
  · next lead rest e =>
    rw [e] at first
    split
    · split
      · next tail =>
        have second : (scanHex tail).2 <:+ cs :=
          (scanHex_suffix tail).trans (List.IsSuffix.trans ⟨['\\', 'u'], rfl⟩ first)
        split
        · next e' => rwa [e'] at second
        · next e' =>
          rw [e'] at second
          split
          · split <;> exact second
          · exact second
      · rwa [charOfUnit_rest]
    · rwa [charOfUnit_rest]

theorem scanEscape_suffix (cs : List Char) : (scanEscape cs).2 <:+ cs := by
  unfold scanEscape
  split
  case h_10 rest => exact (scanUnicode_suffix rest).trans (List.suffix_cons _ _)
  all_goals first | exact List.suffix_cons _ _ | exact List.nil_suffix

theorem scanQuoted_suffix (taken cs : List Char) : (scanQuoted taken cs).2 <:+ cs := by
  fun_induction scanQuoted taken cs with
  | case1 => exact List.nil_suffix
  | case2 => exact List.suffix_cons _ _
  | case3 _ cs _ _ _ _ ih =>
    exact ih.trans ((scanEscape_suffix cs).trans (List.suffix_cons _ _))
  | case4 _ cs => exact (scanEscape_suffix cs).trans (List.suffix_cons _ _)
  | case5 => exact List.suffix_cons _ _
  | case6 _ _ _ _ _ _ ih => exact ih.trans (List.suffix_cons _ _)

theorem scanRaw_suffix (taken cs : List Char) : (scanRaw taken cs).2 <:+ cs := by
  induction cs generalizing taken with
  | nil => exact List.nil_suffix
  | cons c cs ih =>
    rw [scanRaw]
    split
    · exact List.dropWhile_suffix _
    · exact (ih _).trans (List.suffix_cons _ _)

theorem scanString_suffix (cs : List Char) : (scanString cs).2 <:+ cs := by
  have quoted := scanQuoted_suffix [] cs
  unfold scanString
  split
  · next rest e =>
    rw [e] at quoted
    have raw : (scanRaw [] rest).2 <:+ cs :=
      (scanRaw_suffix [] rest).trans ((List.suffix_cons _ _).trans quoted)
    simp only
    split <;> next e' => rwa [e'] at raw
  · simp only
    split <;> next e' => rwa [e'] at quoted

theorem scanPlus_suffix (cs : List Char) : (scanPlus cs).2 <:+ cs := by
  unfold scanPlus
  split
  · exact List.suffix_cons _ _
  · exact List.suffix_rfl

/-- A keyword stands on its own letters. -/
theorem quotes_keyword {text : List Char} {literal : Literal} (h : keyword? text = some literal) :
    (TokenKind.value literal).Quotes text := by
  unfold keyword? at h
  split at h
  · next e => cases h; exact e
  · split at h
    · next e => cases h; exact e
    · split at h
      · next e => cases h; exact e
      · cases h

theorem quotes_scanBare (comments : Bool) (taken cs : List Char) :
    ∃ read, cs = read ++ (scanBare comments taken cs).2
      ∧ (scanBare comments taken cs).1.Quotes (taken.reverse ++ read) := by
  induction cs generalizing taken with
  | nil => exact ⟨[], rfl, by rw [List.append_nil]; exact String.toList_ofList.symm⟩
  | cons c cs ih =>
    rw [scanBare]
    split
    · exact ⟨[], rfl, by rw [List.append_nil]; exact String.toList_ofList.symm⟩
    · split
      · next literal h =>
        refine ⟨[c], rfl, ?_⟩
        rw [← List.reverse_cons]
        exact quotes_keyword h
      · obtain ⟨read, left, quotes⟩ := ih (c :: taken)
        refine ⟨c :: read, congrArg (c :: ·) left, ?_⟩
        rwa [List.reverse_cons, List.append_assoc] at quotes

theorem quotes_numberLiteral {text : List Char} {literal : Literal}
    (h : numberLiteral? text = some literal) : (TokenKind.value literal).Quotes text := by
  unfold numberLiteral? at h
  split at h
  · obtain ⟨d, -, rfl⟩ := Option.map_eq_some_iff.1 h
    exact String.toList_ofList.symm
  · obtain ⟨n, -, rfl⟩ := Option.map_eq_some_iff.1 h
    exact String.toList_ofList.symm

theorem quotes_scanNumber (first : Char) (cs : List Char) :
    cs = cs.takeWhile continuesNumber ++ (toKind (scanNumber first cs)).2
      ∧ (toKind (scanNumber first cs)).1.Quotes (first :: cs.takeWhile continuesNumber) := by
  have whole : cs = cs.takeWhile continuesNumber ++ cs.dropWhile continuesNumber :=
    List.takeWhile_append_dropWhile.symm
  unfold scanNumber
  simp only
  split
  · next h => exact ⟨whole, quotes_numberLiteral h⟩
  · split
    · exact ⟨whole, trivial⟩
    · exact ⟨whole, String.toList_ofList.symm⟩

/-- A comment stands on its text and the carriage returns that end the line. -/
theorem scanComment_eq (cs : List Char) : ∃ returns,
    cs = (scanComment cs).1 ++ List.replicate returns '\r' ++ (scanComment cs).2 := by
  let line := cs.takeWhile (· != '\n')
  let returns := line.reverse.takeWhile (· == '\r')
  have same : returns = List.replicate returns.length '\r' :=
    List.eq_replicate_of_mem fun c hc => beq_iff_eq.1 (List.all_eq_true.1 List.all_takeWhile c hc)
  have whole : line = (scanComment cs).1 ++ returns.reverse := by
    show line = (line.reverse.dropWhile (· == '\r')).reverse ++ returns.reverse
    rw [← List.reverse_append, List.takeWhile_append_dropWhile, List.reverse_reverse]
  refine ⟨returns.length, ?_⟩
  rw [same, List.reverse_replicate] at whole
  rw [← whole]
  exact List.takeWhile_append_dropWhile.symm

/-- **A token that is no substitution** starts with its first character and stands on what it
should. -/
theorem quotes_scanFlat (comments : Bool) (first : Char) (cs : List Char) :
    ∃ read, cs = read ++ (scanFlat comments first cs).2
      ∧ (scanFlat comments first cs).1.Quotes (first :: read) := by
  have of_suffix {o : Outcome TokenKind} (left : o.2 <:+ cs)
      (quotes : ∀ piece, (toKind o).1.Quotes piece) :
      ∃ read, cs = read ++ (toKind o).2 ∧ (toKind o).1.Quotes (first :: read) := by
    obtain ⟨read, whole⟩ := left
    exact ⟨read, by rw [toKind_rest, whole], quotes _⟩
  unfold scanFlat
  split
  · next opens =>
    unfold opensComment at opens
    split at opens
    · next h =>
      cases h
      obtain ⟨returns, whole⟩ := scanComment_eq cs
      exact ⟨_, whole, returns, by simp⟩
    · next rest h =>
      cases h
      obtain ⟨returns, whole⟩ := scanComment_eq rest
      exact ⟨'/' :: _, congrArg ('/' :: ·) whole, returns, by simp⟩
    · cases opens
  · split
    · next kind h =>
      refine ⟨[], rfl, ?_⟩
      unfold punctuation? at h
      split at h <;> cases h <;> trivial
    · split
      · refine of_suffix (scanString_suffix cs) fun piece => ?_
        unfold scanString
        simp only
        split <;> split <;> trivial
      · split
        · refine of_suffix (scanPlus_suffix cs) fun piece => ?_
          unfold scanPlus
          split <;> trivial
        · split
          · obtain ⟨left, quotes⟩ := quotes_scanNumber first cs
            exact ⟨_, left, quotes⟩
          · split
            · exact ⟨[], rfl, trivial⟩
            · split
              · exact ⟨[], rfl, trivial⟩
              · exact quotes_scanBare comments [first] cs

theorem scanBare_noExpression (comments : Bool) (taken cs : List Char) (optional : Bool)
    (expression : List Token) :
    (scanBare comments taken cs).1 ≠ .substitution optional expression := by
  induction cs generalizing taken with
  | nil => rintro ⟨⟩
  | cons c cs ih =>
    rw [scanBare]
    split
    · rintro ⟨⟩
    · split
      · rintro ⟨⟩
      · exact ih _

/-- Only what a dollar and a brace open holds other tokens. -/
theorem scanFlat_noExpression (comments : Bool) (first : Char) (cs : List Char) (optional : Bool)
    (expression : List Token) :
    (scanFlat comments first cs).1 ≠ .substitution optional expression := by
  unfold scanFlat
  split
  · exact nofun
  · split
    · next kind h =>
      unfold punctuation? at h
      split at h <;> cases h <;> exact nofun
    · split
      · unfold scanString
        simp only
        split <;> split <;> exact nofun
      · split
        · unfold scanPlus
          split <;> exact nofun
        · split
          · unfold scanNumber
            simp only
            split
            · exact nofun
            · split <;> exact nofun
          · split
            · exact nofun
            · split
              · exact nofun
              · exact scanBare_noExpression comments [first] cs optional expression

end Scan

/-! ### Blanks -/

namespace Token

variable {text front : List Char} {c : Cursor}

/-- Any blanks between two tokens lie on their line. -/
theorem follows_skipGap (h : c.At text front) {t u : Token} (ht : t.span.stop = c.place)
    (hu : u.span.start = c.skipGap.place)
    (touches : t.kind.isSimpleValue = true → u.kind.isSimpleValue = true → c.gap = []) :
    Follows text t u where
  order := by
    rw [ht, hu]
    exact h.place_le h.skipGap
  blank := by
    rw [ht, hu, h.slice h.skipGap]
    exact List.all_takeWhile
  touches value value' := by
    rw [ht, hu, h.place, h.skipGap.place, touches value value', List.append_nil]

/-- Where two values would not touch, the token of the blanks comes between them. -/
theorem isChain_gapToken (h : c.At text front) {t u : Token} {us : List Token}
    (ht : t.span.stop = c.place) (hu : u.span.start = c.skipGap.place)
    (more : (u :: us).IsChain (Follows text)) :
    (t :: (c.gapToken c.skipGap t.kind.isSimpleValue u.kind.isSimpleValue ++ u :: us)).IsChain
      (Follows text) := by
  unfold Cursor.gapToken
  split
  · -- the blanks touch what stands on either side
    have behind := h.slice (show c.At text (front ++ []) by rwa [List.append_nil])
    have here : c.skipGap.At text (front ++ c.gap ++ []) := by
      rw [List.append_nil]
      exact h.skipGap
    have before := h.skipGap.slice here
    refine .cons_cons ⟨by rw [ht], ?_, fun _ _ => ht⟩
      (.cons_cons ⟨by rw [hu], ?_, fun _ _ => hu.symm⟩ more)
    · rw [ht, behind]
      rfl
    · rw [hu, before]
      rfl
  · next joined =>
    refine .cons_cons (follows_skipGap h ht hu fun value value' => ?_) more
    simpa [value, value'] using joined

theorem faithful_gapToken (h : c.At text front) (after before : Bool) :
    ∀ u ∈ c.gapToken c.skipGap after before,
      Faithful text u ∧ u.span = ⟨c.place, c.skipGap.place⟩ := by
  unfold Cursor.gapToken
  split
  · next present =>
    simp only [Bool.and_eq_true, Bool.not_eq_true', List.isEmpty_eq_false_iff] at present
    refine List.forall_mem_singleton.2 ⟨⟨?_, nofun, nofun, nofun⟩, rfl⟩
    exact h.covers h.skipGap present.2 String.toList_ofList.symm
  · exact List.forall_mem_nil _

end Token

/-! ### What the lexer reads -/

/-- From the cursor, which stands behind `front`, to `next` a token was read. -/
structure Token.ReadBetween (text front : List Char) (c next : Cursor) (t : Token) : Prop where
  moved : ∃ read, next.At text (front ++ read)
  span : t.span = ⟨c.place, next.place⟩
  faithful : Token.Faithful text t

/-- From the cursor, which stands behind `front`, to `next` the tokens were read; `after` tells
whether a value stands in front of them. -/
structure Token.RowBetween (text : List Char) (c next : Cursor) (after : Bool) (ts : List Token) :
    Prop where
  chain : ∀ t : Token, t.span.stop = c.place → t.kind.isSimpleValue = after →
    (t :: ts).IsChain (Token.Follows text)
  within : ∀ u ∈ ts, c.place ≤ u.span.start ∧ u.span.stop ≤ next.place
  faithful : ∀ u ∈ ts, Token.Faithful text u

namespace Token

variable {text front : List Char} {c next last : Cursor} {after : Bool} {t : Token}
  {ts : List Token}

theorem Faithful.flat (covers : Covers text t)
    (flat : ∀ optional expression, t.kind ≠ .substitution optional expression) :
    Faithful text t :=
  .mk covers (fun _ _ h => absurd h (flat _ _)) (fun _ _ h => absurd h (flat _ _))
    fun _ _ h => absurd h (flat _ _)

/-- A substitution covers the row of tokens between its braces. -/
theorem RowBetween.faithful_substitution {optional : Bool} (row : RowBetween text c next false ts)
    (covers : Covers text t) (kind : t.kind = .substitution optional ts)
    (starts : t.span.start ≤ c.place) (stops : next.place ≤ t.span.stop) : Faithful text t := by
  obtain ⟨chain, within, faithful⟩ := row
  -- any token without a value may stand in front
  have chain := (chain ⟨.start, ⟨0, c.place⟩, 0⟩ rfl rfl).tail
  refine .mk covers ?_ ?_ ?_ <;> rw [kind]
  · rintro _ _ ⟨⟩
    exact chain
  · rintro _ _ ⟨⟩ u hu
    obtain ⟨starts', stops'⟩ := within u hu
    exact ⟨Nat.le_trans starts starts', Nat.le_trans stops' stops⟩
  · rintro _ _ ⟨⟩
    exact faithful

theorem RowBetween.nil : RowBetween text c next after [] :=
  ⟨fun _ _ _ => .singleton _, nofun, nofun⟩

/-- A row goes on behind a token, which may have a token of blanks in front. -/
theorem RowBetween.cons (stands : c.At text front)
    (token : ReadBetween text (front ++ c.gap) c.skipGap next t)
    (row : RowBetween text next last t.kind.isSimpleValue ts) (further : next.place ≤ last.place) :
    RowBetween text c last after
      (c.gapToken c.skipGap after t.kind.isSimpleValue ++ t :: ts) := by
  obtain ⟨⟨read, moved⟩, span, faithful⟩ := token
  obtain ⟨chain, within, faithful'⟩ := row
  have here : c.place ≤ c.skipGap.place := stands.place_le stands.skipGap
  have along : c.skipGap.place ≤ next.place := stands.skipGap.place_le moved
  have gap := faithful_gapToken stands after t.kind.isSimpleValue
  constructor
  case chain =>
    rintro p hp rfl
    exact isChain_gapToken stands hp (by rw [span]) (chain t (by rw [span]) rfl)
  case within =>
    refine List.forall_mem_append.2 ⟨fun u hu => ?_, List.forall_mem_cons.2 ⟨?_, fun u hu => ?_⟩⟩
    · rw [(gap u hu).2]
      exact ⟨Nat.le_refl _, Nat.le_trans along further⟩
    · rw [span]
      exact ⟨here, further⟩
    · obtain ⟨starts, stops⟩ := within u hu
      exact ⟨Nat.le_trans here (Nat.le_trans along starts), stops⟩
  case faithful =>
    exact List.forall_mem_append.2 ⟨fun u hu => (gap u hu).1,
      List.forall_mem_cons.2 ⟨faithful, faithful'⟩⟩

end Token

/-- Where the cursor stands behind some text tells its place, and what is left. -/
theorem Cursor.At.unique {text front : List Char} {c d : Cursor} (h : c.At text front)
    (h' : d.At text front) : c.place = d.place ∧ c.rest = d.rest :=
  ⟨h.place.trans h'.place.symm, List.append_cancel_left (h.rest.symm.trans h'.rest)⟩

theorem Scan.openSubstitution?_eq {cs inner : List Char} {optional : Bool}
    (h : openSubstitution? cs = some (optional, inner)) :
    ∃ mark, cs = '$' :: mark ++ inner := by
  unfold openSubstitution? at h
  split at h <;> cases h
  · exact ⟨['\x7b', '?'], rfl⟩
  · exact ⟨['\x7b'], rfl⟩

mutual

theorem pullToken_readBetween (comments : Bool) (c : Cursor) (h : c.rest ≠ [])
    {text front : List Char} (stands : c.At text front) :
    Token.ReadBetween text front c (pullToken comments c h).val.2
      (pullToken comments c h).val.1 := by
  cases hs : Scan.openSubstitution? c.rest with
  | some opened =>
    obtain ⟨optional, inner⟩ := opened
    obtain ⟨mark, whole⟩ := Scan.openSubstitution?_eq hs
    have shorter := Scan.openSubstitution?_length_lt hs
    have inside : (c.moveTo inner).At text (front ++ '$' :: mark) := stands.moveTo whole
    obtain ⟨⟨read, moved⟩, row⟩ :=
      pullExpression_rowBetween comments (c.moveTo inner) false inside
    rw [pullToken_substitution hs h]
    generalize (pullExpression comments (c.moveTo inner) false).val = r at moved row ⊢
    obtain ⟨result, next⟩ := r
    -- what stands between the braces belongs to the token
    have left : inner = read ++ next.rest := by
      refine List.append_cancel_left ((inside.rest.symm.trans moved.rest).trans ?_)
      rw [List.append_assoc]
    have moved' := stands.moveTo (whole.trans (left ▸ (List.append_assoc ..).symm))
    have same : (c.moveTo next.rest).place = next.place := by
      refine (moved'.unique ?_).1
      rwa [← List.append_assoc]
    cases result with
    | error p =>
      exact ⟨⟨_, moved'⟩, rfl,
        .flat (stands.covers moved' (List.cons_ne_nil _ _) trivial) nofun⟩
    | ok expression =>
      exact ⟨⟨_, moved'⟩, rfl, (row expression rfl).faithful_substitution
        (stands.covers moved' (List.cons_ne_nil _ _) trivial) rfl (stands.place_le inside)
        (Nat.le_of_eq same.symm)⟩
  | none =>
    match c, h with
    | ⟨first :: cs, place, line⟩, h =>
    obtain ⟨read, left, quotes⟩ := Scan.quotes_scanFlat comments first cs
    have whole : first :: cs = (first :: read) ++ (Scan.scanFlat comments first cs).2 :=
      congrArg (first :: ·) left
    have moved := stands.moveTo whole
    rw [pullToken]
    split
    · next hs' => cases hs.symm.trans hs'
    · exact ⟨⟨_, moved⟩, rfl, .flat (stands.covers moved (List.cons_ne_nil _ _) quotes)
        (Scan.scanFlat_noExpression comments first cs)⟩
termination_by 2 * c.rest.length
decreasing_by
  simp only [Cursor.rest_moveTo] at *
  omega

theorem pullExpression_rowBetween (comments : Bool) (c : Cursor) (after : Bool)
    {text front : List Char} (stands : c.At text front) :
    (∃ read, (pullExpression comments c after).val.2.At text (front ++ read)) ∧
      ∀ ts, (pullExpression comments c after).val.1 = .ok ts →
        Token.RowBetween text c (pullExpression comments c after).val.2 after ts := by
  have blank := stands.skipGap
  have le := c.skipGap_length_le
  by_cases h : c.skipGap.rest = []
  · rw [pullExpression_nil h]
    exact ⟨⟨_, blank⟩, nofun⟩
  · have token := pullToken_readBetween comments c.skipGap h blank
    rcases pulled : (pullToken comments c.skipGap h).val with ⟨t, next⟩
    have shorter : next.rest.length < c.skipGap.rest.length := by
      have shorter := (pullToken comments c.skipGap h).property
      rwa [pulled] at shorter
    rw [pulled] at token
    obtain ⟨read, moved⟩ := token.moved
    have moved_c : ∃ read, next.At text (front ++ read) :=
      ⟨c.gap ++ read, by rwa [← List.append_assoc]⟩
    rw [pullExpression_eq h pulled]
    split
    · refine ⟨moved_c, ?_⟩
      rintro ts ⟨⟩
      exact .nil
    · exact ⟨moved_c, nofun⟩
    · obtain ⟨⟨read', moved'⟩, row⟩ :=
        pullExpression_rowBetween comments next t.kind.isSimpleValue moved
      generalize (pullExpression comments next t.kind.isSimpleValue).val = r at moved' row ⊢
      obtain ⟨result, last⟩ := r
      have moved_c : ∃ read, last.At text (front ++ read) :=
        ⟨c.gap ++ (read ++ read'), by rwa [← List.append_assoc, ← List.append_assoc]⟩
      cases result with
      | error p => exact ⟨moved_c, nofun⟩
      | ok ts =>
        refine ⟨moved_c, ?_⟩
        rintro _ ⟨⟩
        exact .cons stands token (row ts rfl) (moved.place_le moved')
termination_by 2 * c.rest.length + 1
decreasing_by all_goals omega

end

/-! ### Whole texts -/

/-- The tokens up to the end of a text. -/
theorem exists_tokensFrom (comments : Bool) {c : Cursor} (after : Bool) {text front : List Char}
    (stands : c.At text front) :
    ∃ inner, tokensFrom comments c after
        = inner ++ [⟨.stop, .empty (byteLength text), 1 + text.count '\n'⟩]
      ∧ (∀ u ∈ inner, Token.Faithful text u)
      ∧ ∀ t : Token, t.span.stop = c.place → t.kind.isSimpleValue = after →
        (t :: tokensFrom comments c after).IsChain (Token.Follows text) := by
  fun_induction tokensFrom comments c after generalizing front with
  | case1 =>
    rename_i c after b le h
    have blank := stands.skipGap
    have whole : text = front ++ c.gap := by
      have rest := blank.rest
      rwa [show c.skipGap.rest = [] from h, List.append_nil] at rest
    have stop : b.stopToken = ⟨.stop, .empty (byteLength text), 1 + text.count '\n'⟩ := by
      rw [Cursor.stopToken, blank.place, blank.line, ← whole]
    refine ⟨[], by rw [stop, List.nil_append], List.forall_mem_nil _, fun t ht _ => ?_⟩
    exact .cons_cons (Token.follows_skipGap stands ht rfl fun _ => by rintro ⟨⟩) (.singleton _)
  | case2 =>
    rename_i c after b le h t next lt hp shorter ih
    have token := pullToken_readBetween comments c.skipGap h stands.skipGap
    rw [hp] at token
    obtain ⟨⟨read, moved⟩, span, faithful⟩ := token
    obtain ⟨inner, eq, faithful', chain⟩ := ih moved
    have gap := Token.faithful_gapToken stands after t.kind.isSimpleValue
    refine ⟨c.gapToken b after t.kind.isSimpleValue ++ t :: inner, ?_, ?_, fun p hp value => ?_⟩
    · rw [eq, List.append_assoc, List.cons_append]
    · exact List.forall_mem_append.2 ⟨fun u hu => (gap u hu).1,
        List.forall_mem_cons.2 ⟨faithful, faithful'⟩⟩
    · subst value
      exact Token.isChain_gapToken stands hp (by rw [span]) (chain t (by rw [span]) rfl)

/-- **No text is lost between tokens**: this holds of every text in either syntax. -/
theorem lossless_ofText (syn : DocumentSyntax) (text : List Char) :
    ∃ inner, Token.Lossless text inner (Token.ofText syn text) := by
  have front : (Cursor.ofText text).At text [] := ⟨rfl, rfl, rfl⟩
  obtain ⟨inner, eq, faithful, chain⟩ := exists_tokensFrom (syn != .json) false front
  refine ⟨inner, ?_, fun t ht => ?_, faithful, chain ⟨.start, .empty 0, 1⟩ rfl rfl⟩
  · rw [Token.ofText, eq]
  · -- the ends of a text cover none of it
    obtain ⟨covers, -, -, -⟩ := faithful t ht
    have quotes := covers.quotes
    constructor <;> intro kind <;> rw [kind] at quotes <;> exact quotes

end Hocon
