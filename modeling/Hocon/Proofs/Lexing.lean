import Hocon.Document.Item
import Hocon.Proofs.Scanning

/-!
# Texts and their items

`Lexed after cs kinds` says how a text falls into tokens: blanks, a token, and a text that falls
into tokens in turn, where comments count for nothing.  It speaks of the kinds of tokens alone,
not of places, so a text can be put together from the back without minding where it will stand.
`Lexed.items` is what it is for: the items of such a text are of these kinds.
-/

namespace Hocon

open Scan

/-! ### From tokens to items -/

/-- Whether items are made of such tokens: comments and the ends of the text are left out. -/
def TokenKind.isItem : TokenKind → Bool
  | start => false
  | stop => false
  | comment _ _ => false
  | _ => true

/-- The kinds of the items that tokens make. -/
abbrev itemKinds (ts : List Token) : List TokenKind := (ts.map Placed.kind).filter TokenKind.isItem

theorem itemKinds_cons (t : Token) (ts : List Token) :
    itemKinds (t :: ts) = if t.kind.isItem then t.kind :: itemKinds ts else itemKinds ts := by
  rw [itemKinds, List.map_cons, List.filter_cons]

theorem itemKinds_dropSideComments (midLine : Bool) (ts : List Token) :
    itemKinds (dropSideComments midLine ts) = itemKinds ts := by
  induction ts generalizing midLine with
  | nil => rfl
  | cons t ts ih =>
    rw [dropSideComments]
    split
    · rw [itemKinds_cons, itemKinds_cons, ih]
    · next kind =>
      split
      · rw [itemKinds_cons, kind, ih]
        rfl
      · rw [itemKinds_cons, itemKinds_cons, ih]
    · rw [itemKinds_cons, itemKinds_cons, ih]
    · rw [itemKinds_cons, itemKinds_cons, ih]

theorem kinds_attachComments (block : Option CommentBlock) (ts : List Token) :
    (attachComments block ts).map Item.kind = itemKinds ts := by
  induction ts generalizing block with
  | nil => rfl
  | cons t ts ih =>
    rw [itemKinds_cons]
    unfold attachComments
    split
    · next kind => rw [kind, ih]; rfl
    · next kind => rw [kind, ih]; rfl
    · next kind => rw [kind, ih]; rfl
    · next kind => rw [kind, ih]; rfl
    · next kind => rw [List.map_cons, ih, kind]; exact congrArg (· :: _) kind
    · next kind => rw [List.map_cons, ih, kind]; exact congrArg (· :: _) kind
    all_goals
      next start stop comment _ =>
      have item : t.kind.isItem = true := by
        cases h : t.kind <;> first | rfl | simp_all
      rw [List.map_cons, ih, if_pos item]
      rfl

/-- The items of a document are of the kinds that its tokens have. -/
theorem kinds_ofTokens (ts : List Token) : (Item.ofTokens ts).map Item.kind = itemKinds ts := by
  rw [Item.ofTokens, kinds_attachComments, itemKinds_dropSideComments]

/-! ### Texts that fall into tokens -/

/-- The text `cs` falls into tokens of these kinds, apart from its comments, where `after` tells
whether a value stands in front of it on its line. -/
inductive Lexed : Bool → List Char → List TokenKind → Prop
  /-- Blanks are all that is left. -/
  | stop {after : Bool} {gap : List Char} (blank : gap.all Cursor.isGap = true) :
      Lexed after gap []
  /-- A token that is no comment and no substitution; values on one line touch each other. -/
  | token {after : Bool} {gap cs rest : List Char} {first : Char} {kind : TokenKind}
      {kinds : List TokenKind} (blank : gap.all Cursor.isGap = true)
      (solid : Cursor.isGap first = false) (flat : first ≠ '$')
      (scan : scanFlat true first cs = (kind, rest)) (item : kind.isItem = true)
      (apart : after = true → kind.isSimpleValue = true → gap = [])
      (more : Lexed kind.isSimpleValue rest kinds) :
      Lexed after (gap ++ first :: cs) (kind :: kinds)
  /-- A value that blanks keep apart from the one in front of it: they are a token, too. -/
  | spaced {gap cs rest : List Char} {first : Char} {kind : TokenKind} {kinds : List TokenKind}
      (blank : gap.all Cursor.isGap = true) (present : gap ≠ [])
      (solid : Cursor.isGap first = false) (flat : first ≠ '$')
      (scan : scanFlat true first cs = (kind, rest)) (item : kind.isItem = true)
      (value : kind.isSimpleValue = true) (more : Lexed true rest kinds) :
      Lexed true (gap ++ first :: cs) (.bare (String.ofList gap) :: kind :: kinds)
  | comment {after : Bool} {gap cs rest : List Char} {first : Char} {text : String} {slashes : Bool}
      {kinds : List TokenKind} (blank : gap.all Cursor.isGap = true)
      (solid : Cursor.isGap first = false) (flat : first ≠ '$')
      (scan : scanFlat true first cs = (.comment text slashes, rest))
      (more : Lexed false rest kinds) : Lexed after (gap ++ first :: cs) kinds

/-- The cursor behind the blanks stands on the first character that is none. -/
theorem Cursor.rest_skipGap {c : Cursor} {gap cs : List Char} {first : Char}
    (hc : c.rest = gap ++ first :: cs) (blank : gap.all isGap = true) (solid : isGap first = false) :
    c.skipGap.rest = first :: cs ∧ c.gap = gap := by
  have blank := List.all_eq_true.1 blank
  constructor
  · show c.rest.dropWhile isGap = _
    rw [hc, List.dropWhile_append_of_pos blank, List.dropWhile_cons, solid]
    rfl
  · rw [Cursor.gap, hc, List.takeWhile_append_of_pos blank, List.takeWhile_cons, solid]
    exact List.append_nil _

theorem Cursor.all_gap (c : Cursor) : c.gap.all isGap = true := List.all_takeWhile

theorem Cursor.rest_eq (c : Cursor) : c.rest = c.gap ++ c.skipGap.rest :=
  List.takeWhile_append_dropWhile.symm

/-- Behind the blanks stands none. -/
theorem Cursor.isGap_of_skipGap {c : Cursor} {first : Char} {cs : List Char}
    (h : c.skipGap.rest = first :: cs) : isGap first = false := by
  have front : (c.rest.dropWhile isGap).head? = some first := by
    rw [show c.rest.dropWhile isGap = first :: cs from h]
    rfl
  have stops := List.head?_dropWhile_not isGap c.rest
  rw [front] at stops
  exact stops

/-- No token of blanks stands where values are not kept apart. -/
theorem Cursor.gapToken_eq_nil (c next : Cursor) {after before : Bool}
    (apart : after = true → before = true → c.gap = []) : c.gapToken next after before = [] := by
  rw [gapToken]
  cases after <;> cases before <;> first | rfl | rw [apart rfl rfl]; rfl

/-- The token at a cursor, if it is no substitution. -/
theorem pullToken_flat {comments : Bool} {c : Cursor} {cs rest : List Char} {first : Char}
    {kind : TokenKind} (hc : c.rest = first :: cs) (flat : first ≠ '$')
    (scan : scanFlat comments first cs = (kind, rest)) (h : c.rest ≠ []) :
    (pullToken comments c h).val.1.kind = kind ∧ (pullToken comments c h).val.2.rest = rest := by
  obtain ⟨cs', place, line⟩ := c
  cases hc
  have none : openSubstitution? (first :: cs) = none := by
    unfold openSubstitution?
    split
    · next h => exact absurd (List.cons.inj h).1 flat
    · next h => exact absurd (List.cons.inj h).1 flat
    · rfl
  rw [pullToken]
  split
  · next hs => rw [none] at hs; cases hs
  · exact ⟨congrArg Prod.fst scan, congrArg Prod.snd scan⟩

/-- A substitution is the tokens up to its brace, or the problem with them. -/
theorem pullToken_substitution {comments optional : Bool} {c : Cursor} {inner : List Char}
    (hs : openSubstitution? c.rest = some (optional, inner)) (h : c.rest ≠ []) :
    (pullToken comments c h).val =
      match (pullExpression comments (c.moveTo inner) false).val with
      | (.ok expression, next) => c.token (.substitution optional expression) next.rest
      | (.error p, next) => c.token (.problem p) next.rest := by
  rw [pullToken]
  split
  · next hs' =>
    cases hs.symm.trans hs'
    split <;> next e => rw [e]
  · next hs' => cases hs.symm.trans hs'

/-- There is no brace where the text ends. -/
theorem pullExpression_nil {comments after : Bool} {c : Cursor} (h : c.skipGap.rest = []) :
    (pullExpression comments c after).val = (.error .openSubstitution, c.skipGap) := by
  rw [pullExpression, dif_pos h]

/-- What a substitution reads from a cursor, by the first token there. -/
theorem pullExpression_eq {comments after : Bool} {c : Cursor} (h : c.skipGap.rest ≠ [])
    {t : Token} {next : Cursor} (pulled : (pullToken comments c.skipGap h).val = (t, next)) :
    (pullExpression comments c after).val =
      match t.kind with
      | .closeBrace => (.ok [], next)
      | .problem p => (.error p, next)
      | kind =>
        match (pullExpression comments next kind.isSimpleValue).val with
        | (.ok ts, last) =>
          (.ok (c.gapToken c.skipGap after kind.isSimpleValue ++ t :: ts), last)
        | (.error p, last) => (.error p, last) := by
  rw [pullExpression, dif_neg h]
  generalize pullToken comments c.skipGap h = r at pulled ⊢
  obtain ⟨⟨t', next'⟩, lt⟩ := r
  cases pulled
  simp only []
  cases t.kind with
  | closeBrace => rfl
  | problem p => rfl
  | _ =>
    -- the expression goes on behind the token
    simp only []
    split <;> next e => simp only [e]

/-- What a text falls into from a cursor, by the first token there. -/
theorem tokensFrom_eq {comments after : Bool} {c : Cursor} (h : c.skipGap.rest ≠ []) {t : Token}
    {next : Cursor} (pulled : (pullToken comments c.skipGap h).val = (t, next)) :
    tokensFrom comments c after = c.gapToken c.skipGap after t.kind.isSimpleValue
      ++ t :: tokensFrom comments next t.kind.isSimpleValue := by
  obtain ⟨⟨p, lt⟩, hp⟩ : ∃ p, pullToken comments c.skipGap h = p := ⟨_, rfl⟩
  rw [hp] at pulled
  cases pulled
  rw [tokensFrom, dif_neg h]
  simp only [hp]

/-- The first token of a text, if it is no substitution, behind the token of the blanks. -/
theorem exists_tokensFrom_gap {comments : Bool} {c : Cursor} {gap cs rest : List Char} {first : Char}
    {kind : TokenKind} (hc : c.rest = gap ++ first :: cs) (blank : gap.all Cursor.isGap = true)
    (solid : Cursor.isGap first = false) (flat : first ≠ '$')
    (scan : scanFlat comments first cs = (kind, rest)) (after : Bool) :
    ∃ t next, tokensFrom comments c after = c.gapToken c.skipGap after kind.isSimpleValue
        ++ t :: tokensFrom comments next kind.isSimpleValue
      ∧ t.kind = kind ∧ next.rest = rest ∧ c.gap = gap := by
  obtain ⟨front, hgap⟩ := Cursor.rest_skipGap hc blank solid
  have nonempty : c.skipGap.rest ≠ [] := front ▸ List.cons_ne_nil _ _
  obtain ⟨hkind, left⟩ := pullToken_flat front flat scan nonempty
  refine ⟨_, _, ?_, hkind, left, hgap⟩
  rw [tokensFrom_eq nonempty rfl, hkind]

/-- Where the blanks are no token. -/
theorem exists_tokensFrom_cons {comments after : Bool} {c : Cursor} {gap cs rest : List Char}
    {first : Char} {kind : TokenKind} (hc : c.rest = gap ++ first :: cs)
    (blank : gap.all Cursor.isGap = true) (solid : Cursor.isGap first = false) (flat : first ≠ '$')
    (scan : scanFlat comments first cs = (kind, rest))
    (apart : after = true → kind.isSimpleValue = true → gap = []) :
    ∃ t next, tokensFrom comments c after = t :: tokensFrom comments next kind.isSimpleValue
      ∧ t.kind = kind ∧ next.rest = rest := by
  obtain ⟨t, next, eq, pulled, rest, hgap⟩ := exists_tokensFrom_gap hc blank solid flat scan after
  refine ⟨t, next, ?_, pulled, rest⟩
  have nothing : c.gapToken c.skipGap after kind.isSimpleValue = [] :=
    c.gapToken_eq_nil _ fun value simple => hgap.trans (apart value simple)
  rw [eq, nothing]
  rfl

/-- The end of a text is its last token. -/
theorem kind_getLast?_tokensFrom (comments : Bool) (c : Cursor) (after : Bool) :
    (tokensFrom comments c after).getLast?.map Placed.kind = some .stop := by
  fun_induction tokensFrom comments c after with
  | case1 => rfl
  | case2 c after b le h t next lt hp shorter ih =>
    rw [List.getLast?_append, List.getLast?_cons]
    cases hl : (tokensFrom comments next t.kind.isSimpleValue).getLast? with
    | none => rw [hl] at ih; cases ih
    | some last => rw [hl] at ih; exact ih

theorem kind_stopOf (syn : DocumentSyntax) (text : List Char) :
    (Item.stopOf (Token.ofText syn text)).kind = .stop := by
  have last := kind_getLast?_tokensFrom (syn != .json) (.ofText text) false
  unfold Item.stopOf Token.ofText
  rw [List.getLast?_cons]
  cases h : (tokensFrom (syn != .json) (.ofText text) false).getLast? with
  | none => rw [h] at last; cases last
  | some t =>
    rw [h] at last
    exact Option.some.inj last

theorem Lexed.itemKinds_eq {after : Bool} {cs : List Char} {kinds : List TokenKind}
    (h : Lexed after cs kinds) {c : Cursor} (hc : c.rest = cs) :
    itemKinds (tokensFrom true c after) = kinds := by
  induction h generalizing c with
  | @stop after gap blank =>
    have : c.skipGap.rest = [] := by
      show c.rest.dropWhile Cursor.isGap = []
      rw [hc]
      rw [← List.append_nil gap, List.dropWhile_append_of_pos (List.all_eq_true.1 blank)]
      rfl
    rw [tokensFrom, dif_pos this]
    rfl
  | token blank solid flat scan item apart more ih =>
    obtain ⟨t, next, eq, kind, rest⟩ := exists_tokensFrom_cons hc blank solid flat scan apart
    rw [eq, itemKinds_cons, kind, if_pos item, ih rest]
  | @spaced gap _ _ _ _ _ blank present solid flat scan item value more ih =>
    obtain ⟨t, next, eq, kind, rest, hgap⟩ := exists_tokensFrom_gap hc blank solid flat scan true
    have apart : c.gap.isEmpty = false := by
      rw [hgap]
      exact List.isEmpty_eq_false_iff.2 present
    rw [eq, Cursor.gapToken, value, apart, hgap]
    show itemKinds (_ :: t :: _) = _
    rw [itemKinds_cons, itemKinds_cons, kind, if_pos item, ih rest]
    rfl
  | @comment after gap _ _ _ text slashes _ blank solid flat scan more ih =>
    have apart : after = true → (TokenKind.comment text slashes).isSimpleValue = true → gap = [] :=
      nofun
    obtain ⟨t, next, eq, kind, rest⟩ := exists_tokensFrom_cons hc blank solid flat scan apart
    rw [eq, itemKinds_cons, kind]
    exact ih rest

/-! ### Signs -/

/-- The character is a token by itself, wherever it stands. -/
structure IsSign (c : Char) (kind : TokenKind) : Prop where
  solid : Cursor.isGap c = false
  flat : c ≠ '$'
  item : kind.isItem = true
  apart : kind.isSimpleValue = false
  scan : ∀ rest, scanFlat true c rest = (kind, rest)

theorem isSign_of_punctuation? {c : Char} {kind : TokenKind} (h : punctuation? c = some kind) :
    IsSign c kind := by
  have facts : c ≠ '#' ∧ c ≠ '/' ∧ c ≠ '$' ∧ Cursor.isGap c = false ∧ kind.isItem = true
      ∧ kind.isSimpleValue = false := by
    unfold punctuation? at h
    split at h <;> cases h <;> decide
  obtain ⟨hash, slash, flat, solid, item, apart⟩ := facts
  refine ⟨solid, flat, item, apart, fun rest => ?_⟩
  unfold scanFlat
  rw [opensComment_cons hash slash, h]
  rfl

/-! ### Texts put together from the back -/

namespace Lexed

variable {after : Bool} {cs rest : List Char} {kinds : List TokenKind}

/-- Blanks in front of a text do not matter where no value stands before them. -/
theorem blanks (h : Lexed false cs kinds) {gap : List Char}
    (blank : gap.all Cursor.isGap = true) : Lexed false (gap ++ cs) kinds := by
  have blanks {gap' : List Char} (blank' : gap'.all Cursor.isGap = true) :
      (gap ++ gap').all Cursor.isGap = true := by
    rw [List.all_append, blank, blank']
    rfl
  cases h with
  | stop blank' => exact .stop (blanks blank')
  | token blank' solid flat scan item _ more =>
    rw [← List.append_assoc]
    exact .token (blanks blank') solid flat scan item nofun more
  | comment blank' solid flat scan more =>
    rw [← List.append_assoc]
    exact .comment (blanks blank') solid flat scan more

/-- A token in front of a text. -/
theorem front {first : Char} {kind : TokenKind} (solid : Cursor.isGap first = false)
    (flat : first ≠ '$') (scan : scanFlat true first cs = (kind, rest))
    (item : kind.isItem = true) (more : Lexed kind.isSimpleValue rest kinds) :
    Lexed after (first :: cs) (kind :: kinds) :=
  show Lexed after ([] ++ first :: cs) (kind :: kinds) from
    .token rfl solid flat scan item (fun _ _ => rfl) more

/-- A sign in front of a text; it may stand behind a value. -/
theorem sign {c : Char} {kind : TokenKind} (h : punctuation? c = some kind) {gap : List Char}
    (blank : gap.all Cursor.isGap = true) (more : Lexed false rest kinds) :
    Lexed after (gap ++ c :: rest) (kind :: kinds) := by
  have sign := isSign_of_punctuation? h
  refine .token blank sign.solid sign.flat (sign.scan rest) sign.item ?_ (sign.apart ▸ more)
  rw [sign.apart]
  exact nofun

/-- A sign that is the first of a text. -/
theorem firstSign {c : Char} {kind : TokenKind} (h : punctuation? c = some kind)
    (more : Lexed false rest kinds) : Lexed after (c :: rest) (kind :: kinds) :=
  show Lexed after ([] ++ c :: rest) (kind :: kinds) from .sign h rfl more

/-- A comment goes up to the end of its line, carriage returns and all. -/
theorem line {gap text : List Char} (blank : gap.all Cursor.isGap = true) (line : '\n' ∉ text)
    (more : Lexed false ('\n' :: rest) kinds) :
    Lexed after (gap ++ '#' :: (text ++ '\n' :: rest)) kinds := by
  have upTo : ∀ c ∈ text, (c != '\n') = true := by
    intro c hc
    rw [bne_iff_ne]
    rintro rfl
    exact line hc
  have drop : (text ++ '\n' :: rest).dropWhile (· != '\n') = '\n' :: rest := by
    rw [List.dropWhile_append_of_pos upTo]
    rfl
  obtain ⟨text', scan⟩ : ∃ text', scanFlat true '#' (text ++ '\n' :: rest)
      = (.comment text' false, '\n' :: rest) := ⟨_, Prod.ext_iff.2 ⟨rfl, drop⟩⟩
  exact .comment blank (by decide) (by decide) scan more

end Lexed

/-- **The items of a text** are of the kinds that it falls into. -/
theorem Lexed.items {cs : List Char} {kinds : List TokenKind} (h : Lexed false cs kinds) :
    (Item.ofTokens (Token.ofText .conf cs)).map Item.kind = kinds := by
  rw [kinds_ofTokens, Token.ofText, itemKinds_cons]
  exact h.itemKinds_eq rfl

end Hocon
