import Hocon.Proofs.Following
import Hocon.Proofs.Lossless

/-!
# Texts with something else behind them

`Runs tail after cs kinds last` says how a text falls into tokens in front of `tail`, substitutions
and comments included.  It speaks of kinds alone, not of places.  Up to any token that was read from
a text it has run so (`exists_runs`), it runs so in front of anything else that keeps apart what
`tail` does (`Runs.swap`), and wherever a text runs so it has tokens of these kinds
(`Runs.itemKinds`).
-/

namespace Hocon

open Text Scan

/-! ### Kinds of tokens, wherever they stand -/

namespace TokenKind

/-- The tokens that a substitution holds, without their places. -/
def unplacedTokens (kinds : List TokenKind) : List Token := kinds.map (⟨·, .empty 0, 0⟩)

/-- The kind of a token without the places of what a substitution holds. -/
def unplaced : TokenKind → TokenKind
  | substitution optional expression =>
    substitution optional (unplacedTokens (expression.map Placed.kind))
  | kind => kind

variable {kind kind' : TokenKind} {optional : Bool} {expression : List Token}

@[simp] theorem kinds_unplacedTokens (kinds : List TokenKind) :
    (unplacedTokens kinds).map Placed.kind = kinds := by
  rw [unplacedTokens, List.map_map]
  exact List.map_id _

@[simp] theorem isSimpleValue_unplaced (kind : TokenKind) :
    kind.unplaced.isSimpleValue = kind.isSimpleValue := by
  cases kind <;> rfl

@[simp] theorem isItem_unplaced (kind : TokenKind) : kind.unplaced.isItem = kind.isItem := by
  cases kind <;> rfl

theorem unplaced_unplaced (kind : TokenKind) : kind.unplaced.unplaced = kind.unplaced := by
  cases kind with
  | substitution optional expression =>
    rw [unplaced, unplaced, kinds_unplacedTokens]
  | _ => rfl

theorem unplaced_of_noSubstitution (h : ∀ optional expression, kind ≠ .substitution optional expression) :
    kind.unplaced = kind := by
  cases kind <;> first | rfl | exact absurd rfl (h _ _)

/-- What is no substitution is told by its kind without places. -/
theorem eq_of_unplaced (h : ∀ optional expression, kind ≠ .substitution optional expression)
    (same : kind'.unplaced = kind.unplaced) : kind' = kind := by
  rw [unplaced_of_noSubstitution h] at same
  cases kind' with
  | substitution optional expression => exact absurd same.symm (h _ _)
  | _ => exact same

theorem exists_substitution_of_unplaced
    (same : kind.unplaced = (substitution optional expression).unplaced) :
    ∃ expression', kind = .substitution optional expression'
      ∧ expression'.map Placed.kind = expression.map Placed.kind := by
  cases kind with
  | substitution optional' expression' =>
    obtain ⟨rfl, tokens⟩ := TokenKind.substitution.inj same
    have kinds := congrArg (List.map Placed.kind) tokens
    rw [kinds_unplacedTokens, kinds_unplacedTokens] at kinds
    exact ⟨expression', rfl, kinds⟩
  | _ => cases same

/-- The token is no problem, and a path is made of what a substitution holds. -/
structure Plain (kind : TokenKind) : Prop where
  noProblem : ∀ p, kind ≠ .problem p
  pieces : ∀ optional expression, kind = .substitution optional expression →
    ∀ t ∈ expression, t.kind.isPiece = true

theorem Plain.of_unplaced (h : kind'.Plain) (same : kind.unplaced = kind'.unplaced) : kind.Plain := by
  constructor
  · rintro p rfl
    exact h.noProblem p (eq_of_unplaced nofun same.symm)
  · rintro optional expression rfl t ht
    obtain ⟨expression', rfl, kinds⟩ := exists_substitution_of_unplaced same.symm
    have within := List.mem_map_of_mem (f := Placed.kind) ht
    rw [← kinds] at within
    obtain ⟨u, hu, eq⟩ := List.mem_map.1 within
    exact eq ▸ h.pieces optional expression' rfl u hu

theorem isFlat_of_isPiece (h : kind.isPiece = true) : kind.isFlat = true := by
  cases kind <;> first | rfl | cases h

/-- What is no item is plain anyway. -/
theorem Plain.of_items {ts : List Token} (h : ∀ kind ∈ itemKinds ts, kind.Plain) {t : Token}
    (ht : t ∈ ts) : t.kind.Plain := by
  cases item : t.kind.isItem with
  | true => exact h _ (List.mem_filter.2 ⟨List.mem_map_of_mem ht, item⟩)
  | false =>
    constructor
    · intro p kind
      rw [kind] at item
      cases item
    · intro optional expression kind
      rw [kind] at item
      cases item

end TokenKind

/-! ### Items -/

theorem itemKinds_append (ts us : List Token) : itemKinds (ts ++ us) = itemKinds ts ++ itemKinds us := by
  rw [itemKinds, List.map_append, List.filter_append]

theorem unplaced_itemKinds_cons (t : Token) (ts : List Token) :
    (itemKinds (t :: ts)).map TokenKind.unplaced
      = [t.kind.unplaced].filter TokenKind.isItem ++ (itemKinds ts).map TokenKind.unplaced := by
  rw [itemKinds_cons, List.filter_singleton, TokenKind.isItem_unplaced]
  cases t.kind.isItem <;> rfl

/-! ### Blanks -/

/-- The blanks between two values of one line are a token. -/
def blanksBetween (after : Bool) (gap : List Char) (before : Bool) : List TokenKind :=
  if after && before && !gap.isEmpty then [.bare (String.ofList gap)] else []

theorem unplaced_blanksBetween (after : Bool) (gap : List Char) (before : Bool) :
    (blanksBetween after gap before).map TokenKind.unplaced = blanksBetween after gap before := by
  unfold blanksBetween
  split <;> rfl

namespace Cursor

theorem kinds_gapToken (c next : Cursor) (after before : Bool) :
    (c.gapToken next after before).map Placed.kind = blanksBetween after c.gap before := by
  unfold gapToken blanksBetween
  split <;> rfl

theorem itemKinds_gapToken (c next : Cursor) (after before : Bool) :
    itemKinds (c.gapToken next after before) = blanksBetween after c.gap before := by
  rw [itemKinds, kinds_gapToken]
  unfold blanksBetween
  split <;> rfl

end Cursor

/-! ### Paths in braces -/

/-- The text falls into the pieces of a path, the brace that closes it, and `rest`. -/
inductive Enclosed (rest : List Char) : Bool → List Char → List TokenKind → Prop
  | close {after : Bool} {gap cs : List Char} {first : Char} (blank : gap.all Cursor.isGap = true)
      (solid : Cursor.isGap first = false) (flat : first ≠ '$')
      (scan : scanFlat true first cs = (.closeBrace, rest)) :
      Enclosed rest after (gap ++ first :: cs) []
  | piece {after : Bool} {gap cs left : List Char} {first : Char} {kind : TokenKind}
      {kinds : List TokenKind} (blank : gap.all Cursor.isGap = true)
      (solid : Cursor.isGap first = false) (flat : first ≠ '$')
      (scan : scanFlat true first cs = (kind, left)) (isPiece : kind.isPiece = true)
      (more : Enclosed rest kind.isSimpleValue left kinds) :
      Enclosed rest after (gap ++ first :: cs)
        (blanksBetween after gap kind.isSimpleValue ++ kind :: kinds)

namespace Enclosed

variable {after : Bool} {cs rest tail tail' v : List Char} {kinds : List TokenKind} {c next : Cursor}
  {expression : List Token}

/-- What a substitution reads. -/
theorem of_pull (read : (pullExpression true c after).val = (.ok expression, next))
    (pieces : ∀ t ∈ expression, t.kind.isPiece = true) :
    Enclosed next.rest after c.rest (expression.map Placed.kind) := by
  induction length : c.rest.length using Nat.strong_induction_on generalizing c after expression with
  | _ n ih =>
  by_cases h : c.skipGap.rest = []
  · rw [pullExpression_nil h] at read
    cases read
  rcases pulled : pullToken true c.skipGap h with ⟨⟨t, mid⟩, lt⟩
  have shorter : mid.rest.length < n := length ▸ Nat.lt_of_lt_of_le lt c.skipGap_length_le
  rw [pullExpression_eq h (congrArg Subtype.val pulled)] at read
  split at read
  · next kind =>
    cases read
    obtain ⟨first, cs, front, flat, scan⟩ := pullToken_of_isFlat pulled (by rw [kind]; rfl)
    have whole : c.rest = c.gap ++ first :: cs := front ▸ c.rest_eq
    rw [whole]
    exact .close c.all_gap (Cursor.isGap_of_skipGap front) flat (kind ▸ scan)
  · cases read
  · rcases behind : (pullExpression true mid t.kind.isSimpleValue).val with ⟨_ | ts, last⟩ <;>
      rw [behind] at read <;> cases read
    obtain ⟨-, pieces⟩ := List.forall_mem_append.1 pieces
    obtain ⟨piece, pieces⟩ := List.forall_mem_cons.1 pieces
    obtain ⟨first, cs, front, flat, scan⟩ :=
      pullToken_of_isFlat pulled (TokenKind.isFlat_of_isPiece piece)
    have whole : c.rest = c.gap ++ first :: cs := front ▸ c.rest_eq
    rw [whole, List.map_append, List.map_cons, Cursor.kinds_gapToken]
    exact .piece c.all_gap (Cursor.isGap_of_skipGap front) flat scan piece
      (ih _ shorter behind pieces rfl)

/-- A substitution goes on behind a piece of its path. -/
theorem pullExpression_piece {t : Token} {ts : List Token} {last : Cursor} (h : c.skipGap.rest ≠ [])
    (pulled : (pullToken true c.skipGap h).val = (t, next)) (isPiece : t.kind.isPiece = true)
    (behind : (pullExpression true next t.kind.isSimpleValue).val = (.ok ts, last)) :
    (pullExpression true c after).val
      = (.ok (c.gapToken c.skipGap after t.kind.isSimpleValue ++ t :: ts), last) := by
  rw [pullExpression_eq h pulled]
  split
  · next kind => rw [kind] at isPiece; cases isPiece
  · next kind => rw [kind] at isPiece; cases isPiece
  · rw [behind]

/-- Wherever the text stands, a substitution reads it. -/
theorem pulls (h : Enclosed rest after cs kinds) (hc : c.rest = cs) :
    ∃ expression next, (pullExpression true c after).val = (.ok expression, next)
      ∧ expression.map Placed.kind = kinds ∧ next.rest = rest := by
  induction h generalizing c with
  | close blank solid flat scan =>
    obtain ⟨front, -⟩ := Cursor.rest_skipGap hc blank solid
    have present : c.skipGap.rest ≠ [] := front ▸ List.cons_ne_nil _ _
    obtain ⟨kind, left⟩ := pullToken_flat front flat scan present
    rw [pullExpression_eq present rfl, kind]
    exact ⟨[], _, rfl, rfl, left⟩
  | piece blank solid flat scan isPiece more ih =>
    obtain ⟨front, rfl⟩ := Cursor.rest_skipGap hc blank solid
    have present : c.skipGap.rest ≠ [] := front ▸ List.cons_ne_nil _ _
    obtain ⟨rfl, left⟩ := pullToken_flat front flat scan present
    obtain ⟨ts, last, behind, rfl, back⟩ := ih left
    refine ⟨_, last, pullExpression_piece present rfl isPiece behind, ?_, back⟩
    rw [List.map_append, List.map_cons, Cursor.kinds_gapToken]

/-- In front of something else. -/
theorem swap (h : Enclosed (v ++ tail) after cs kinds) (stops : Stops tail) (stops' : Stops tail') :
    ∃ read, read ≠ [] ∧ cs = read ++ (v ++ tail)
      ∧ Enclosed (v ++ tail') after (read ++ (v ++ tail')) kinds := by
  induction h with
  | @close after gap cs first blank solid flat scan =>
    obtain ⟨read, whole, -⟩ := quotes_scanFlat true first cs
    rw [scan] at whole
    have whole : cs = (read ++ v) ++ tail := whole.trans (List.append_assoc ..).symm
    subst whole
    have scan' := scanFlat_swap scan (by rintro p ⟨⟩) stops stops' (by rintro ⟨_, _, ⟨⟩⟩)
    refine ⟨gap ++ first :: read, by simp, by simp, ?_⟩
    rw [List.append_assoc, List.cons_append, ← List.append_assoc]
    exact .close blank solid flat scan'
  | @piece after gap cs left first kind kinds blank solid flat scan isPiece more ih =>
    obtain ⟨read', -, rfl, more'⟩ := ih
    obtain ⟨read, whole, -⟩ := quotes_scanFlat true first cs
    rw [scan] at whole
    have whole : cs = (read ++ (read' ++ v)) ++ tail := by
      rw [whole]
      simp only [List.append_assoc]
    subst whole
    have noProblem := TokenKind.noProblem_of_isFlat (TokenKind.isFlat_of_isPiece isPiece)
    rw [← List.append_assoc read'] at scan more'
    have scan' := scanFlat_swap scan noProblem stops stops' (by
      rintro ⟨_, _, rfl⟩
      cases isPiece)
    refine ⟨gap ++ first :: (read ++ read'), by simp, by simp, ?_⟩
    have whole : Enclosed (v ++ tail') after _ _ := .piece blank solid flat scan' isPiece more'
    simpa only [List.append_assoc, List.cons_append] using whole

end Enclosed

/-! ### Single tokens -/

/-- Whether a substitution opens is told by what it starts with. -/
theorem Scan.openSubstitution?_swap {cs read s : List Char} {optional : Bool} (present : read ≠ [])
    (h : openSubstitution? cs = some (optional, read ++ s)) (s' : List Char) :
    ∃ mark, cs = '$' :: (mark ++ (read ++ s))
      ∧ openSubstitution? ('$' :: (mark ++ (read ++ s'))) = some (optional, read ++ s') := by
  unfold openSubstitution? at h
  split at h
  · cases h
    exact ⟨['\x7b', '?'], rfl, rfl⟩
  · next required =>
    cases h
    refine ⟨['\x7b'], rfl, ?_⟩
    cases read with
    | nil => exact absurd rfl present
    | cons r read =>
      show openSubstitution? ('$' :: '\x7b' :: r :: (read ++ s')) = _
      unfold openSubstitution?
      split
      · next h =>
        cases h
        exact absurd rfl (required _)
      · next h => cases h; rfl
      · next other => exact absurd rfl (other _)
  · cases h

/-- Where no substitution opens, none is read. -/
theorem pullToken_noExpression {comments : Bool} {c : Cursor} (h : c.rest ≠ [])
    (opens : openSubstitution? c.rest = none) (optional : Bool) (expression : List Token) :
    (pullToken comments c h).val.1.kind ≠ .substitution optional expression := by
  obtain ⟨text, place, line⟩ := c
  cases text with
  | nil => exact absurd rfl h
  | cons first cs =>
    rw [pullToken]
    split
    · next opens' => cases opens.symm.trans opens'
    · exact scanFlat_noExpression comments first cs optional expression

/-- The text starts with a token of this kind; `rest` is behind it. -/
inductive Reads (rest : List Char) : List Char → TokenKind → Prop
  | flat {cs : List Char} {first : Char} {kind : TokenKind} (flat : first ≠ '$')
      (scan : scanFlat true first cs = (kind, rest)) (noProblem : ∀ p, kind ≠ .problem p) :
      Reads rest (first :: cs) kind
  | substitution {cs inner : List Char} {optional : Bool} {kinds : List TokenKind}
      (opens : openSubstitution? cs = some (optional, inner)) (h : Enclosed rest false inner kinds) :
      Reads rest cs (.substitution optional (TokenKind.unplacedTokens kinds))

namespace Reads

variable {cs rest tail tail' v : List Char} {first : Char} {kind : TokenKind} {c next : Cursor}

/-- What the lexer reads. -/
theorem of_pull (h : c.rest ≠ []) (plain : (pullToken true c h).val.1.kind.Plain) :
    Reads (pullToken true c h).val.2.rest c.rest (pullToken true c h).val.1.kind.unplaced := by
  cases opens : openSubstitution? c.rest with
  | some opened =>
    obtain ⟨optional, inner⟩ := opened
    rw [pullToken_substitution opens h] at plain ⊢
    rcases behind : (pullExpression true (c.moveTo inner) false).val with ⟨p | expression, last⟩ <;>
      rw [behind] at plain
    · exact absurd rfl (plain.noProblem p)
    · exact .substitution opens (.of_pull behind (plain.pieces optional expression rfl))
  | none =>
    have noSubstitution := @pullToken_noExpression true c h opens
    rcases pulled : pullToken true c h with ⟨⟨t, next⟩, lt⟩
    rw [pulled] at plain noSubstitution
    have flat : t.kind.isFlat = true := by
      cases kind : t.kind with
      | substitution optional expression => exact absurd kind (noSubstitution _ _)
      | problem p => exact absurd kind (plain.noProblem p)
      | _ => rfl
    obtain ⟨first, cs, front, noDollar, scan⟩ := pullToken_of_isFlat pulled flat
    show Reads next.rest c.rest t.kind.unplaced
    rw [front, TokenKind.unplaced_of_noSubstitution noSubstitution]
    exact .flat noDollar scan plain.noProblem

/-- Wherever the text stands, the lexer reads the token. -/
theorem pulls (h : Reads rest cs kind) (hc : c.rest = cs) (present : c.rest ≠ []) :
    (pullToken true c present).val.1.kind.unplaced = kind
      ∧ (pullToken true c present).val.2.rest = rest := by
  cases h with
  | @flat cs first _ flat scan noProblem =>
    obtain ⟨pulled, left⟩ := pullToken_flat hc flat scan present
    have noSubstitution := scanFlat_noExpression true first cs
    rw [scan] at noSubstitution
    rw [pulled]
    exact ⟨TokenKind.unplaced_of_noSubstitution noSubstitution, left⟩
  | @substitution _ inner optional kinds opens h =>
    subst hc
    obtain ⟨expression, last, behind, rfl, back⟩ := h.pulls (rfl : (c.moveTo inner).rest = inner)
    rw [pullToken_substitution opens present, behind]
    exact ⟨rfl, back⟩

/-- In front of something else; a comment needs the end of its line. -/
theorem swap (h : Reads (v ++ tail) cs kind) (stops : Stops tail) (stops' : Stops tail')
    (line : EndsLine tail → EndsLine tail') :
    ∃ first read, cs = first :: (read ++ (v ++ tail))
      ∧ Reads (v ++ tail') (first :: (read ++ (v ++ tail'))) kind := by
  cases h with
  | @flat cs first _ flat scan noProblem =>
    obtain ⟨read, whole, -⟩ := quotes_scanFlat true first cs
    rw [scan] at whole
    refine ⟨first, read, congrArg (first :: ·) whole, .flat flat ?_ noProblem⟩
    rw [show cs = (read ++ v) ++ tail from whole.trans (List.append_assoc ..).symm] at scan
    rw [← List.append_assoc]
    exact scanFlat_swap scan noProblem stops stops' fun _ => line
  | @substitution _ inner optional kinds opens h =>
    obtain ⟨read, present, rfl, enclosed⟩ := h.swap stops stops'
    obtain ⟨mark, rfl, opens'⟩ := openSubstitution?_swap present opens (v ++ tail')
    refine ⟨'$', mark ++ read, by simp, ?_⟩
    rw [List.append_assoc]
    exact .substitution opens' enclosed

end Reads

/-! ### Tokens in a row -/

/-- The text falls into tokens of these kinds in front of `tail`; `after` and `last` tell whether a
value stands in front of it and in front of the tail. -/
inductive Runs (tail : List Char) (last : Bool) : Bool → List Char → List TokenKind → Prop
  | here {gap : List Char} (blank : gap.all Cursor.isGap = true) : Runs tail last last (gap ++ tail) []
  | step {after : Bool} {gap cs rest : List Char} {first : Char} {kind : TokenKind}
      {kinds : List TokenKind} (blank : gap.all Cursor.isGap = true)
      (solid : Cursor.isGap first = false) (reads : Reads rest (first :: cs) kind)
      (more : Runs tail last kind.isSimpleValue rest kinds) :
      Runs tail last after (gap ++ first :: cs)
        (blanksBetween after gap kind.isSimpleValue ++ ([kind].filter TokenKind.isItem ++ kinds))

namespace Runs

variable {tail tail' cs text front pre : List Char} {after last : Bool} {kinds : List TokenKind}
  {c : Cursor} {t : Token}

/-- In front of something else that stands as much apart. -/
theorem swap (h : Runs tail last after cs kinds) (stops : Stops tail) (stops' : Stops tail')
    (line : EndsLine tail → EndsLine tail') :
    ∃ read, cs = read ++ tail ∧ Runs tail' last after (read ++ tail') kinds := by
  induction h with
  | @here gap blank => exact ⟨gap, rfl, .here blank⟩
  | @step after gap cs rest first kind kinds blank solid reads more ih =>
    obtain ⟨v, rfl, more'⟩ := ih
    obtain ⟨first', read, front, reads'⟩ := reads.swap stops stops' line
    obtain ⟨rfl, rfl⟩ := List.cons.inj front
    refine ⟨gap ++ first :: (read ++ v), by simp, ?_⟩
    have whole : Runs tail' last after _ _ := .step blank solid reads' more'
    simpa only [List.append_assoc, List.cons_append] using whole

/-- A text that runs so has tokens of these kinds, up to a cursor in front of the tail. -/
theorem kinds_tokensFrom (h : Runs tail last after cs kinds) (hc : c.rest = cs) :
    ∃ d gap, d.rest = gap ++ tail ∧ gap.all Cursor.isGap = true
      ∧ (itemKinds (tokensFrom true c after)).map TokenKind.unplaced
        = kinds ++ (itemKinds (tokensFrom true d last)).map TokenKind.unplaced := by
  induction h generalizing c with
  | @here gap blank => exact ⟨c, gap, hc, blank, rfl⟩
  | @step after gap cs rest first kind kinds blank solid reads more ih =>
    obtain ⟨front, rfl⟩ := Cursor.rest_skipGap hc blank solid
    have present : c.skipGap.rest ≠ [] := front ▸ List.cons_ne_nil _ _
    obtain ⟨rfl, left⟩ := reads.pulls front present
    rw [TokenKind.isSimpleValue_unplaced] at ih
    obtain ⟨d, gap, hd, apart, same⟩ := ih left
    refine ⟨d, gap, hd, apart, ?_⟩
    rw [tokensFrom_eq present rfl, itemKinds_append, Cursor.itemKinds_gapToken, List.map_append,
      unplaced_blanksBetween, TokenKind.isSimpleValue_unplaced, List.append_assoc,
      List.append_assoc, ← same, unplaced_itemKinds_cons]

end Runs

namespace Runs

variable {tail cs rest post gap : List Char} {after last : Bool} {first : Char} {kind : TokenKind}
  {kinds behind : List TokenKind} {c next : Cursor} {t : Token}

/-- A sign in front. -/
theorem sign (isSign : punctuation? first = some kind) (more : Runs tail last false rest kinds)
    (blank : gap.all Cursor.isGap = true) :
    Runs tail last after (gap ++ first :: rest) (kind :: kinds) := by
  have sign := isSign_of_punctuation? isSign
  have noProblem : ∀ p, kind ≠ .problem p := by
    unfold punctuation? at isSign
    split at isSign <;> cases isSign <;> exact nofun
  have step : Runs tail last after (gap ++ first :: rest) _ :=
    .step blank sign.solid (.flat sign.flat (sign.scan rest) noProblem) (sign.apart.symm ▸ more)
  rw [sign.apart, List.filter_singleton, sign.item, blanksBetween, Bool.and_false, Bool.false_and,
    if_neg Bool.false_ne_true] at step
  exact step

theorem signFront (isSign : punctuation? first = some kind) (more : Runs tail last false rest kinds) :
    Runs tail last after (first :: rest) (kind :: kinds) :=
  show Runs tail last after ([] ++ first :: rest) (kind :: kinds) from more.sign isSign rfl

/-- The items of a text that runs up to its end. -/
theorem items (h : Runs [] last after cs kinds) (hc : c.rest = cs) :
    (itemKinds (tokensFrom true c after)).map TokenKind.unplaced = kinds := by
  obtain ⟨d, gap, left, blank, same⟩ := h.kinds_tokensFrom hc
  have nothing : d.skipGap.rest = [] := by
    rw [List.append_nil] at left
    exact List.dropWhile_eq_nil_iff.2 (left ▸ List.all_eq_true.1 blank)
  rw [same, tokensFrom, dif_pos nothing]
  exact List.append_nil kinds

/-- **The items of a text, and those behind it.** -/
theorem items_append (h : Runs tail last after cs kinds) (hc : c.rest = cs)
    (more : ∀ gap, gap.all Cursor.isGap = true → ∃ last', Runs [] last' last (gap ++ tail) behind) :
    (itemKinds (tokensFrom true c after)).map TokenKind.unplaced = kinds ++ behind := by
  obtain ⟨d, gap, left, blank, same⟩ := h.kinds_tokensFrom hc
  obtain ⟨last', runs⟩ := more gap blank
  rw [same, runs.items left]

/-- One more token in front. -/
theorem pull (h : c.skipGap.rest ≠ []) {lt : next.rest.length < c.skipGap.rest.length}
    (pulled : pullToken true c.skipGap h = ⟨(t, next), lt⟩) (plain : t.kind.Plain)
    (more : Runs tail last t.kind.isSimpleValue next.rest kinds) :
    ∃ kinds, Runs tail last after c.rest kinds := by
  have reads := Reads.of_pull (c := c.skipGap) h
  rw [pulled] at reads
  have reads : Reads next.rest c.skipGap.rest t.kind.unplaced := reads plain
  obtain ⟨first, cs, front⟩ : ∃ first cs, c.skipGap.rest = first :: cs :=
    List.exists_cons_of_ne_nil h
  rw [front] at reads
  rw [c.rest_eq, front]
  rw [← TokenKind.isSimpleValue_unplaced] at more
  exact ⟨_, .step c.all_gap (Cursor.isGap_of_skipGap front) reads more⟩

/-- A text without problems runs up to its end. -/
theorem exists_end (c : Cursor) (after : Bool)
    (plain : ∀ t ∈ tokensFrom true c after, t.kind.Plain) :
    ∃ kinds last, Runs [] last after c.rest kinds := by
  fun_induction tokensFrom true c after with
  | case1 c after b le h =>
    refine ⟨[], after, ?_⟩
    rw [c.rest_eq, show c.skipGap.rest = [] from h]
    exact .here c.all_gap
  | case2 c after b le h t next lt pulled shorter ih =>
    obtain ⟨kinds, last, runs⟩ := ih fun u hu => plain u (by simp [hu])
    obtain ⟨kinds, runs⟩ := runs.pull h pulled (plain t (by simp))
    exact ⟨kinds, last, runs⟩

/-- **A text runs up to any of its tokens.** -/
theorem exists_token {text front : List Char} (stands : c.At text front)
    (plain : ∀ t ∈ tokensFrom true c after, t.kind.Plain) (ht : t ∈ tokensFrom true c after)
    {pre : List Char} (whole : text = pre ++ tail) (starts : t.span.start = byteLength pre) :
    ∃ kinds last, Runs tail last after c.rest kinds := by
  -- the tail is what is left where the token starts
  have here {d : Cursor} {read : List Char} (at_ : d.At text read) (place : d.place = t.span.start) :
      d.rest = tail := by
    rw [← dropBytes_byteLength pre tail, ← whole, ← starts, ← place, at_.place]
    conv_rhs => rw [at_.rest]
    rw [dropBytes_byteLength]
  have behind {d : Cursor} {read : List Char} (at_ : d.At text read)
      (place : d.skipGap.place = t.span.start) (value : Bool) : Runs tail value value d.rest [] := by
    rw [d.rest_eq, here at_.skipGap place]
    exact .here d.all_gap
  fun_induction tokensFrom true c after generalizing front with
  | case1 =>
    rename_i c after b le h
    cases List.mem_singleton.1 ht
    exact ⟨[], after, behind stands rfl after⟩
  | case2 =>
    rename_i c after b le h u next lt pulled shorter ih
    have moved := pullToken_readBetween true c.skipGap h stands.skipGap
    rw [pulled] at moved
    obtain ⟨⟨read, moved⟩, span, -⟩ := moved
    obtain gap | front := List.mem_append.1 ht
    · -- the token is that of the blanks
      obtain ⟨-, place⟩ := Token.faithful_gapToken stands _ _ t gap
      have left : c.rest = tail := here stands (by rw [place])
      have here : Runs tail after after ([] ++ tail) [] := .here rfl
      exact ⟨[], after, left ▸ here⟩
    obtain rfl | more := List.mem_cons.1 front
    · exact ⟨[], after, behind stands (by rw [span]) after⟩
    · obtain ⟨kinds, last, runs⟩ := ih moved (fun t ht => plain t (by simp [ht])) more
      obtain ⟨kinds, runs⟩ := runs.pull h pulled (plain u (by simp))
      exact ⟨kinds, last, runs⟩

end Runs

end Hocon
