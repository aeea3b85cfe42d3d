import Hocon.Path.Expression
import Hocon.Proofs.Locality

/-!
# Texts with something behind them

A text falls into the same tokens when a blank and more text are put behind it, if it falls into
tokens at all: no scanner reads on over a blank, save that of comments, which stops at the line's
end only.  So the items of two texts on lines one after the other are those of the first, a line
end, and those of the second (`lexed_append`).
-/

namespace Hocon

open Text

namespace Scan

/-! ### Tokens that make items -/

theorem isItem_scanBare (comments : Bool) (taken cs : List Char) :
    (scanBare comments taken cs).1.isItem = true := by
  induction cs generalizing taken with
  | nil => rfl
  | cons c cs ih =>
    rw [scanBare]
    split
    · rfl
    · split
      · rfl
      · exact ih _

/-- What is scanned is an item where no comment starts. -/
theorem isItem_scanFlat_of_closed {comments : Bool} {first : Char} {cs : List Char}
    (closed : opensComment comments (first :: cs) = false) :
    (scanFlat comments first cs).1.isItem = true := by
  unfold scanFlat
  rw [if_neg (by rw [closed]; exact Bool.false_ne_true)]
  split
  · next kind h =>
    unfold punctuation? at h
    split at h <;> cases h <;> rfl
  · split
    · unfold scanString
      simp only []
      split <;> split <;> rfl
    · split
      · unfold scanPlus
        split <;> rfl
      · split
        · unfold scanNumber
          simp only []
          split
          · rfl
          · split <;> rfl
        · split
          · rfl
          · split
            · rfl
            · exact isItem_scanBare comments [first] cs

/-- What is scanned is an item, if it is no comment. -/
theorem isItem_scanFlat {comments : Bool} {first : Char} {cs : List Char}
    (noComment : ∀ text slashes, (scanFlat comments first cs).1 ≠ .comment text slashes) :
    (scanFlat comments first cs).1.isItem = true := by
  cases opens : opensComment comments (first :: cs) with
  | false => exact isItem_scanFlat_of_closed opens
  | true =>
    unfold scanFlat at noComment
    rw [if_pos opens] at noComment
    exact absurd rfl (noComment _ _)

end Scan

/-! ### Whole texts -/

/-- Whether the token is neither a substitution nor a problem. -/
def TokenKind.isFlat : TokenKind → Bool
  | substitution _ _ => false
  | problem _ => false
  | _ => true

theorem TokenKind.noProblem_of_isFlat {kind : TokenKind} (h : kind.isFlat = true)
    (p : LexicalProblem) : kind ≠ .problem p := by
  rintro rfl
  cases h

/-- A flat token is scanned from its first character, which is no blank. -/
theorem pullToken_of_isFlat {c : Cursor} {t : Token} {next : Cursor}
    {lt : next.rest.length < c.rest.length} {h : c.rest ≠ []}
    (pulled : pullToken true c h = ⟨(t, next), lt⟩) (flat : t.kind.isFlat = true) :
    ∃ first cs, c.rest = first :: cs ∧ first ≠ '$'
      ∧ Scan.scanFlat true first cs = (t.kind, next.rest) := by
  obtain ⟨text, place, line⟩ := c
  cases text with
  | nil => exact absurd rfl h
  | cons first cs =>
    rw [pullToken] at pulled
    split at pulled
    · split at pulled <;> cases pulled <;> cases flat
    · cases pulled
      refine ⟨first, cs, rfl, ?_, rfl⟩
      rintro rfl
      cases flat

open Scan in
/-- **A text with another one behind it** falls into the tokens of the first, and those that the
second falls into behind blanks. -/
theorem lexed_append {c : Cursor} {after : Bool} {tail : List Char} {kinds : List TokenKind}
    (stops : Stops tail)
    (ends : ∀ after gap, gap.all Cursor.isGap = true → Lexed after (gap ++ tail) kinds)
    (flat : ∀ t ∈ tokensFrom true c after, t.kind.isFlat = true)
    (line : (∃ t ∈ tokensFrom true c after, ∃ text slashes, t.kind = .comment text slashes) →
      EndsLine tail) :
    Lexed after (c.rest ++ tail) (itemKinds (tokensFrom true c after) ++ kinds) := by
  fun_induction tokensFrom true c after with
  | case1 c after b le h =>
    refine ends after c.rest ?_
    exact List.all_eq_true.2 (List.dropWhile_eq_nil_iff.1 h)
  | case2 c after b le h t next lt pulled shorter ih =>
    have flat_t : t.kind.isFlat = true := flat t (by simp)
    obtain ⟨first, cs, front, noDollar, scan⟩ := pullToken_of_isFlat pulled flat_t
    have blanks : c.gap.all Cursor.isGap = true := c.all_gap
    have whole : c.rest = c.gap ++ first :: cs := front ▸ c.rest_eq
    have solid : Cursor.isGap first = false := Cursor.isGap_of_skipGap front
    have noProblem := TokenKind.noProblem_of_isFlat flat_t
    have item (noComment : ∀ text slashes, t.kind ≠ .comment text slashes) : t.kind.isItem = true := by
      rw [show t.kind = (scanFlat true first cs).1 by rw [scan]] at noComment ⊢
      exact isItem_scanFlat noComment
    have alone : scanFlat true first (cs ++ []) = (t.kind, next.rest ++ []) := by simpa using scan
    have scan := scanFlat_swap alone noProblem stops_nil stops
      fun comment _ => line ⟨t, by simp, comment⟩
    have more := ih (fun u hu => flat u (by simp [hu])) fun ends => by
      obtain ⟨u, hu, comment⟩ := ends
      exact line ⟨u, by simp [hu], comment⟩
    show Lexed after (c.rest ++ tail)
      (itemKinds (c.gapToken b after t.kind.isSimpleValue ++ t :: _) ++ kinds)
    rw [whole, List.append_assoc, List.cons_append]
    by_cases comment : ∃ text slashes, t.kind = .comment text slashes
    · obtain ⟨text, slashes, kind⟩ := comment
      have value : t.kind.isSimpleValue = false := by rw [kind]; rfl
      rw [value] at more ⊢
      rw [kind] at scan
      rw [Cursor.gapToken, Bool.and_false, Bool.false_and, if_neg Bool.false_ne_true, List.nil_append,
        itemKinds_cons, kind]
      exact .comment blanks solid noDollar scan more
    · have item : t.kind.isItem = true := item fun text slashes kind => comment ⟨text, slashes, kind⟩
      rw [Cursor.gapToken]
      split
      · next between =>
        simp only [Bool.and_eq_true, Bool.not_eq_true', List.isEmpty_eq_false_iff] at between
        obtain ⟨⟨rfl, value⟩, present⟩ := between
        rw [value] at more ⊢
        rw [List.singleton_append, itemKinds_cons, itemKinds_cons, if_pos item]
        exact .spaced blanks present solid noDollar scan item value more
      · next together =>
        rw [List.nil_append, itemKinds_cons, if_pos item]
        refine .token blanks solid noDollar scan item (fun value simple => ?_) more
        simpa [value, simple] using together

/-! ### Texts line by line -/

/-- The items of a HOCON text. -/
def Document.itemsOf (text : String) : List Item :=
  Item.ofTokens (Token.ofText .conf text.toList)

variable {text : String} {rest : List Char} {kinds : List TokenKind}

theorem kinds_itemsOf (text : String) : (Document.itemsOf text).map Item.kind
    = itemKinds (tokensFrom true (.ofText text.toList) false) := by
  rw [Document.itemsOf, kinds_ofTokens, Token.ofText, itemKinds_cons]
  rfl

/-- What is no item is neither a substitution nor a problem. -/
theorem isFlat_of_items (flat : ∀ t ∈ Document.itemsOf text, t.kind.isFlat = true) :
    ∀ t ∈ tokensFrom true (.ofText text.toList) false, t.kind.isFlat = true := by
  intro t ht
  have kinds : ∀ k ∈ itemKinds (tokensFrom true (.ofText text.toList) false), k.isFlat = true := by
    rw [← kinds_itemsOf]
    exact List.forall_mem_map.2 flat
  by_cases item : t.kind.isItem = true
  · exact kinds _ (List.mem_filter.2 ⟨List.mem_map_of_mem ht, item⟩)
  · cases kind : t.kind <;> first | rfl | (rw [kind] at item; exact absurd rfl item)

/-- A text falls into its tokens. -/
theorem lexed_text (flat : ∀ t ∈ Document.itemsOf text, t.kind.isFlat = true) :
    Lexed false text.toList ((Document.itemsOf text).map Item.kind) := by
  have whole : Lexed false (text.toList ++ [])
      (itemKinds (tokensFrom true (.ofText text.toList) false) ++ []) :=
    lexed_append Scan.stops_nil (fun _ gap blank => (List.append_nil gap).symm ▸ .stop blank)
      (isFlat_of_items flat) fun _ => by rintro b ⟨⟩
  rwa [List.append_nil, List.append_nil, ← kinds_itemsOf] at whole

/-- A text with others on the lines behind it. -/
theorem lexed_line (flat : ∀ t ∈ Document.itemsOf text, t.kind.isFlat = true)
    (more : Lexed false rest kinds) : Lexed false (text.toList ++ '\n' :: rest)
      ((Document.itemsOf text).map Item.kind ++ .newline :: kinds) := by
  have stops : Scan.Stops ('\n' :: rest) := by
    rintro b ⟨⟩
    exact .inl (by decide)
  rw [kinds_itemsOf]
  exact lexed_append stops (fun _ gap blank => .sign rfl blank more) (isFlat_of_items flat) fun _ => by
    rintro b ⟨⟩
    rfl

/-! ### Keys -/

/-- The text is a key: it spells a path, and no include statement. -/
structure Document.IsKey (text : String) (key : Path) : Prop where
  spelled : Path.ofTokens? (Path.expressionTokens text.toList) = .ok key
  noInclude : ∀ kind ∈ (Path.expressionTokens text.toList).head?, kind.isInclude = false

/-- Whether the token may be part of a key. -/
def TokenKind.isPiece : TokenKind → Bool
  | value _ => true
  | bare _ => true
  | _ => false

theorem isPiece_of_addTokens {d d' : Path.Draft} (h : Path.addTokens d kinds = .ok d') :
    ∀ k ∈ kinds, k.isPiece = true := by
  induction kinds generalizing d with
  | nil => exact nofun
  | cons kind kinds ih =>
    rw [Path.addTokens] at h
    split at h
    · next added =>
      refine List.forall_mem_cons.2 ⟨?_, ih h⟩
      unfold Path.addToken at added
      split at added <;> first | rfl | cases added
    · cases h

theorem isPiece_of_ofTokens? {key : Path} (h : Path.ofTokens? kinds = .ok key) :
    ∀ k ∈ kinds, k.isPiece = true := by
  unfold Path.ofTokens? at h
  split at h
  · cases h
  · next added => exact isPiece_of_addTokens added

namespace Document.IsKey

variable {key : Path}

theorem pieces (h : IsKey text key) :
    ∀ k ∈ Path.expressionTokens text.toList, k.isPiece = true := isPiece_of_ofTokens? h.spelled

/-- All tokens of a key but the ends of its text are pieces of a path. -/
theorem token (h : IsKey text key) :
    ∀ t ∈ tokensFrom true (.ofText text.toList) false, t.kind ≠ .stop → t.kind ≠ .start →
      t.kind.isPiece = true := by
  intro t ht noStop noStart
  refine h.pieces t.kind (List.mem_filterMap.2 ⟨t, .tail _ ht, ?_⟩)
  cases kind : t.kind <;> first | rfl | exact absurd kind noStop | exact absurd kind noStart

/-- The items of a key are its tokens. -/
theorem items_eq (h : IsKey text key) :
    (itemsOf text).map Item.kind = Path.expressionTokens text.toList := by
  have pieces := h.token
  rw [kinds_itemsOf, Path.expressionTokens, Token.ofText, List.filterMap_cons]
  show _ = List.filterMap _ (tokensFrom true (.ofText text.toList) false)
  generalize tokensFrom true (.ofText text.toList) false = ts at pieces ⊢
  induction ts with
  | nil => rfl
  | cons t ts ih =>
    obtain ⟨piece, pieces⟩ := List.forall_mem_cons.1 pieces
    rw [itemKinds_cons, List.filterMap_cons, ih pieces]
    cases kind : t.kind <;> rw [kind] at piece <;> first
      | rfl
      | exact absurd (piece (by rintro ⟨⟩) (by rintro ⟨⟩)) (by rintro ⟨⟩)

/-- A key in front of an opening brace falls into its tokens. -/
theorem lexed (h : IsKey text key) (more : Lexed false rest kinds) :
    Lexed false (text.toList ++ ' ' :: '\x7b' :: rest)
      (Path.expressionTokens text.toList ++ .openBrace :: kinds) := by
  have stops : Scan.Stops (' ' :: '\x7b' :: rest) := by
    rintro b ⟨⟩
    exact .inl (by decide)
  have flat : ∀ t ∈ tokensFrom true (.ofText text.toList) false, t.kind.isFlat = true := by
    intro t ht
    have piece := h.token t ht
    cases kind : t.kind <;> rw [kind] at piece <;> first
      | rfl
      | exact absurd (piece (by rintro ⟨⟩) (by rintro ⟨⟩)) (by rintro ⟨⟩)
  rw [← h.items_eq, kinds_itemsOf]
  refine lexed_append stops (fun after gap blank => ?_) flat ?_
  · have apart : (gap ++ [' ']).all Cursor.isGap = true := by
      rw [List.all_append, blank]
      rfl
    have brace : Lexed after ((gap ++ [' ']) ++ '\x7b' :: rest) (.openBrace :: kinds) :=
      .sign rfl apart more
    rwa [List.append_assoc] at brace
  · rintro ⟨t, ht, content, slashes, kind⟩
    have piece := h.token t ht
    rw [kind] at piece
    exact absurd (piece nofun nofun) nofun

end Document.IsKey

end Hocon
