import Hocon.Proofs.Swapping
import Mathlib.Data.List.DropRight
import Mathlib.Data.List.ReduceOption

/-!
# The comments above a line

What comments the first token of a line takes is told by the lines above it: the longest run of
lines right above it that hold a comment and nothing else (`commentsAbove`).  The reader finds them
in one pass, with a block of comments that is open and a mark for what stands on the line already.
Wherever a line starts, the open block holds just these comments (`exists_itemsFrom_eq`), and the
tokens behind the first one of a line take none (`headed_itemsOf`).
-/

namespace Hocon

/-! ### Lines of tokens -/

/-- Whether the token is the end of a line. -/
def TokenKind.endsLine : TokenKind → Bool
  | newline => true
  | _ => false

/-- Whether the token is a comment. -/
def TokenKind.isComment : TokenKind → Bool
  | comment _ _ => true
  | _ => false

/-- Whether such a token stands on its line as an item. -/
def TokenKind.standsOnLine (kind : TokenKind) : Bool := kind.isItem && !kind.endsLine

/-- The tokens of each line, without those that end it. -/
def linesOf (ts : List Token) : List (List Token) := ts.splitOnP fun t => t.kind.endsLine

/-- The text of a comment that has its line to itself. -/
def loneComment? : List Token → Option String
  | [⟨.comment text _, _, _⟩] => some text
  | _ => none

/-- The comments right above the line behind these tokens: the texts of the longest run of lines
there that hold a comment and nothing else. -/
def commentsAbove (before : List Token) : List String :=
  (((linesOf before).dropLast.map loneComment?).rtakeWhile Option.isSome).reduceOption

/-- Tokens up to where a line starts, line by line. -/
inductive WholeLines : List Token → Prop
  | nil : WholeLines []
  | snoc {before line : List Token} {t : Token} (h : WholeLines before)
      (hline : ∀ u ∈ line, u.kind.endsLine = false) (ht : t.kind = .newline) :
      WholeLines (before ++ (line ++ [t]))

theorem TokenKind.eq_newline_of_endsLine {kind : TokenKind} (h : kind.endsLine = true) :
    kind = .newline := by
  cases kind <;> first | rfl | cases h

/-- A line starts at the front and behind the end of another one. -/
theorem wholeLines_of_getLast? {before : List Token}
    (h : ∀ t ∈ before.getLast?, t.kind = .newline) : WholeLines before := by
  obtain ⟨n, hn⟩ : ∃ n, before.length = n := ⟨_, rfl⟩
  induction n using Nat.strongRecOn generalizing before with
  | ind n ih =>
    rcases List.eq_nil_or_concat before with rfl | ⟨front, t, rfl⟩
    · exact .nil
    · have newline : t.kind = .newline := h t (by simp)
      let inLine : Token → Bool := fun u => !u.kind.endsLine
      have parted : front.rdropWhile inLine ++ front.rtakeWhile inLine = front :=
        List.rdropWhile_append_rtakeWhile
      have shorter : (front.rdropWhile inLine).length < n := by
        have := (List.rdropWhile_prefix inLine front).length_le
        rw [← hn, List.concat_eq_append, List.length_append, List.length_singleton]
        omega
      rw [List.concat_eq_append, ← parted, List.append_assoc]
      refine .snoc (ih _ shorter (fun u hu => ?_) rfl) (fun u hu => ?_) newline
      · have present : front.rdropWhile inLine ≠ [] := by
          rintro none
          rw [none] at hu
          cases hu
        have last := List.rdropWhile_last_not inLine front present
        rw [List.getLast?_eq_some_getLast present, Option.mem_some_iff] at hu
        rw [hu] at last
        exact TokenKind.eq_newline_of_endsLine (by simpa [inLine] using last)
      · simpa [inLine] using List.mem_rtakeWhile_imp hu

namespace WholeLines

variable {before line : List Token} {t : Token}

/-- The lines of more tokens come behind. -/
theorem exists_linesOf_append (h : WholeLines before) :
    ∃ lines, ∀ ts, linesOf (before ++ ts) = lines ++ linesOf ts := by
  induction h with
  | nil => exact ⟨[], fun ts => rfl⟩
  | @snoc before line t h hline ht ih =>
    obtain ⟨lines, eq⟩ := ih
    refine ⟨lines ++ [line], fun ts => ?_⟩
    have first : linesOf (line ++ t :: ts) = line :: linesOf ts :=
      List.splitOnP_append_cons_of_forall_mem (by simpa using hline) t (by rw [ht]; rfl) ts
    rw [List.append_assoc, List.append_assoc, List.singleton_append, eq, first, List.append_assoc,
      List.singleton_append]

/-- A line that holds a comment and nothing else adds to those above it, and any other has none
above it. -/
theorem commentsAbove_snoc (h : WholeLines before) (hline : ∀ u ∈ line, u.kind.endsLine = false)
    (ht : t.kind = .newline) :
    commentsAbove (before ++ (line ++ [t])) =
      match loneComment? line with
      | some text => commentsAbove before ++ [text]
      | none => [] := by
  obtain ⟨lines, eq⟩ := h.exists_linesOf_append
  have all : linesOf (before ++ (line ++ [t])) = (lines ++ [line]) ++ [[]] := by
    rw [eq, show linesOf (line ++ [t]) = line :: linesOf [] from
      List.splitOnP_append_cons_of_forall_mem (by simpa using hline) t (by rw [ht]; rfl) []]
    rw [List.append_assoc]
    rfl
  have above : linesOf before = lines ++ [[]] := by
    have whole := eq []
    rwa [List.append_nil] at whole
  rw [commentsAbove, commentsAbove, all, above, List.dropLast_concat, List.dropLast_concat,
    List.map_append, List.map_singleton, List.rtakeWhile_concat]
  cases loneComment? line with
  | none => rfl
  | some text =>
    rw [Option.isSome_some, if_pos rfl, List.reduceOption_append]
    rfl

end WholeLines

/-! ### One pass over the tokens -/

/-- The items of tokens from where a line starts. -/
abbrev itemsFrom (block : Option CommentBlock) (ts : List Token) : List Item :=
  attachComments block (dropSideComments false ts)

/-- The items of tokens behind another one on its line. -/
abbrev itemsBeside (ts : List Token) : List Item := attachComments none (dropSideComments true ts)

/-- The comments that the next token takes. -/
def openComments (block : Option CommentBlock) : List String := block.elim [] (·.comments)

variable {block : Option CommentBlock} {t : Token} {ts line : List Token}

theorem itemsFrom_newline (ht : t.kind = .newline) (block : Option CommentBlock) (ts : List Token) :
    itemsFrom block (t :: ts) = .ofToken t [] ::
      itemsFrom (block.map fun b => ⟨if b.afterNewline then [] else b.comments, true⟩) ts := by
  rw [itemsFrom, dropSideComments, ht]
  cases block <;> simp only [attachComments, ht, Option.map]

theorem itemsFrom_comment {text : String} {slashes : Bool} (ht : t.kind = .comment text slashes)
    (block : Option CommentBlock) (ts : List Token) :
    itemsFrom block (t :: ts) = itemsFrom (some ⟨openComments block ++ [text], false⟩) ts := by
  rw [itemsFrom, dropSideComments, ht]
  cases block <;> simp only [Bool.false_eq_true, if_false, attachComments, ht] <;> rfl

theorem itemsBeside_newline (ht : t.kind = .newline) (ts : List Token) :
    itemsBeside (t :: ts) = .ofToken t [] :: itemsFrom none ts := by
  rw [itemsBeside, dropSideComments, ht]
  simp only [attachComments, ht]

/-- Behind such a token comments are dropped up to the end of the line. -/
theorem dropSideComments_item (stands : t.kind.standsOnLine = true) (midLine : Bool)
    (ts : List Token) : dropSideComments midLine (t :: ts) = t :: dropSideComments true ts := by
  rw [dropSideComments]
  cases kind : t.kind <;> rw [kind] at stands <;> first | rfl | cases stands

theorem attachComments_item (stands : t.kind.standsOnLine = true) (block : Option CommentBlock)
    (ts : List Token) :
    attachComments block (t :: ts) = .ofToken t (openComments block) :: attachComments none ts := by
  cases block <;> cases kind : t.kind <;> rw [kind] at stands <;>
    first | (simp only [attachComments, kind]; rfl) | cases stands

/-- The first token on a line takes the comments that are open. -/
theorem itemsFrom_item (stands : t.kind.standsOnLine = true) (block : Option CommentBlock)
    (ts : List Token) :
    itemsFrom block (t :: ts) = .ofToken t (openComments block) :: itemsBeside ts := by
  rw [itemsFrom, dropSideComments_item stands, attachComments_item stands]

theorem itemsBeside_item (stands : t.kind.standsOnLine = true) (ts : List Token) :
    itemsBeside (t :: ts) = .ofToken t [] :: itemsBeside ts := by
  rw [itemsBeside, dropSideComments_item stands, attachComments_item stands]
  rfl

/-- Comments behind another token, and the ends of a text, leave nothing. -/
theorem itemsBeside_skip (noItem : t.kind.isItem = false) (ts : List Token) :
    itemsBeside (t :: ts) = itemsBeside ts := by
  rw [itemsBeside, dropSideComments]
  cases kind : t.kind <;> rw [kind] at noItem <;>
    first | cases noItem; done | simp only [if_true, attachComments, kind]

/-- The tokens behind another one on its line go on as they are. -/
theorem exists_itemsBeside_eq (hline : ∀ u ∈ line, u.kind.endsLine = false) :
    ∃ front, ∀ ts, itemsBeside (line ++ ts) = front ++ itemsBeside ts := by
  induction line with
  | nil => exact ⟨[], fun ts => rfl⟩
  | cons t line ih =>
    obtain ⟨inLine, hline⟩ := List.forall_mem_cons.1 hline
    obtain ⟨front, eq⟩ := ih hline
    cases item : t.kind.isItem with
    | false => exact ⟨front, fun ts => (itemsBeside_skip item _).trans (eq ts)⟩
    | true =>
      have stands : t.kind.standsOnLine = true := by rw [TokenKind.standsOnLine, item, inLine]; rfl
      exact ⟨.ofToken t [] :: front, fun ts => by
        rw [List.cons_append, itemsBeside_item stands, eq, List.cons_append]⟩

/-- Tokens as they stand between the ends of a text: a comment ends with its line. -/
structure Inner (ts : List Token) : Prop where
  kinds : ∀ t ∈ ts, t.kind.isItem = true ∨ t.kind.isComment = true
  chain : ts.IsChain fun t u => t.kind.isComment = true → u.kind = .newline

theorem Inner.of_append {us : List Token} (h : Inner (ts ++ us)) : Inner ts ∧ Inner us :=
  ⟨⟨fun t ht => h.kinds t (List.mem_append_left _ ht), (List.isChain_append.1 h.chain).1⟩,
    fun t ht => h.kinds t (List.mem_append_right _ ht), (List.isChain_append.1 h.chain).2.1⟩

/-- **Where a line starts, the open block holds the comments above it.** -/
theorem exists_itemsFrom_eq {before : List Token} (lines : WholeLines before)
    (inner : Inner before) :
    ∃ front block, (∀ ts, itemsFrom none (before ++ ts) = front ++ itemsFrom block ts)
      ∧ openComments block = commentsAbove before ∧ ∀ b ∈ block, b.afterNewline = true := by
  induction lines with
  | nil => exact ⟨[], none, fun ts => rfl, rfl, nofun⟩
  | @snoc before line t h hline ht ih =>
    obtain ⟨inner, innerLine⟩ := inner.of_append
    obtain ⟨front, block, eq, comments, ended⟩ := ih inner
    rw [h.commentsAbove_snoc hline ht]
    -- what is on the line decides what becomes of the open block
    cases line with
    | nil =>
      -- a blank line
      refine ⟨front ++ [.ofToken t []],
        block.map fun b => ⟨if b.afterNewline then [] else b.comments, true⟩, fun ts => ?_, ?_, ?_⟩
      · simp only [List.append_assoc, List.nil_append, List.singleton_append, eq,
          itemsFrom_newline ht]
      · cases block with
        | none => rfl
        | some b =>
          rw [Option.map_some, ended b rfl]
          rfl
      · intro b hb
        obtain ⟨_, -, rfl⟩ := Option.map_eq_some_iff.1 hb
        rfl
    | cons u line =>
      obtain ⟨inLine, hline⟩ := List.forall_mem_cons.1 hline
      rcases innerLine.kinds u List.mem_cons_self with item | comment
      · -- something stands on the line, and takes what is open
        obtain ⟨beside, eq'⟩ := exists_itemsBeside_eq hline
        have stands : u.kind.standsOnLine = true := by
          rw [TokenKind.standsOnLine, item, inLine]
          rfl
        refine ⟨front ++ .ofToken u (openComments block) :: (beside ++ [.ofToken t []]), none,
          fun ts => ?_, ?_, nofun⟩
        · simp only [List.append_assoc, List.cons_append, List.nil_append, eq,
            itemsFrom_item stands, eq', itemsBeside_newline ht]
        · have other : loneComment? (u :: line) = none := by
            obtain ⟨kind, span, n⟩ := u
            cases kind <;> first | rfl | cases item
          rw [other]
          rfl
      · -- a comment, and so nothing else
        obtain ⟨text, slashes, kind⟩ : ∃ text slashes, u.kind = .comment text slashes := by
          cases kind : u.kind <;> rw [kind] at comment <;> first | exact ⟨_, _, rfl⟩ | cases comment
        have alone : line = [] := by
          cases line with
          | nil => rfl
          | cons w line =>
            have next := (List.isChain_cons_cons.1 innerLine.chain).1 comment
            have inLine := hline w List.mem_cons_self
            rw [next] at inLine
            cases inLine
        subst alone
        refine ⟨front ++ [.ofToken t []], some ⟨openComments block ++ [text], true⟩, fun ts => ?_,
          ?_, ?_⟩
        · simp only [List.append_assoc, List.cons_append, List.nil_append, eq,
            itemsFrom_comment kind, itemsFrom_newline ht, Option.map_some, Bool.false_eq_true,
            if_false]
        · have lone : loneComment? [u] = some text := by
            obtain ⟨k, span, n⟩ := u
            cases kind
            rfl
          rw [lone, ← comments]
          rfl
        · rintro _ ⟨⟩
          rfl

/-- Items that start with one that has these comments above it, and have no others on its line. -/
def Headed (comments : List String) (us : List Item) : Prop :=
  ∃ t more, us = t :: more ∧ t.comments = comments
    ∧ ∀ s r, more = s ++ r → (∀ u ∈ s, u.isNewline = false) → ∀ u ∈ s, u.comments = []

theorem headed_beside (ts : List Token) :
    ∀ s r, itemsBeside ts = s ++ r → (∀ u ∈ s, u.isNewline = false) → ∀ u ∈ s, u.comments = [] := by
  induction ts with
  | nil =>
    intro s r eq _
    rw [(List.nil_eq_append_iff.1 eq).1]
    exact List.forall_mem_nil _
  | cons t ts ih =>
    intro s r eq inLine
    cases item : t.kind.isItem with
    | false => exact ih s r ((itemsBeside_skip item ts).symm.trans eq) inLine
    | true =>
      cases s with
      | nil => exact List.forall_mem_nil _
      | cons u s =>
        obtain ⟨here, others⟩ := List.forall_mem_cons.1 inLine
        cases line : t.kind.endsLine with
        | true =>
          have newline := TokenKind.eq_newline_of_endsLine line
          rw [itemsBeside_newline newline] at eq
          obtain ⟨rfl, -⟩ := List.cons.inj eq
          rw [Item.isNewline, Item.ofToken, newline] at here
          cases here
        | false =>
          rw [itemsBeside_item (by rw [TokenKind.standsOnLine, item, line]; rfl)] at eq
          obtain ⟨rfl, behind⟩ := List.cons.inj eq
          exact List.forall_mem_cons.2 ⟨rfl, ih s r behind others⟩

/-- The first token of a line has the comments above the line. -/
theorem headed_itemsFrom {before rest : List Token} {t : Token} (lines : WholeLines before)
    (inner : Inner before) (stands : t.kind.standsOnLine = true) :
    Headed (commentsAbove before)
      ((itemsFrom none (before ++ t :: rest)).drop (itemKinds before).length) := by
  obtain ⟨front, block, eq, comments, -⟩ := exists_itemsFrom_eq lines inner
  have kinds : front.map Item.kind = itemKinds before := by
    have alone := eq []
    rw [List.append_nil, show itemsFrom block [] = [] from rfl, List.append_nil] at alone
    rw [← alone]
    exact kinds_ofTokens before
  rw [eq, ← kinds, List.length_map, List.drop_left, itemsFrom_item stands]
  exact ⟨_, _, rfl, comments, headed_beside rest⟩

/-! ### The tokens of a text -/

open Scan in
/-- What is pulled is an item, or a comment up to the end of its line. -/
theorem isItem_of_pullToken {c : Cursor} {t : Token} {next : Cursor}
    {lt : next.rest.length < c.rest.length} {h : c.rest ≠ []}
    (pulled : pullToken true c h = ⟨(t, next), lt⟩) :
    t.kind.isItem = true ∨ t.kind.isComment = true ∧ EndsLine next.rest := by
  cases flat : t.kind.isFlat with
  | false => cases kind : t.kind <;> rw [kind] at flat <;> first | exact .inl rfl | cases flat
  | true =>
    obtain ⟨first, cs, -, -, scan⟩ := pullToken_of_isFlat pulled flat
    cases opens : opensComment true (first :: cs) with
    | false =>
      have item := isItem_scanFlat_of_closed opens
      rw [scan] at item
      exact .inl item
    | true =>
      unfold scanFlat at scan
      rw [if_pos opens] at scan
      obtain ⟨kind, rest⟩ := Prod.mk.inj scan
      refine .inr ⟨by rw [← kind]; rfl, ?_⟩
      rw [← rest]
      intro b hb
      have stop := List.head?_dropWhile_not (· != '\n') (if (first == '/') = true then cs.tail else cs)
      have hb : ((if (first == '/') = true then cs.tail else cs).dropWhile (· != '\n')).head? = some b :=
        hb
      rw [hb] at stop
      simpa using stop

/-- Where a line ends, its end is the next token, or that of the text. -/
theorem head?_tokensFrom {c : Cursor} (h : Scan.EndsLine c.rest) :
    ∀ u ∈ (tokensFrom true c false).head?, u.kind = .newline ∨ u.kind = .stop := by
  intro u hu
  cases rest : c.rest with
  | nil =>
    have ends : c.skipGap.rest = [] := by
      rw [Cursor.skipGap, Cursor.rest_moveTo, rest]
      rfl
    rw [tokensFrom, dif_pos ends] at hu
    cases hu
    exact .inr rfl
  | cons b cs =>
    rw [rest] at h
    obtain rfl : b = '\n' := bne_eq_false_iff_eq.1 (h b rfl)
    obtain ⟨t, next, eq, kind, -⟩ := exists_tokensFrom_gap
      (show c.rest = [] ++ '\n' :: cs from rest) rfl (by decide) (by decide)
      (show Scan.scanFlat true '\n' cs = (.newline, cs) from rfl) false
    rw [eq, Cursor.gapToken_eq_nil _ _ (by rintro ⟨⟩), List.nil_append] at hu
    cases hu
    exact .inl kind

/-- The tokens of a text, and its end. -/
theorem exists_inner_tokensFrom (c : Cursor) (after : Bool) :
    ∃ ts stop, tokensFrom true c after = ts ++ [stop] ∧ stop.kind = .stop ∧ Inner ts := by
  fun_induction tokensFrom true c after with
  | case1 => exact ⟨[], _, rfl, rfl, List.forall_mem_nil _, .nil⟩
  | case2 c after b le h t next lt pulled shorter ih =>
    obtain ⟨ts, stop, eq, hstop, inner⟩ := ih
    have whole : Inner (t :: ts) := by
      refine ⟨List.forall_mem_cons.2 ⟨(isItem_of_pullToken pulled).imp_right And.left, inner.kinds⟩,
        List.isChain_cons.2 ⟨fun u hu comment => ?_, inner.chain⟩⟩
      have line : Scan.EndsLine next.rest := by
        rcases isItem_of_pullToken pulled with item | ⟨-, line⟩
        · cases kind : t.kind <;> rw [kind] at item comment <;>
            first | cases item; done | cases comment
        · exact line
      have noValue : t.kind.isSimpleValue = false := by
        cases kind : t.kind <;> rw [kind] at comment <;> first | rfl | cases comment
      have front := head?_tokensFrom line
      rw [← noValue, eq, List.head?_append, Option.mem_def.1 hu, Option.some_or] at front
      refine (front u rfl).resolve_right fun stops => ?_
      rcases inner.kinds u (List.mem_of_mem_head? hu) with item | item <;> rw [stops] at item <;>
        cases item
    rw [eq]
    unfold Cursor.gapToken
    split
    · refine ⟨_ :: t :: ts, stop, rfl, hstop, List.forall_mem_cons.2 ⟨.inl rfl, whole.kinds⟩, ?_⟩
      exact List.isChain_cons_cons.2 ⟨fun comment => (by cases comment), whole.chain⟩
    · exact ⟨t :: ts, stop, rfl, hstop, whole⟩

/-- **The first token of a line has the comments above the line**, and the others on it have none. -/
theorem headed_itemsOf {text : String} {before rest : List Token} {t : Token}
    (tokens : (Token.ofText .conf text.toList).tail = before ++ t :: rest)
    (first : ∀ u ∈ before.getLast?, u.kind = .newline) (stands : t.kind.standsOnLine = true) :
    Headed (commentsAbove before)
      ((Document.itemsOf text).drop (itemKinds before).length) := by
  have eq : tokensFrom true (.ofText text.toList) false = before ++ t :: rest := tokens
  obtain ⟨ts, stop, eq', hstop, inner⟩ := exists_inner_tokensFrom (.ofText text.toList) false
  have inner : Inner before := by
    have split : before ++ t :: rest = ts ++ [stop] := eq.symm.trans eq'
    rcases List.eq_nil_or_concat rest with rfl | ⟨rest, last, rfl⟩
    · obtain ⟨-, last⟩ := List.append_inj' split rfl
      obtain rfl : t = stop := (List.cons.inj last).1
      rw [hstop] at stands
      cases stands
    · rw [List.concat_eq_append, ← List.cons_append, ← List.append_assoc] at split
      obtain ⟨rfl, -⟩ := List.append_inj' split rfl
      exact inner.of_append.1
  have items : Document.itemsOf text = itemsFrom none (before ++ t :: rest) := by
    rw [← eq]
    rfl
  rw [items]
  exact headed_itemsFrom (wholeLines_of_getLast? first) inner stands

end Hocon
