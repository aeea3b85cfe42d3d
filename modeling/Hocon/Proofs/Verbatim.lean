import Mathlib.Data.List.DropRight
import Hocon.Proofs.Comprehension
import Hocon.Proofs.Joining
import Hocon.Proofs.Locality
import Hocon.Proofs.Passing

/-!
# Bare text is kept as it is

A line of text without reserved characters and comments may fall into several tokens: a number or a
keyword at its front is cut off, a number that is none remains as text, and blanks between two
tokens are a token too.  Put together again, the tokens are the line without the blanks at its ends
(`exists_makesUp_tokensFrom`), and so is the value that they are joined to
(`Value.concatenate_makesUp`).  So such a line is the text of the value that it is read as
(`Document.parseText_plainLine`).
-/

namespace Hocon

open Scan

namespace Text

/-! ### Blanks at the ends of a line -/

/-- The text without blanks at either end. -/
def strip (cs : List Char) : List Char := (cs.dropWhile isBlank).rdropWhile isBlank

/-- Nothing in front of a character that is no blank is stripped off. -/
theorem rdropWhile_isBlank_append {front cs : List Char}
    (solid : ∀ c ∈ front.getLast?, isBlank c = false) :
    (front ++ cs).rdropWhile isBlank = front ++ cs.rdropWhile isBlank := by
  have ends : ∀ c ∈ front.reverse.head?, isBlank c = false := by rwa [List.head?_reverse]
  rw [List.rdropWhile, List.reverse_append, (takeWhile_append_of_head cs.reverse ends).2,
    List.reverse_append, List.reverse_reverse]
  rfl

theorem strip_ne_nil {cs : List Char} (present : ∃ c ∈ cs, isBlank c = false) : strip cs ≠ [] := by
  obtain ⟨c, hc, solid⟩ := present
  intro nothing
  have behind := List.rdropWhile_eq_nil_iff.1 nothing
  rw [← List.takeWhile_append_dropWhile (p := isBlank) (l := cs)] at hc
  have blank : isBlank c = true := by
    obtain front | back := List.mem_append.1 hc
    · exact List.all_eq_true.1 List.all_takeWhile c front
    · exact behind c back
  rw [blank] at solid
  cases solid

/-! ### Plain lines -/

/-- A piece of a line without reserved characters and comments. -/
structure IsPlain (cs : List Char) : Prop where
  free : ∀ c ∈ cs, isReserved c = false ∧ c ≠ '\n'
  noComment : ¬ ['/', '/'] <:+: cs

namespace IsPlain

variable {cs : List Char} {c : Char}

theorem behind (front : List Char) (h : IsPlain (front ++ cs)) : IsPlain cs where
  free c hc := h.free c (List.mem_append_right _ hc)
  noComment within := h.noComment (within.trans (List.suffix_append front cs).isInfix)

theorem ne (h : IsPlain (c :: cs)) {d : Char} (reserved : isReserved d = true ∨ d = '\n') :
    c ≠ d := by
  obtain ⟨free, line⟩ := h.free c List.mem_cons_self
  rintro rfl
  obtain reserved | rfl := reserved
  · rw [reserved] at free
    cases free
  · exact line rfl

/-- No comment starts in such a line. -/
theorem opensComment (h : IsPlain (c :: cs)) (comments : Bool) :
    opensComment comments (c :: cs) = false := by
  have hash := h.ne (d := '#') (.inl rfl)
  unfold Scan.opensComment
  split
  · next e => exact absurd (List.cons.inj e).1 hash
  · next tail e =>
    rw [e] at h
    exact absurd ⟨[], tail, rfl⟩ h.noComment
  · rfl

/-- All blanks of such a line are blanks between tokens. -/
theorem isGap (h : IsPlain cs) : ∀ c ∈ cs, Cursor.isGap c = isBlank c := by
  intro c hc
  rw [Cursor.isGap, bne_iff_ne.2 (h.free c hc).2, Bool.true_and]

theorem dropWhile_isGap (h : IsPlain cs) : cs.dropWhile Cursor.isGap = cs.dropWhile isBlank := by
  induction cs with
  | nil => rfl
  | cons c cs ih =>
    rw [List.dropWhile_cons, List.dropWhile_cons, h.isGap c List.mem_cons_self,
      ih (h.behind [c])]

/-- A blank in front changes nothing. -/
theorem spaced (h : IsPlain cs) : IsPlain (' ' :: cs) where
  free := List.forall_mem_cons.2 ⟨by decide, h.free⟩
  noComment within := by
    obtain front | within := List.infix_cons_iff.1 within
    · cases (List.cons_prefix_cons.1 front).1
    · exact h.noComment within

end IsPlain

end Text

/-! ### Texts that make up another -/

/-- The texts of these, one behind the other, are this text. -/
inductive MakesUp {α : Type} (text? : α → Option String) : List α → List Char → Prop
  | nil : MakesUp text? [] []
  | cons {a : α} {as : List α} {piece cs : List Char} (head : text? a = some (String.ofList piece))
      (tail : MakesUp text? as cs) : MakesUp text? (a :: as) (piece ++ cs)

/-- The text of a token that is a scalar without quotes. -/
def TokenKind.plainText? : TokenKind → Option String
  | value (.string _) => none
  | value literal => some literal.text
  | bare text => some text
  | _ => none

namespace Scan

open Text (isBlank IsPlain)

variable {first c : Char} {cs taken : List Char}

theorem plainText?_of_keyword? {text : List Char} {literal : Literal}
    (h : keyword? text = some literal) :
    (TokenKind.value literal).plainText? = some (String.ofList text) := by
  unfold keyword? at h
  split at h
  · next e => cases h; rw [e]; rfl
  split at h
  · next e => cases h; rw [e]; rfl
  split at h
  · next e => cases h; rw [e]; rfl
  · cases h

theorem plainText?_of_numberLiteral? {text : List Char} {literal : Literal}
    (h : numberLiteral? text = some literal) :
    (TokenKind.value literal).plainText? = some (String.ofList text) := by
  unfold numberLiteral? at h
  split at h
  · obtain ⟨d, -, rfl⟩ := Option.map_eq_some_iff.1 h
    rfl
  · obtain ⟨n, -, rfl⟩ := Option.map_eq_some_iff.1 h
    rfl

/-- What was read from a place: a scalar without quotes, whose text is what stands there. -/
def ReadsPlain (taken cs : List Char) (scan : TokenKind × List Char) : Prop :=
  ∃ read, cs = read ++ scan.2 ∧ scan.1.plainText? = some (String.ofList (taken ++ read))
    ∧ ∀ c ∈ read, isBlank c = false

theorem readsPlain_scanBare (comments : Bool) (taken cs : List Char) :
    ReadsPlain taken.reverse cs (scanBare comments taken cs) := by
  have nothing (cs : List Char) :
      ReadsPlain taken.reverse cs (.bare (String.ofList taken.reverse), cs) :=
    ⟨[], rfl, by rw [List.append_nil]; rfl, List.forall_mem_nil _⟩
  induction cs generalizing taken with
  | nil => exact nothing []
  | cons c cs ih =>
    rw [scanBare]
    split
    · exact nothing (c :: cs)
    next goesOn =>
    have solid : isBlank c = false := by
      simp only [Bool.or_eq_true, not_or, Bool.not_eq_true] at goesOn
      exact goesOn.1.2
    split
    · next literal keyword =>
      refine ⟨[c], rfl, ?_, List.forall_mem_singleton.2 solid⟩
      rw [← List.reverse_cons]
      exact plainText?_of_keyword? keyword
    · obtain ⟨read, left, text, solids⟩ := ih (c :: taken) fun cs =>
        ⟨[], rfl, by rw [List.append_nil]; rfl, List.forall_mem_nil _⟩
      refine ⟨c :: read, congrArg (c :: ·) left, ?_, List.forall_mem_cons.2 ⟨solid, solids⟩⟩
      rwa [List.reverse_cons, List.append_assoc] at text

theorem isBlank_of_continuesNumber {c : Char} (h : continuesNumber c = true) :
    isBlank c = false := by
  refine Bool.eq_false_iff.2 fun blank => ?_
  rw [continuesNumber_of_isBlank blank] at h
  cases h

/-- A run that is no number is bare text, since no reserved character is among its characters. -/
theorem readsPlain_scanNumber (plain : IsPlain (first :: cs)) :
    ReadsPlain [first] cs (toKind (scanNumber first cs)) := by
  have whole : cs = cs.takeWhile continuesNumber ++ cs.dropWhile continuesNumber :=
    List.takeWhile_append_dropWhile.symm
  have solids : ∀ c ∈ cs.takeWhile continuesNumber, isBlank c = false := fun c hc =>
    isBlank_of_continuesNumber (List.all_eq_true.1 List.all_takeWhile c hc)
  have free : (first :: cs.takeWhile continuesNumber).find? isReserved = none := by
    refine List.find?_eq_none.2 fun c hc => Bool.eq_false_iff.1 (plain.free c ?_).1
    obtain rfl | hc := List.mem_cons.1 hc
    · exact List.mem_cons_self
    · exact List.mem_cons_of_mem _ (List.takeWhile_sublist _ |>.subset hc)
  unfold scanNumber
  simp only
  split
  · next literal number => exact ⟨_, whole, plainText?_of_numberLiteral? number, solids⟩
  · rw [free]
    exact ⟨_, whole, rfl, solids⟩

/-- **A token of a plain line** is a scalar without quotes, whose text is what stands there. -/
theorem readsPlain_scanFlat (plain : IsPlain (first :: cs)) (comments : Bool) :
    ReadsPlain [first] cs (scanFlat comments first cs) := by
  unfold scanFlat
  rw [plain.opensComment comments]
  have noSign : punctuation? first = none := by
    unfold punctuation?
    split <;> first | rfl | exact absurd rfl (plain.ne (by decide))
  simp only [Bool.false_eq_true, if_false, noSign]
  rw [if_neg (plain.ne (.inl rfl)), if_neg (plain.ne (.inl rfl))]
  split
  · exact readsPlain_scanNumber plain
  · rw [if_neg (plain.ne (.inl rfl)), (plain.free first List.mem_cons_self).1, if_neg (by decide)]
    exact readsPlain_scanBare comments [first] cs

end Scan

/-! ### The tokens of a plain line -/

/-- A plain line behind the blanks in front of it. -/
theorem Cursor.exists_pullToken {c : Cursor} (plain : Text.IsPlain c.rest)
    (h : c.skipGap.rest ≠ []) (comments : Bool) :
    ∃ piece, c.skipGap.rest = piece ++ (pullToken comments c.skipGap h).val.2.rest
      ∧ (pullToken comments c.skipGap h).val.1.kind.plainText? = some (String.ofList piece)
      ∧ piece ≠ [] ∧ ∀ d ∈ piece, Text.isBlank d = false := by
  obtain ⟨first, cs, front⟩ := List.exists_cons_of_ne_nil h
  have plain' : Text.IsPlain (first :: cs) := by
    rw [← front]
    refine Text.IsPlain.behind c.gap ?_
    rwa [← c.rest_eq]
  obtain ⟨read, left, text, solid⟩ := readsPlain_scanFlat plain' comments
  obtain ⟨kind, rest⟩ := pullToken_flat front (plain'.ne (.inl rfl)) rfl h
  rw [kind, rest, front]
  refine ⟨first :: read, congrArg (first :: ·) left, text, List.cons_ne_nil _ _, ?_⟩
  refine List.forall_mem_cons.2 ⟨?_, solid⟩
  rw [← plain'.isGap first List.mem_cons_self]
  exact Cursor.isGap_of_skipGap front

theorem TokenKind.isSimpleValue_of_plainText? {kind : TokenKind} {text : String}
    (h : kind.plainText? = some text) : kind.isSimpleValue = true := by
  cases kind <;> first | rfl | cases h

/-- **The tokens of a plain line make it up**, but for the blanks at its end, and for those in front
where no value stands before them. -/
theorem exists_makesUp_tokensFrom (comments : Bool) (c : Cursor) (after : Bool)
    (plain : Text.IsPlain c.rest) :
    ∃ kinds, (tokensFrom comments c after).map Placed.kind = kinds ++ [.stop]
      ∧ MakesUp TokenKind.plainText? kinds
        ((if after then c.rest else c.skipGap.rest).rdropWhile Text.isBlank) := by
  fun_induction tokensFrom comments c after with
  | case1 c after b le h =>
    have nothing : c.skipGap.rest = [] := h
    have blank : ∀ d ∈ c.rest, Text.isBlank d = true := by
      intro d hd
      rw [← plain.isGap d hd]
      exact List.dropWhile_eq_nil_iff.1 nothing d hd
    refine ⟨[], rfl, ?_⟩
    cases after with
    | false =>
      rw [if_neg Bool.false_ne_true, nothing]
      exact .nil
    | true =>
      rw [if_pos rfl, List.rdropWhile_eq_nil_iff.2 blank]
      exact .nil
  | case2 c after b le h t next lt hp shorter ih =>
    obtain ⟨piece, whole, text, present, solid⟩ := c.exists_pullToken plain h comments
    rw [show pullToken comments c.skipGap h = ⟨(t, next), lt⟩ from hp] at whole text
    have simple : t.kind.isSimpleValue = true := TokenKind.isSimpleValue_of_plainText? text
    have line : c.rest = c.gap ++ (piece ++ next.rest) := by rw [c.rest_eq, whole]
    have plain' : Text.IsPlain next.rest := by
      rw [line] at plain
      exact (plain.behind _).behind _
    obtain ⟨kinds, eq, makesUp⟩ := ih plain'
    rw [simple, if_pos rfl] at makesUp
    have last : ∀ d ∈ piece.getLast?, Text.isBlank d = false := fun d hd =>
      solid d (List.mem_of_getLast? hd)
    have stripped : (piece ++ next.rest).rdropWhile Text.isBlank
        = piece ++ next.rest.rdropWhile Text.isBlank := Text.rdropWhile_isBlank_append last
    rw [List.map_append, List.map_cons, eq, simple, Cursor.gapToken]
    cases after with
    | false =>
      refine ⟨t.kind :: kinds, rfl, ?_⟩
      rw [if_neg Bool.false_ne_true, show c.skipGap.rest = piece ++ next.rest from whole, stripped]
      exact .cons text makesUp
    | true =>
      rw [if_pos rfl, line]
      by_cases gap : c.gap = []
      · refine ⟨t.kind :: kinds, by rw [gap]; rfl, ?_⟩
        rw [gap, List.nil_append, stripped]
        exact .cons text makesUp
      · refine ⟨.bare (String.ofList c.gap) :: t.kind :: kinds, ?_, ?_⟩
        · rw [List.isEmpty_eq_false_iff.2 gap]
          rfl
        · have last' : ∀ d ∈ (c.gap ++ piece).getLast?, Text.isBlank d = false := by
            rwa [List.getLast?_append_of_ne_nil _ present]
          rw [← List.append_assoc, Text.rdropWhile_isBlank_append last', List.append_assoc]
          exact .cons rfl (.cons text makesUp)

/-! ### The value of a plain line -/

namespace Value

/-- Scalars beside each other are joined to a scalar, whose text they make up. -/
theorem joinOnto_makesUp {v : Value} {vs : List Value} {front cs : List Char}
    (head : v.scalarText? = some (String.ofList front)) (tail : MakesUp scalarText? vs cs) :
    ∃ w, joinOnto false [v] vs = .ok [w]
      ∧ w.scalarText? = some (String.ofList (front ++ cs)) := by
  induction tail generalizing v front with
  | nil => exact ⟨v, rfl, by rw [List.append_nil, head]⟩
  | @cons u _ piece _ text _ ih =>
    obtain ⟨w, joined, texts⟩ :=
      ih (v := ofText (v.origin.merge u.origin) (String.ofList front ++ String.ofList piece))
        (congrArg some String.ofList_append.symm)
    refine ⟨w, ?_, ?_⟩
    · rw [joinOnto, join?_of_texts head text]
      exact joined
    · rwa [List.append_assoc] at texts

/-- **Scalars are joined to their texts**, one behind the other. -/
theorem concatenate_makesUp {vs : List Value} {cs : List Char} (h : MakesUp scalarText? vs cs)
    (present : vs ≠ []) :
    ∃ v, concatenate vs = .ok (some v) ∧ v.scalarText? = some (String.ofList cs) := by
  have single : ∀ v ∈ vs, v.isSingle = true := by
    clear present
    induction h with
    | nil => exact List.forall_mem_nil _
    | @cons v _ _ _ head _ ih =>
      refine List.forall_mem_cons.2 ⟨?_, ih⟩
      cases v <;> first | rfl | cases head
  cases h with
  | nil => exact absurd rfl present
  | @cons v vs front cs head tail =>
    obtain ⟨w, joined, text⟩ := joinOnto_makesUp head tail
    have run : joinRun false (v :: vs) = .ok [w] := by
      cases vs with
      | nil =>
        cases tail
        cases joined
        rfl
      | cons u vs =>
        rw [joinRun, flattenPieces_of_isSingle single]
        exact joined
    refine ⟨w, ?_, text⟩
    rw [concatenate, run]

end Value

/-! ### The phrase of a plain line -/

/-- A scalar without quotes is a term, whose value has the same text. -/
theorem exists_term {kind : TokenKind} {text : String} (h : kind.plainText? = some text) :
    ∃ term v, Term.Written term [kind] ∧ (∀ answer place, term.sense answer place = pure v)
      ∧ v.scalarText? = some text := by
  cases kind with
  | value literal =>
    refine ⟨_, _, .literal literal, fun _ _ => rfl, ?_⟩
    cases literal <;> first | exact h | cases h
  | bare text' => exact ⟨_, _, .bare text', fun _ _ => rfl, h⟩
  | _ => cases h

theorem exists_terms {kinds : List TokenKind} {cs : List Char}
    (h : MakesUp TokenKind.plainText? kinds cs) :
    ∃ terms vs, Terms.Written terms kinds ∧ (∀ answer place, terms.sense answer place = pure vs)
      ∧ MakesUp Value.scalarText? vs cs := by
  induction h with
  | nil => exact ⟨.nil, [], .nil, fun _ _ => rfl, .nil⟩
  | cons head _ ih =>
    obtain ⟨term, v, written, sense, text⟩ := exists_term head
    obtain ⟨terms, vs, written', sense', texts⟩ := ih
    refine ⟨.cons term terms, v :: vs, .cons written written', fun answer place => ?_,
      .cons text texts⟩
    rw [Terms.sense, sense, sense', pure_bind, pure_bind]

/-- **Scalars beside each other** are a value of the text that they make up. -/
theorem exists_row {kinds : List TokenKind} {cs : List Char}
    (h : MakesUp TokenKind.plainText? kinds cs) (present : cs ≠ []) :
    ∃ row v, Row.Written row kinds ∧ (∀ answer place, row.sense answer place = pure v)
      ∧ v.scalarText? = some (String.ofList cs) := by
  cases h with
  | nil => exact absurd rfl present
  | cons head tail =>
    obtain ⟨term, v, written, sense, text⟩ := exists_term head
    obtain ⟨terms, vs, written', sense', texts⟩ := exists_terms tail
    obtain ⟨w, joined, text'⟩ :=
      Value.concatenate_makesUp (.cons text texts) (List.cons_ne_nil v vs)
    refine ⟨.mk term terms, w, .mk written written', fun answer place => ?_, text'⟩
    rw [Row.sense, sense, sense', pure_bind, pure_bind, joinedValue, joined]

/-! ### The document -/

theorem TokenKind.isItem_of_plainText? {kind : TokenKind} {text : String}
    (h : kind.plainText? = some text) : kind.isItem = true := by
  cases kind <;> first | rfl | cases h

theorem MakesUp.isItem {kinds : List TokenKind} {cs : List Char}
    (h : MakesUp TokenKind.plainText? kinds cs) : ∀ kind ∈ kinds, kind.isItem = true := by
  induction h with
  | nil => exact List.forall_mem_nil _
  | cons head _ ih => exact List.forall_mem_cons.2 ⟨TokenKind.isItem_of_plainText? head, ih⟩

/-- The items of a document of one field on a plain line. -/
theorem exists_items_plainLine {s : String} (plain : Text.IsPlain s.toList) :
    ∃ kinds, (Document.itemsOf ("k = " ++ s)).map Item.kind = .bare "k" :: .equals :: kinds
      ∧ MakesUp TokenKind.plainText? kinds (Text.strip s.toList) := by
  have text : ("k = " ++ s).toList = 'k' :: ([' '] ++ '=' :: ' ' :: s.toList) := by
    rw [String.toList_append]
    rfl
  have key : scanFlat true 'k' ([' '] ++ '=' :: ' ' :: s.toList) = (.bare "k", _) := rfl
  have sign : Passes true true ([' '] ++ '=' :: ' ' :: s.toList) [.equals] false (' ' :: s.toList) :=
    .blanks (.sign rfl) (fun _ => rfl) rfl
  have front : Passes true false ('k' :: ([' '] ++ '=' :: ' ' :: s.toList)) _ _ _ :=
    (Passes.front (by decide) (by decide) key).trans sign
  obtain ⟨ts, next, tokens, kinds, left⟩ :=
    Passes.tokensFrom (c := .ofText ("k = " ++ s).toList) (text ▸ front)
  have plain' : Text.IsPlain next.rest := left ▸ plain.spaced
  obtain ⟨kinds', eq, makesUp⟩ := exists_makesUp_tokensFrom true next false plain'
  have whole : next.skipGap.rest = s.toList.dropWhile Text.isBlank := by
    show next.rest.dropWhile Cursor.isGap = _
    rw [plain'.dropWhile_isGap, left]
    rfl
  rw [if_neg Bool.false_ne_true, whole] at makesUp
  refine ⟨kinds', ?_, makesUp⟩
  have isItem : kinds'.filter TokenKind.isItem = kinds' := List.filter_eq_self.2 makesUp.isItem
  rw [kinds_itemsOf, tokens, itemKinds, List.map_append, kinds, eq, List.filter_append,
    List.filter_append kinds', isItem]
  show [.bare "k", .equals] ++ (kinds' ++ []) = _
  rw [List.append_nil]
  rfl

namespace Document

/-- **Bare text is kept as it is.**  A line without reserved characters and comments that is not
blank is read as a value of its text, without the blanks around it. -/
theorem parseText_plainLine {s : String} (plain : Text.IsPlain s.toList)
    (present : ∃ c ∈ s.toList, Text.isBlank c = false) (files : FileTree) {o : ParseOptions}
    (conf : o.syn.getD .conf = .conf) (m : List IncludeRecord) :
    ∃ root v, (parseText files o ("k = " ++ s)).run.run m = (.ok root, m)
      ∧ root.fields? = some [("k", v)]
      ∧ v.scalarText? = some (String.ofList (Text.strip s.toList)) := by
  obtain ⟨kinds, items, makesUp⟩ := exists_items_plainLine plain
  obtain ⟨row, v, written, sense, text⟩ := exists_row makesUp (Text.strip_ne_nil present)
  obtain ⟨origin, answer, reads⟩ := exists_follows_parseText files conf
  have phrase : Script.Written (.body (.field (.ofKey "k") false row .nil))
      ((itemsOf ("k = " ++ s)).map Item.kind) := by
    have key : WritesKey (.ofKey "k") [.bare "k"] := ⟨rfl, by decide⟩
    have field : Body.Written (.field (.ofKey "k") false row .nil) _ :=
      .field key (.sign 0 0 row .equals) written .nothing .nil
    rw [List.append_nil, List.append_nil] at field
    rw [items]
    exact .body 0 field
  have means : Script.sense answer (.body (.field (.ofKey "k") false row .nil))
      = pure (.ofFields (Value.mergedOrigin []) [("k", v)]) := by
    rw [Script.sense, Body.sense, sense]
    rfl
  have follows := reads _ _ phrase
  rw [means] at follows
  obtain ⟨root, run, same⟩ := follows.symm.exists_ok (m := m) rfl
  have whole := Value.SameTree.fields? same
  obtain ⟨fs, fields, eq⟩ := Option.map_eq_some_iff.1 whole
  obtain ⟨⟨key, w⟩, rest, rfl, one, nothing⟩ := List.map_eq_cons_iff.1 eq
  cases List.map_eq_nil_iff.1 nothing
  obtain ⟨rfl, value⟩ := Prod.mk.inj one
  refine ⟨root, w, run, fields, ?_⟩
  rw [Value.SameTree.scalarText? value, text]

/-- Numbers, a keyword and a dash are cut out of this line, and blanks go along between them. -/
theorem parseText_plainLine_example :
    let s := "  1.0 truefoo -x 007\t1.2.3 "
    (Text.IsPlain s.toList ∧ ∃ c ∈ s.toList, Text.isBlank c = false)
      ∧ ∃ root v, (parseText {} {} ("k = " ++ s)).run.run [] = (.ok root, [])
        ∧ root.fields? = some [("k", v)] ∧ v.scalarText? = some "1.0 truefoo -x 007\t1.2.3" := by
  intro s
  have free : s.toList.all (fun c => !isReserved c && c != '\n') = true := by decide +kernel
  have plain : Text.IsPlain s.toList := by
    refine ⟨fun c hc => ?_, by decide +kernel⟩
    have here := List.all_eq_true.1 free c hc
    simpa only [Bool.and_eq_true, Bool.not_eq_true', bne_iff_ne] using here
  have solid : s.toList.any (fun c => !Text.isBlank c) = true := by decide +kernel
  have present : ∃ c ∈ s.toList, Text.isBlank c = false := by
    simpa only [List.any_eq_true, Bool.not_eq_true'] using solid
  have stripped : String.ofList (Text.strip s.toList) = "1.0 truefoo -x 007\t1.2.3" := by
    decide +kernel
  obtain ⟨root, v, run, fields, text⟩ := parseText_plainLine plain present {} (o := {}) rfl []
  rw [stripped] at text
  exact ⟨⟨plain, present⟩, root, v, run, fields, text⟩

end Document

end Hocon
