import Mathlib
import Hocon.Path.Expression
import Hocon.Proofs.Following
import Hocon.Proofs.Passing
import Hocon.Proofs.Rendering
import Hocon.Proofs.Superset

/-!
# The text of a path spells it

`Path.render` writes the keys of a path with periods between them, and what it writes is read as
that path: from a text of its own, plain or not, and between the braces of a reference
(`Path.exists_passes_render`).  Outside of quotes the lexer may cut the text anywhere, since it
looks for numbers and keywords there; but it cuts between characters, and the path is put together
from characters again (`Gives.word`).
-/

namespace Hocon

open Scan

namespace Path

/-! ### Text without quotes -/

/-- Whether such a character of a path may stand outside of quotes. -/
def isBareChar (c : Char) : Bool := c == '.' || (c == '-' || c == '_' || Text.isWordChar c)

/-- A quote, a closing brace or nothing stands behind text without quotes. -/
def EndsWord (tail : List Char) : Prop := ∀ c ∈ tail.head?, c = '"' ∨ c = '\x7d'

/-- Such a character starts nothing but text. -/
theorem isBareChar_ne {c : Char} (h : isBareChar c = true) {d : Char}
    (hd : d ∈ '\n' :: '/' :: reservedChars) : c ≠ d := by
  have others : ('\n' :: '/' :: reservedChars).all (fun d => !isBareChar d) = true := by
    decide +kernel
  rintro rfl
  have other := List.all_eq_true.1 others c hd
  rw [h] at other
  cases other

/-- Such a character ends no text, and no comment starts with it. -/
theorem stays_of_isBareChar {c : Char} (h : isBareChar c = true) :
    isReserved c = false ∧ Text.isBlank c = false ∧ ∀ cs, opensComment true (c :: cs) = false := by
  refine ⟨?_, ?_, opensComment_cons (isBareChar_ne h (by decide)) (isBareChar_ne h (by decide))⟩
  all_goals
    simp only [isBareChar, Bool.or_eq_true, beq_iff_eq] at h
    rcases h with rfl | (rfl | rfl) | h
    · decide
    · decide
    · decide
    · rw [← Bool.not_eq_true]
      intro other
      first
        | rw [Text.isWordChar_of_isReserved other] at h; cases h
        | rw [Text.isWordChar_of_isBlank other] at h; cases h

theorem isGap_of_isBareChar {c : Char} (h : isBareChar c = true) : Cursor.isGap c = false := by
  rw [Cursor.isGap, (stays_of_isBareChar h).2.1, Bool.and_false]

/-- The token adds this text to a path, character by character. -/
def Adds (text : List Char) (kind : TokenKind) : Prop :=
  ∀ d, addToken d kind = .ok (d.addBare text)

theorem adds_bare (text : List Char) : Adds text (.bare (String.ofList text)) := fun d => by
  rw [addToken, String.toList_ofList]

theorem adds_of_keyword {text : List Char} {literal : Literal} (h : keyword? text = some literal) :
    Adds text (.value literal) := by
  unfold keyword? at h
  split at h
  · next e => cases h; exact fun _ => e ▸ rfl
  split at h
  · next e => cases h; exact fun _ => e ▸ rfl
  split at h
  · next e => cases h; exact fun _ => e ▸ rfl
  · cases h

theorem adds_of_number {text : List Char} {literal : Literal}
    (h : numberLiteral? text = some literal) : Adds text (.value literal) := by
  intro d
  unfold numberLiteral? at h
  split at h <;> obtain ⟨_, -, rfl⟩ := Option.map_eq_some_iff.1 h <;>
    rw [addToken, Literal.text, String.toList_ofList] <;> intros <;> contradiction

variable {comments : Bool} {cs tail rest : List Char}

theorem exists_scanBare (taken : List Char) (word : ∀ c ∈ cs, isBareChar c = true)
    (ends : EndsWord tail) : ∃ kind read rest, cs = read ++ rest
      ∧ scanBare true taken (cs ++ tail) = (kind, rest ++ tail)
      ∧ Adds (taken.reverse ++ read) kind := by
  induction cs generalizing taken with
  | nil =>
    refine ⟨.bare (String.ofList taken.reverse), [], [], rfl, ?_, ?_⟩
    · rcases tail with _ | ⟨c, tail⟩
      · rfl
      · have reserved : isReserved c = true := by
          obtain rfl | rfl := ends c rfl <;> decide
        show scanBare true taken (c :: tail) = _
        rw [scanBare, reserved, Bool.true_or, Bool.true_or, if_pos rfl]
        rfl
    · rw [List.append_nil]
      exact adds_bare _
  | cons c cs ih =>
    obtain ⟨hc, word⟩ := List.forall_mem_cons.1 word
    obtain ⟨reserved, blank, comment⟩ := stays_of_isBareChar hc
    rw [List.cons_append, scanBare, reserved, blank, comment, if_neg (by decide)]
    cases keyword : keyword? (c :: taken).reverse with
    | some literal =>
      refine ⟨_, [c], cs, rfl, rfl, ?_⟩
      rw [← List.reverse_cons]
      exact adds_of_keyword keyword
    | none =>
      obtain ⟨kind, read, rest, whole, scan, adds⟩ := ih (c :: taken) word
      refine ⟨kind, c :: read, rest, congrArg (c :: ·) whole, scan, ?_⟩
      rwa [List.reverse_cons, List.append_assoc] at adds

/-- A run of number characters is taken as a number, or else as it stands. -/
theorem exists_scanNumber {first : Char} (word : ∀ c ∈ first :: cs, isBareChar c = true)
    (ends : EndsWord tail) : ∃ kind read rest, cs = read ++ rest
      ∧ toKind (scanNumber first (cs ++ tail)) = (kind, rest ++ tail)
      ∧ Adds (first :: read) kind := by
  have stops : ∀ c ∈ tail.head?, continuesNumber c = false := fun c hc => by
    obtain rfl | rfl := ends c hc <;> decide
  obtain ⟨take, drop⟩ := takeWhile_append_of_head cs stops
  have whole : cs = cs.takeWhile continuesNumber ++ cs.dropWhile continuesNumber :=
    List.takeWhile_append_dropWhile.symm
  have noReserved : (first :: cs.takeWhile continuesNumber).find? isReserved = none := by
    refine List.find?_eq_none.2 fun c hc => ?_
    have bare : c ∈ first :: cs := by
      rcases List.mem_cons.1 hc with rfl | hc
      · exact List.mem_cons_self
      · exact .tail _ ((List.takeWhile_prefix _).subset hc)
    rw [(stays_of_isBareChar (word c bare)).1]
    decide
  unfold scanNumber
  simp only [take, drop, noReserved]
  cases number : numberLiteral? (first :: cs.takeWhile continuesNumber) with
  | some literal => exact ⟨_, _, _, whole, rfl, adds_of_number number⟩
  | none => exact ⟨_, _, _, whole, rfl, adds_bare _⟩

/-- The lexer takes some of the text, and what it takes is added. -/
theorem exists_scanFlat {first : Char} (word : ∀ c ∈ first :: cs, isBareChar c = true)
    (ends : EndsWord tail) : ∃ kind read rest, cs = read ++ rest
      ∧ scanFlat true first (cs ++ tail) = (kind, rest ++ tail) ∧ Adds (first :: read) kind := by
  have hfirst := word first List.mem_cons_self
  obtain ⟨reserved, -, comment⟩ := stays_of_isBareChar hfirst
  have ne (d : Char) (hd : isReserved d = true) : first ≠ d := by
    rintro rfl
    rw [reserved] at hd
    cases hd
  have none : punctuation? first = none := by
    unfold punctuation?
    split <;> first | rfl | exact absurd rfl (isBareChar_ne hfirst (by decide))
  unfold scanFlat
  rw [comment, none]
  simp only [Bool.false_eq_true, if_false]
  rw [if_neg (ne '"' (by decide)), if_neg (ne '+' (by decide))]
  split
  · exact exists_scanNumber word ends
  · rw [if_neg (ne '$' (by decide)), reserved, if_neg Bool.false_ne_true]
    exact exists_scanBare [first] (List.forall_mem_cons.1 word).2 ends

/-! ### Texts that lead from one draft to another -/

namespace Draft

theorem addBare_append (d : Draft) (as bs : List Char) :
    d.addBare (as ++ bs) = (d.addBare as).addBare bs := by
  induction as generalizing d with
  | nil => rfl
  | cons a as ih =>
    rw [List.cons_append, addBare, addBare]
    split <;> exact ih _

/-- A draft is finished if quotes stand for every key without characters. -/
theorem toPath?_of_keys {d : Draft} {p : Path}
    (named : ∀ k ∈ d.keys, k.text.isEmpty = true → k.mayBeEmpty = true)
    (path : ofKeys? (d.keys.map fun k => String.ofList k.text) = some p) : d.toPath? = .ok p := by
  have noEmpty : ¬ (d.keys.any fun k => k.text.isEmpty && !k.mayBeEmpty) = true := by
    rw [List.any_eq_true]
    rintro ⟨k, hk, empty⟩
    rw [Bool.and_eq_true, Bool.not_eq_true'] at empty
    rw [named k hk empty.1] at empty
    cases empty.2
  rw [toPath?, if_neg noEmpty, path]

end Draft

theorem addTokens_append {d d' : Draft} {kinds kinds' : List TokenKind}
    (h : addTokens d kinds = .ok d') : addTokens d (kinds ++ kinds') = addTokens d' kinds' := by
  induction kinds generalizing d with
  | nil => cases h; rfl
  | cons kind kinds ih =>
    rw [List.cons_append, addTokens]
    rw [addTokens] at h
    split at h
    · exact ih h
    · cases h

/-- Wherever it stands, the lexer gets over the text up to `rest`, and the tokens make every draft
`d` into `f d`. -/
def Gives (cs : List Char) (f : Draft → Draft) (rest : List Char) : Prop :=
  ∀ after, ∃ kinds after', Passes true after cs kinds after' rest
    ∧ ∀ d, addTokens d kinds = .ok (f d)

namespace Gives

variable {f g : Draft → Draft} {mid : List Char}

theorem refl (cs : List Char) : Gives cs id cs := fun after =>
  ⟨[], after, .refl _ _, fun _ => rfl⟩

theorem trans (h : Gives cs f mid) (h' : Gives mid g rest) : Gives cs (fun d => g (f d)) rest := by
  intro after
  obtain ⟨kinds, mid', passes, added⟩ := h after
  obtain ⟨kinds', after', passes', added'⟩ := h' mid'
  exact ⟨_, after', passes.trans passes', fun d => by rw [addTokens_append (added d), added']⟩

theorem token {first : Char} {kind : TokenKind} (solid : Cursor.isGap first = false)
    (flat : first ≠ '$') (scan : scanFlat true first cs = (kind, rest))
    (added : ∀ d, addToken d kind = .ok (f d)) : Gives (first :: cs) f rest := fun after =>
  ⟨[kind], _, .front solid flat scan, fun d => by rw [addTokens, added]; rfl⟩

/-- **Text without quotes** is added character by character, whatever tokens it falls into. -/
theorem word (tail : List Char) (h : ∀ c ∈ cs, isBareChar c = true) (ends : EndsWord tail) :
    Gives (cs ++ tail) (·.addBare cs) tail := by
  induction hn : cs.length using Nat.strongRecOn generalizing cs with
  | ind n ih =>
    rcases cs with _ | ⟨first, cs⟩
    · exact .refl tail
    obtain ⟨kind, read, rest, rfl, scan, adds⟩ := exists_scanFlat h ends
    obtain ⟨hfirst, h⟩ := List.forall_mem_cons.1 h
    have more := ih rest.length (by simp only [List.length_cons, List.length_append] at hn; omega)
      (fun c hc => h c (List.mem_append_right _ hc)) rfl
    have front := token (isGap_of_isBareChar hfirst) (isBareChar_ne hfirst (by decide)) scan adds
    have all := front.trans more
    simpa only [← Draft.addBare_append, List.cons_append] using all

theorem quoted (k : String) (head : tail.head? ≠ some '"') :
    Gives ((Text.quote k).toList ++ tail) (·.addQuoted k.toList) tail := by
  have scan := scanFlat_quote k head
  rw [Text.quote, String.toList_ofList, List.cons_append, List.append_assoc]
  exact token (by decide) (by decide) scan fun _ => rfl

end Gives

/-! ### Keys -/

/-- A key as it stands in a draft: empty ones were quoted. -/
def keyDraft (k : String) : KeyDraft := ⟨k.toList, k.toList.isEmpty⟩

/-- A key is read, but for text that may go on. -/
theorem exists_gives_key (k : String) (rest : List Char) {word : List Char}
    (hword : ∀ c ∈ word, isBareChar c = true)
    (head : rest.head? ≠ some '"') :
    ∃ f word', Gives (word ++ ((renderKey k).toList ++ rest)) f (word' ++ rest)
      ∧ (∀ c ∈ word', isBareChar c = true)
      ∧ ∀ d done, d.addBare word = ⟨done, {}⟩ → (f d).addBare word' = ⟨done, keyDraft k⟩ := by
  unfold renderKey
  split
  · next bare =>
    rw [Bool.and_eq_true] at bare
    have chars := List.all_eq_true.1 bare.1
    have noPeriod : '.' ∉ k.toList := fun hc => absurd (chars '.' hc) (by decide +kernel)
    have nonempty : k.toList.isEmpty = false := by
      rw [Bool.eq_false_iff, ne_eq, List.isEmpty_iff, String.toList_eq_nil_iff]
      exact bne_iff_ne.1 bare.2
    refine ⟨id, word ++ k.toList, ?_, ?_, fun d done hd => ?_⟩
    · rw [← List.append_assoc]
      exact .refl _
    · refine List.forall_mem_append.2 ⟨hword, fun c hc => ?_⟩
      rw [isBareChar, chars c hc, Bool.or_true]
    · rw [id, Draft.addBare_append, hd, Draft.addBare_word _ noPeriod, keyDraft, nonempty]
      rfl
  · refine ⟨fun d => (d.addBare word).addQuoted k.toList, [], ?_, nofun, fun d done hd => ?_⟩
    · have quote : EndsWord ((Text.quote k).toList ++ rest) := by
        intro c hc
        rw [Text.quote, String.toList_ofList] at hc
        cases hc
        exact .inl rfl
      exact (Gives.word _ hword quote).trans (.quoted k head)
    · show (d.addBare word).addQuoted k.toList = _
      rw [hd]
      rfl

/-- **Keys are read as themselves**, behind text that starts a new one. -/
theorem exists_gives_keys (k : String) (ks : List String) (word : List Char)
    (hword : ∀ c ∈ word, isBareChar c = true) (ends : ∀ c ∈ tail.head?, c = '\x7d') :
    ∃ f, Gives (word ++ ((".".intercalate ((k :: ks).map renderKey)).toList ++ tail)) f tail
      ∧ ∀ d done, d.addBare word = ⟨done, {}⟩ →
        (f d).keys = done.reverse ++ (k :: ks).map keyDraft := by
  induction ks generalizing k word with
  | nil =>
    obtain ⟨f, word', gives, hword', added⟩ := exists_gives_key k tail hword
      fun h => absurd (ends _ h) (by decide)
    have last := Gives.word tail hword' fun c hc => .inr (ends c hc)
    refine ⟨_, gives.trans last, fun d done hd => ?_⟩
    rw [added d done hd, Draft.keys, List.reverse_cons]
    rfl
  | cons k' ks ih =>
    obtain ⟨f, word', gives, hword', added⟩ := exists_gives_key k
      ('.' :: ((".".intercalate ((k' :: ks).map renderKey)).toList ++ tail)) hword (by simp)
    obtain ⟨g, more, added'⟩ := ih k' (word' ++ ['.'])
      (List.forall_mem_append.2 ⟨hword', List.forall_mem_singleton.2 rfl⟩)
    refine ⟨fun d => g (f d), ?_, fun d done hd => ?_⟩
    · rw [List.append_assoc] at more
      have text : (".".intercalate ((k :: k' :: ks).map renderKey)).toList
          = (renderKey k).toList ++ '.' :: (".".intercalate ((k' :: ks).map renderKey)).toList := by
        rw [List.map_cons, List.map_cons, String.intercalate_cons_cons, String.toList_append,
          String.toList_append, List.append_assoc]
        rfl
      rw [text, List.append_assoc]
      exact gives.trans more
    · have opened : (f d).addBare (word' ++ ['.']) = ⟨keyDraft k :: done, {}⟩ := by
        rw [Draft.addBare_append, added d done hd]
        rfl
      rw [added' (f d) _ opened, List.reverse_cons, List.append_assoc]
      rfl

theorem keys_of_keyDraft (p : Path) :
    (p.keys.map keyDraft).map (fun k => String.ofList k.text) = p.keys := by
  rw [List.map_map]
  refine (List.map_congr_left fun key _ => ?_).trans (List.map_id _)
  exact String.ofList_toList

/-- **What a path is written as is read as the path**, whatever stands in front of it and where it
ends. -/
theorem exists_passes_render (p : Path) (tail : List Char) (after : Bool)
    (ends : ∀ c ∈ tail.head?, c = '\x7d') :
    ∃ kinds after', Passes true after (p.render.toList ++ tail) kinds after' tail
      ∧ ofTokens? kinds = .ok p := by
  obtain ⟨f, gives, added⟩ := exists_gives_keys p.first p.rest [] nofun ends
  obtain ⟨kinds, after', passes, draft⟩ := gives after
  have keys : (f {}).keys = p.keys.map keyDraft := added {} [] rfl
  have present : kinds.isEmpty = false := by
    rw [List.isEmpty_eq_false_iff]
    rintro rfl
    -- without tokens the only key would have no characters and no quotes
    have empty : f {} = {} := Except.ok.inj (draft {}).symm
    rw [empty] at keys
    obtain ⟨text, quoted⟩ := KeyDraft.mk.inj (List.head_eq_of_cons_eq keys)
    rw [← text] at quoted
    cases quoted
  refine ⟨kinds, after', passes, ?_⟩
  rw [ofTokens?, draft]
  simp only [present, Bool.false_eq_true, if_false]
  refine Draft.toPath?_of_keys ?_ ?_
  · rw [keys]
    exact List.forall_mem_map.2 fun _ _ empty => empty
  · rw [keys, keys_of_keyDraft, ofKeys?_keys]

/-! ### Paths with a text of their own -/

/-- The kind of a token that is no end of the text. -/
def innerKind? : TokenKind → Option TokenKind
  | .start => none
  | .stop => none
  | kind => some kind

theorem expressionTokens_eq (cs : List Char) :
    expressionTokens cs = ((Token.ofText .conf cs).map Placed.kind).filterMap innerKind? := by
  rw [List.filterMap_map]
  rfl

/-- The tokens of an expression are those between the ends of its text. -/
theorem expressionTokens_of_ends {kinds : List TokenKind}
    (ends : (Token.ofText .conf cs).map Placed.kind = .start :: (kinds ++ [.stop]))
    (inner : ∀ kind ∈ kinds, kind ≠ .start ∧ kind ≠ .stop) : expressionTokens cs = kinds := by
  have keep : ∀ kind ∈ kinds, innerKind? kind = some kind := fun kind hk => by
    obtain ⟨noStart, noStop⟩ := inner kind hk
    cases kind <;> first | rfl | contradiction
  rw [expressionTokens_eq, ends, List.filterMap_cons, List.filterMap_append]
  show kinds.filterMap innerKind? ++ [] = kinds
  rw [List.append_nil]
  exact (List.filterMap_congr keep).trans List.filterMap_some

theorem expressionTokens_of_passes {after' : Bool} {kinds : List TokenKind}
    (h : Passes true false cs kinds after' []) (pieces : ∀ kind ∈ kinds, kind.isPiece = true) :
    expressionTokens cs = kinds := by
  have passes : Passes (DocumentSyntax.conf != .json) false cs kinds after' [] := h
  refine expressionTokens_of_ends (passes.kinds_ofText rfl) fun kind hk => ?_
  have piece := pieces kind hk
  constructor <;> rintro rfl <;> cases piece

theorem isWordChar_of_isAlphanum {c : Char} (h : c.isAlphanum = true) : Text.isWordChar c = true := by
  have ascii : ∀ n < 128,
      (Char.ofNat n).isAlphanum = true → Text.isWordChar (Char.ofNat n) = true := by
    decide +kernel
  have small : c.toNat < 128 := by
    simp only [Char.isAlphanum, Char.isAlpha, Char.isUpper, Char.isLower, Char.isDigit,
      Bool.or_eq_true, Bool.and_eq_true, decide_eq_true_eq, ge_iff_le, UInt32.le_iff_toNat_le] at h
    have last : 'Z'.val.toNat = 90 ∧ 'z'.val.toNat = 122 ∧ '9'.val.toNat = 57 := by decide
    show c.val.toNat < 128
    omega
  have := ascii c.toNat small
  rw [Char.ofNat_toNat] at this
  exact this h

theorem keys_addBare (done : List KeyDraft) (current : List Char) (cs : List Char) :
    (Draft.addBare ⟨done, ⟨current.reverse, false⟩⟩ cs).keys
      = done.reverse ++ (splitPeriods current cs).map (⟨·, false⟩) := by
  induction cs generalizing done current with
  | nil => exact List.reverse_cons
  | cons c cs ih =>
    rw [Draft.addBare, splitPeriods]
    split
    · have closed := ih (⟨current.reverse, false⟩ :: done) []
      rwa [List.reverse_cons, List.append_assoc] at closed
    · rw [← ih, List.reverse_cons]

/-- The tokens of a text without quotes make a draft of its characters. -/
theorem ofTokens?_of_bare (nonempty : cs ≠ []) (bare : ∀ c ∈ cs, isBareChar c = true) :
    ofTokens? (expressionTokens cs) = (Draft.addBare {} cs).toPath? := by
  obtain ⟨kinds, after', passes, added⟩ := Gives.word [] bare nofun false
  rw [List.append_nil] at passes
  have present : kinds.isEmpty = false := by
    rw [List.isEmpty_eq_false_iff]
    rintro rfl
    cases passes
    exact nonempty rfl
  rw [expressionTokens_of_passes passes (isPiece_of_addTokens (added {})), ofTokens?, added]
  simp only [present, Bool.false_eq_true, if_false]

/-- Such a draft is finished if there is a key between any two periods. -/
theorem toPath?_addBare_eq_ok_iff {p : Path} : (Draft.addBare {} cs).toPath? = .ok p ↔
    p.keys = (cs.splitOn '.').map String.ofList ∧ ∀ word ∈ cs.splitOn '.', word ≠ [] := by
  have keys : (Draft.addBare {} cs).keys = (cs.splitOn '.').map (⟨·, false⟩) :=
    splitPeriods_nil cs ▸ keys_addBare [] [] cs
  have path : (Draft.addBare {} cs).keys.map (fun k => String.ofList k.text)
      = (cs.splitOn '.').map String.ofList := by
    rw [keys, List.map_map]
    rfl
  constructor
  · intro finished
    rw [Draft.toPath?] at finished
    split at finished
    · cases finished
    next noEmpty =>
    refine ⟨?_, fun word hword empty => noEmpty (List.any_eq_true.2 ⟨⟨word, false⟩, ?_, ?_⟩)⟩
    · split at finished
      · next eq => cases finished; rw [ofKeys?_eq_some_iff.1 eq, path]
      · cases finished
    · rw [keys]
      exact List.mem_map_of_mem hword
    · rw [empty]
      rfl
  · rintro ⟨eq, words⟩
    refine Draft.toPath?_of_keys ?_ (by rw [path, ← eq, ofKeys?_keys])
    rw [keys]
    exact List.forall_mem_map.2 fun word hword empty =>
      absurd (List.isEmpty_iff.1 empty) (words word hword)

theorem isBareChar_of_isPlain {c : Char} (h : isPlain c = true) : isBareChar c = true := by
  simp only [isPlain, isBareChar, Bool.or_eq_true] at h ⊢
  rcases h with ((h | h) | h) | h
  · exact .inr (.inr (isWordChar_of_isAlphanum h))
  · exact .inr (.inl (.inr h))
  · exact .inr (.inl (.inl h))
  · exact .inl h

/-- An expression is plain if its characters are, with no dash in front and a key between any two
periods. -/
theorem ofPlain?_eq_some_iff_splitOn {p : Path} : ofPlain? cs = some p ↔
    (∀ c ∈ cs, isPlain c = true) ∧ cs.head? ≠ some '-'
      ∧ p.keys = (cs.splitOn '.').map String.ofList ∧ ∀ word ∈ cs.splitOn '.', word ≠ [] := by
  rw [ofPlain?, splitPeriods_nil]
  split
  · next rule =>
    refine ⟨nofun, fun ⟨chars, noDash, _, words⟩ => ?_⟩
    simp only [Bool.or_eq_true, beq_iff_eq, Bool.not_eq_true'] at rule
    rcases rule with (empty | dash) | other
    · obtain ⟨word, hword, empty⟩ := List.any_eq_true.1 empty
      exact absurd (List.isEmpty_iff.1 empty) (words word hword)
    · exact absurd dash noDash
    · rw [List.all_eq_true.2 chars] at other
      cases other
  · next rule =>
    simp only [Bool.or_eq_true, not_or, beq_iff_eq, Bool.not_eq_true', Bool.not_eq_false] at rule
    obtain ⟨⟨words, noDash⟩, chars⟩ := rule
    rw [ofKeys?_eq_some_iff]
    refine ⟨fun keys => ⟨List.all_eq_true.1 chars, noDash, keys, fun word hword empty => ?_⟩,
      fun h => h.2.2.1⟩
    exact words (List.any_eq_true.2 ⟨word, hword, List.isEmpty_iff.2 empty⟩)

theorem ofTokens?_of_plain {p : Path} (plain : ofPlain? cs = some p) :
    ofTokens? (expressionTokens cs) = .ok p := by
  obtain ⟨chars, -, keys, words⟩ := ofPlain?_eq_some_iff_splitOn.1 plain
  have nonempty : cs ≠ [] := by
    rintro rfl
    exact words [] List.mem_cons_self rfl
  rw [ofTokens?_of_bare nonempty fun c hc => isBareChar_of_isPlain (chars c hc)]
  exact toPath?_addBare_eq_ok_iff.2 ⟨keys, words⟩

/-- **A plain expression is no exception**: its tokens spell the same path. -/
theorem ofText?_eq_ofTokens? (text : String) :
    ofText? text = ofTokens? (expressionTokens text.toList) := by
  unfold ofText?
  split
  · next plain => exact (ofTokens?_of_plain plain).symm
  · rfl

/-- A path is read from its own text. -/
theorem ofText?_render (p : Path) : ofText? p.render = .ok p := by
  obtain ⟨kinds, after', passes, spelled⟩ := exists_passes_render p [] false nofun
  rw [List.append_nil] at passes
  rw [ofText?_eq_ofTokens?, expressionTokens_of_passes passes (isPiece_of_ofTokens? spelled), spelled]

/-- No path starts with the sign of an optional reference. -/
theorem head?_render (p : Path) : p.render.toList.head? ≠ some '?' := by
  obtain ⟨cs, text⟩ : ∃ cs, p.render.toList = (renderKey p.first).toList ++ cs := by
    rw [render, keys, List.map_cons]
    rcases p.rest with _ | ⟨k, ks⟩
    · exact ⟨[], by simp⟩
    · exact ⟨_, by rw [List.map_cons, String.intercalate_cons_cons, String.toList_append,
        String.toList_append, List.append_assoc]⟩
  rw [text]
  unfold renderKey
  split
  · next bare =>
    rw [Bool.and_eq_true] at bare
    rcases key : p.first.toList with _ | ⟨c, ks⟩
    · exact absurd (String.toList_eq_nil_iff.1 key) (bne_iff_ne.1 bare.2)
    · have char := List.all_eq_true.1 bare.1 c (key ▸ List.mem_cons_self)
      have hc : isBareChar c = true := by rw [isBareChar, char, Bool.or_true]
      exact fun sign => isBareChar_ne hc (by decide) (Option.some.inj sign)
  · rw [Text.quote, String.toList_ofList]
    rintro ⟨⟩

end Path

/-! ### References in a document -/

/-- A document whose only field is a reference. -/
def PathReference.asField (r : PathReference) : String := "k = " ++ r.render

/-- The braces of a reference open and close around its path. -/
theorem openSubstitution?_render (r : PathReference) : openSubstitution? r.render.toList
    = some (r.optional, r.path.render.toList ++ ['\x7d']) := by
  obtain ⟨p, optional⟩ := r
  have head := p.head?_render
  cases optional with
  | true =>
    simp only [PathReference.render, if_true, String.toList_append]
    rfl
  | false =>
    simp only [PathReference.render, Bool.false_eq_true, if_false, String.toList_append]
    show openSubstitution? ('$' :: '\x7b' :: (p.render.toList ++ ['\x7d'])) = _
    unfold openSubstitution?
    split
    · next h =>
      rcases text : p.render.toList with _ | ⟨c, cs⟩ <;> rw [text] at h head
      · cases h
      · cases h
        exact absurd rfl head
    · next h => cases h; rfl
    · next h => exact absurd rfl (h _)

/-- The tokens of such a document. -/
theorem exists_tokens_asField (r : PathReference) : ∃ expression : List Token,
    (Token.ofText .conf r.asField.toList).map Placed.kind
      = [.start, .bare "k", .equals, .substitution r.optional expression, .stop]
    ∧ Path.ofTokens? (expression.map Placed.kind) = .ok r.path := by
  obtain ⟨cs, opens⟩ : ∃ cs, r.render.toList = '$' :: cs := by
    rw [PathReference.render, String.toList_append, String.toList_append, String.toList_append]
    exact ⟨_, rfl⟩
  have text : r.asField.toList = 'k' :: ([' '] ++ '=' :: ([' '] ++ '$' :: cs)) := by
    rw [PathReference.asField, String.toList_append, opens]
    rfl
  have key (rest : List Char) : scanFlat true 'k' ([' '] ++ rest) = (.bare "k", [' '] ++ rest) := rfl
  have sign : Passes true true ([' '] ++ '=' :: ([' '] ++ '$' :: cs)) [.equals] false
      ([' '] ++ '$' :: cs) := .blanks (.sign rfl) (fun _ => rfl) rfl
  have front : Passes true false ('k' :: ([' '] ++ '=' :: ([' '] ++ '$' :: cs))) _ _ _ :=
    (Passes.front (by decide) (by decide) (key _)).trans sign
  obtain ⟨ts, next, tokens, kinds, left⟩ :=
    Passes.tokensFrom (c := .ofText r.asField.toList) (text ▸ front)
  -- the reference is one token, and the last one
  obtain ⟨dollar, -⟩ := Cursor.rest_skipGap left rfl (by decide)
  have nonempty : next.skipGap.rest ≠ [] := dollar ▸ List.cons_ne_nil _ _
  obtain ⟨pieces, after', passes, spelled⟩ := r.path.exists_passes_render ['\x7d'] false
    (by simp)
  obtain ⟨expression, last, closed, hpieces, behind⟩ := Passes.pullExpression
    (c := next.skipGap.moveTo (r.path.render.toList ++ ['\x7d'])) rfl passes fun kind hk => by
      have piece := isPiece_of_ofTokens? spelled kind hk
      cases kind <;> first | cases piece; done | exact ⟨nofun, nofun⟩
  have pulled : (pullToken true next.skipGap nonempty).val = _ :=
    pullToken_substitution (by rw [dollar, ← opens]; exact openSubstitution?_render r) nonempty
  rw [closed] at pulled
  obtain ⟨stop, ends, hstop⟩ := Passes.tokensFrom_of_blank true true
    (c := next.skipGap.moveTo last.rest) (by rw [Cursor.rest_moveTo, behind]; rfl)
  refine ⟨expression, ?_, hpieces ▸ spelled⟩
  rw [tokensFrom_eq nonempty pulled,
    Cursor.gapToken_eq_nil _ _ (fun behind => absurd behind Bool.false_ne_true)] at tokens
  rw [Token.ofText, List.map_cons, show tokensFrom (DocumentSyntax.conf != .json) _ _ = _ from tokens,
    List.map_append, kinds]
  show _ :: (_ ++ _ :: (tokensFrom true (next.skipGap.moveTo last.rest) true).map Placed.kind) = _
  rw [ends, List.map_cons, hstop]
  rfl

namespace Document

variable {c : Context}

theorem exists_withComments_reference (o : Origin) (r : PathReference) (comments : List String) :
    ∃ o', withComments (.ofReference o r) comments = .ofReference o' r := by
  unfold withComments
  split
  · exact ⟨o, rfl⟩
  · exact ⟨_, rfl⟩

/-- A reference that stands alone is a value. -/
theorem readFieldValue_reference (hc : c.InConf) {t : Item} {optional : Bool}
    {expression : List Token} {p : Path} (ht : t.kind = .substitution optional expression)
    (spelled : Path.ofTokens? (expression.map Placed.kind) = .ok p) (comments : List String) :
    ∃ o le, readFieldValue c comments [t] = pure (.ofReference o ⟨p, optional⟩, ⟨[], le⟩) := by
  have firm : Firm [t] := .cons (by rw [ht]; rfl) _
  obtain ⟨_, skip⟩ := skipNewlines_of_firm hc firm
  have conf : c.syn ≠ .json := by rw [hc.syn]; decide
  have value : readValue c { t with comments := [] } [] [] =
      pure (.ofReference (c.originAt t.line) ⟨p, optional⟩, ⟨[], Nat.le_refl _⟩) := by
    rw [readValue]
    simp only [ht, pathOf, spelled]
    rfl
  have front : checkFront c [] = pure () := checkFront_eq hc (by rintro _ ⟨⟩)
  have pieces : readPieces c true [t]
      = pure ([.ofReference (c.originAt t.line) ⟨p, optional⟩], ⟨[], Nat.zero_le _⟩) := by
    rw [readPieces, if_pos (by rw [Item.continuesValue, ht]; rfl)]
    simp only [if_true, value, pure_bind, front, readPieces]
  have joined : readJoined c comments [t] = pure (some (withComments
      (.ofReference (c.originAt t.line) ⟨p, optional⟩) (comments ++ t.comments)),
      ⟨[], Nat.zero_le _⟩) := by
    rw [readJoined]
    simp only [skip, pure_bind, if_neg conf, pieces, Context.front, List.headD_cons]
    rfl
  obtain ⟨o, commented⟩ := exists_withComments_reference (c.originAt t.line) ⟨p, optional⟩
    (comments ++ t.comments)
  refine ⟨o, Nat.zero_le _, ?_⟩
  rw [readFieldValue, joined, commented]
  rfl

/-- **A document with a reference** is an object with the reference in it. -/
theorem readRoot_reference (hc : c.InConf) {key : String} {kind : TokenKind}
    (hkey : SpellsKey key kind) {optional : Bool} {expression : List Token} {p : Path}
    (spelled : Path.ofTokens? (expression.map Placed.kind) = .ok p) {s : List Item}
    (hs : s.map Item.kind = [kind, .equals, .substitution optional expression]) :
    ∃ o o', readRoot c s = pure (.ofFields o [(key, .ofReference o' ⟨p, optional⟩)]) := by
  obtain ⟨t, rest, rfl, rfl, hrest⟩ := List.map_eq_cons_iff.1 hs
  obtain ⟨u, s, rfl, hu, hs⟩ := List.map_eq_cons_iff.1 hrest
  obtain ⟨reference, s, rfl, hreference, hs⟩ := List.map_eq_cons_iff.1 hs
  cases List.map_eq_nil_iff.1 hs
  have conf : c.syn ≠ .json := by rw [hc.syn]; decide
  obtain ⟨_, read⟩ := readKey_eq hc hkey (s := [reference]) (.inr (.inl hu))
  have firm : Firm [u, reference] := .cons (by rw [hu]; rfl) _
  obtain ⟨_, skip⟩ := skipNewlines_of_firm hc firm
  obtain ⟨o, _, value⟩ := readFieldValue_reference (c :=
    { c.enter (.ofKey key) with afterEquals := c.afterEquals || true }) ⟨hc.syn, hc.stop⟩
    hreference spelled (t.comments ++ u.comments)
  have fresh : key ∉ Entries.keys ({} : Fields).entries := List.not_mem_nil
  obtain ⟨g, field, entries⟩ : ∃ g : Fields,
      readField c {} t [u, reference] = pure (g, ⟨[], Nat.zero_le _⟩)
      ∧ g.entries = [(key, .ofReference o ⟨p, optional⟩)] := by
    refine ⟨{
      entries := [(key, .ofReference o ⟨p, optional⟩)]
      lastKey := some (.ofKey key)
      lastAfterEquals := true }, ?_, rfl⟩
    rw [readField]
    simp only [read, pure_bind, skip, hu, hc.syn, isKeySeparator, TokenKind.isEquals,
      TokenKind.isPlusEquals, value, putField_fresh fresh]
    rfl
  obtain ⟨_, fields⟩ : ∃ le, readFields c false {} [t, u, reference] = pure (g.entries, ⟨[], le⟩) :=
    readFields_last hc lineEnds_nil hkey field .stop
  rw [entries] at fields
  obtain ⟨_, start⟩ := skipNewlines_of_firm hc (firm_of_key hkey [u, reference])
  obtain ⟨_, stop⟩ := skipNewlines_of_firm hc (s := []) (by rintro _ ⟨⟩)
  have noContainer : t.kind.opensContainer = false := by
    obtain ⟨literal, kind⟩ | ⟨text, kind⟩ := hkey.literal_or_bare <;> rw [kind] <;> rfl
  refine ⟨c.originAt t.line, o, ?_⟩
  unfold readRoot
  simp only [start, pure_bind, noContainer, Bool.false_eq_true, if_false, if_neg conf, fields, stop]
  rfl

end Document

/-- **Paths are read back from what they are written as**, by themselves as well as in a reference,
whatever their keys are. -/
theorem Path.reads_render (p : Path) : Path.ofText? p.render = .ok p ∧
    ∀ optional files (o : ParseOptions) (m : List IncludeRecord), ∃ origin origin',
      (parseText files { o with syn := some .conf }
          ("k = " ++ PathReference.render ⟨p, optional⟩)).run.run m
        = (.ok (.ofFields origin [("k", .ofReference origin' ⟨p, optional⟩)]), m) := by
  refine ⟨p.ofText?_render, fun optional files o m => ?_⟩
  let text := PathReference.asField ⟨p, optional⟩
  obtain ⟨origin, answer, eq⟩ := parseText_eq_read files o text
  obtain ⟨expression, tokens, spelled⟩ := exists_tokens_asField ⟨p, optional⟩
  have items : (Item.ofTokens (Token.ofText .conf text.toList)).map Item.kind
      = [.bare "k", .equals, .substitution optional expression] := by
    rw [kinds_ofTokens, itemKinds, tokens]
    rfl
  obtain ⟨origin, origin', root⟩ := Document.readRoot_reference (c :=
    { syn := .conf, origin, answer, keys := [], afterEquals := false
      stop := .stopOf (Token.ofText .conf text.toList) })
    ⟨rfl, kind_stopOf _ _⟩ (spellsKey_bare (by decide +kernel)) spelled items
  have read : Document.read .conf _ answer text = _ := root
  refine ⟨origin, origin', ?_⟩
  show (parseText files { o with syn := some .conf } text).run.run m = _
  rw [eq .conf (by decide), read, pure_bind]
  rfl

/-- Numbers and keywords are cut out of keys, and a number may go on across a period. -/
example : (Path.mk "1" ["e5", "", "trueX", "a b", "-"]).render = "1.e5.\"\".trueX.\"a b\".-" := by
  decide +kernel

end Hocon
