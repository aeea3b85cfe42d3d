import Hocon.Config
import Hocon.Proofs.Lossless
import Hocon.Proofs.PathText

/-!
# Plain path expressions need no tokens

`Path.ofPlain?` splits an expression of plain words at its periods and looks at no tokens.  The
lexer cuts the same text elsewhere: a run of digits, dashes and periods may be a number or not, an
`e` may be an exponent, and a keyword ends as soon as it is complete.  But it loses no character of
it, and periods split what it makes of the text wherever they stand (`Path.ofTokens?_of_bare`).

So the way past the lexer is only a shorter one (`Path.ofPlain?_agrees`).  It takes just the texts
that are the keys of a path with periods between them and do not start with a dash
(`Path.IsPlainText`); a dash in front would change nothing, and what is left to the lexer for it
gives the same keys.
-/

namespace Hocon

open Scan

variable {cs : List Char} {text : String} {p : Path}

/-! ### The tokens between the ends -/

/-- What stands on some of a text is no end of it. -/
theorem Token.Faithful.noEnd {t : Token} (h : Token.Faithful cs t) :
    t.kind ≠ .start ∧ t.kind ≠ .stop := by
  obtain ⟨covers, -, -, -⟩ := h
  have quotes := covers.quotes
  constructor <;> intro kind <;> rw [kind] at quotes <;> exact quotes

/-- The tokens of an expression have the ends of its text around them. -/
theorem Path.kinds_ofText_eq (cs : List Char) :
    (Token.ofText .conf cs).map Placed.kind = .start :: (Path.expressionTokens cs ++ [.stop]) := by
  have front : (Cursor.ofText cs).At cs [] := ⟨rfl, rfl, rfl⟩
  obtain ⟨inner, eq, faithful, -⟩ := exists_tokensFrom true false front
  have ends : (Token.ofText .conf cs).map Placed.kind
      = .start :: (inner.map Placed.kind ++ [.stop]) := by
    show _ :: (tokensFrom true (.ofText cs) false).map Placed.kind = _
    rw [eq, List.map_append]
    rfl
  have noEnd : ∀ kind ∈ inner.map Placed.kind, kind ≠ .start ∧ kind ≠ .stop :=
    List.forall_mem_map.2 fun t ht => (faithful t ht).noEnd
  rw [ends, Path.expressionTokens_of_ends ends noEnd]

/-! ### Plain texts -/

/-- The text is the keys of the path with periods between them, of letters and digits, dashes and
underscores, and has no dash in front. -/
structure Path.IsPlainText (p : Path) (text : String) : Prop where
  keys : ".".intercalate p.keys = text
  words : ∀ k ∈ p.keys, k ≠ "" ∧ '.' ∉ k.toList
  chars : ∀ c ∈ text.toList, c.isAlphanum = true ∨ c = '_' ∨ c = '-' ∨ c = '.'
  noDash : text.toList.head? ≠ some '-'

namespace Path

theorem isPlain_iff {c : Char} :
    isPlain c = true ↔ c.isAlphanum = true ∨ c = '_' ∨ c = '-' ∨ c = '.' := by
  simp only [isPlain, Bool.or_eq_true, beq_iff_eq, or_assoc]

/-- No word goes on over a period. -/
theorem not_mem_of_mem_splitPeriods {current word : List Char}
    (h : word ∈ splitPeriods current cs) (inside : '.' ∉ current) : '.' ∉ word := by
  induction cs generalizing current with
  | nil =>
    rw [splitPeriods, List.mem_singleton] at h
    rwa [h, List.mem_reverse]
  | cons c cs ih =>
    rw [splitPeriods] at h
    split at h
    · rcases List.mem_cons.1 h with rfl | h
      · rwa [List.mem_reverse]
      · exact ih h List.not_mem_nil
    · next noPeriod =>
      exact ih h (List.not_mem_cons_of_ne_of_not_mem (Ne.symm noPeriod) inside)

/-- A text is split into the keys that it consists of. -/
theorem keys_eq_splitOn_iff :
    p.keys = (text.toList.splitOn '.').map String.ofList
      ↔ ".".intercalate p.keys = text ∧ ∀ k ∈ p.keys, '.' ∉ k.toList := by
  have joined : (".".intercalate p.keys).toList = ['.'].intercalate (p.keys.map String.toList) :=
    String.toList_intercalate
  constructor
  · intro keys
    have words : p.keys.map String.toList = text.toList.splitOn '.' := by
      rw [keys, List.map_map]
      exact (List.map_congr_left fun word _ => String.toList_ofList).trans (List.map_id _)
    refine ⟨?_, fun k hk => ?_⟩
    · rw [← String.toList_inj, joined, words, List.intercalate_splitOn]
    · have word : k.toList ∈ splitPeriods [] text.toList := by
        rw [splitPeriods_nil, ← words]
        exact List.mem_map_of_mem hk
      exact not_mem_of_mem_splitPeriods word List.not_mem_nil
  · rintro ⟨rfl, words⟩
    have nonempty : p.keys.map String.toList ≠ [] := mt List.map_eq_nil_iff.1 p.keys_ne_nil
    rw [joined, List.splitOn_intercalate '.' (List.forall_mem_map.2 words) nonempty, List.map_map]
    exact ((List.map_congr_left fun k _ => String.ofList_toList).trans (List.map_id _)).symm

/-- **Which texts are read without tokens**, and as what path. -/
theorem ofPlain?_eq_some_iff : ofPlain? text.toList = some p ↔ p.IsPlainText text := by
  rw [ofPlain?_eq_some_iff_splitOn]
  constructor
  · rintro ⟨chars, noDash, keys, words⟩
    obtain ⟨joined, noPeriod⟩ := keys_eq_splitOn_iff.1 keys
    refine ⟨joined, fun k hk => ⟨?_, noPeriod k hk⟩, fun c hc => isPlain_iff.1 (chars c hc), noDash⟩
    rintro rfl
    rw [keys] at hk
    obtain ⟨word, hword, empty⟩ := List.mem_map.1 hk
    exact words word hword (String.ofList_eq_empty_iff.1 empty)
  · intro h
    have keys := keys_eq_splitOn_iff.2 ⟨h.keys, fun k hk => (h.words k hk).2⟩
    refine ⟨fun c hc => isPlain_iff.2 (h.chars c hc), h.noDash, keys, ?_⟩
    rintro word hword rfl
    exact (h.words "" (keys ▸ List.mem_map_of_mem hword)).1 rfl

/-! ### Both ways of reading -/

/-- **Reading an expression without its tokens is a shorter way to the same answer**, and nothing
else.  Where it gives a path, the tokens between the ends of the text spell that path.  So what is
read for any text at all, be it a path or a fault, is what its tokens give, and a caller hears of
the fault with the text that he gave. -/
theorem ofPlain?_agrees (text : String) : ∃ kinds : List TokenKind,
    (Token.ofText .conf text.toList).map Placed.kind = .start :: (kinds ++ [.stop])
      ∧ (∀ p, ofPlain? text.toList = some p ↔ p.IsPlainText text)
      ∧ (∀ p, ofPlain? text.toList = some p → ofTokens? kinds = .ok p)
      ∧ ofText? text = ofTokens? kinds
      ∧ ofParameter? text
        = (ofTokens? kinds).mapError (.badPath (some (.named "path parameter")) text) := by
  have same := ofText?_eq_ofTokens? text
  refine ⟨expressionTokens text.toList, kinds_ofText_eq _, fun p => ofPlain?_eq_some_iff,
    fun p plain => ofTokens?_of_plain plain, same, ?_⟩
  rw [ofParameter?, ← same]
  cases ofText? text with
  | ok p => rfl
  | error fault => rfl

/-- Two keys in one token, which is no number; a keyword, which ends within a key; and a number,
which goes on over a period. -/
theorem ofPlain?_agrees_example :
    let text := "1.5.true-2.5"
    let p : Path := ⟨"1", ["5", "true-2", "5"]⟩
    ofPlain? text.toList = some p ∧ ∃ d : Double,
      (Token.ofText .conf text.toList).map Placed.kind = [.start, .bare "1.5.", .value (.bool true),
          .value (.double d "-2.5"), .stop]
        ∧ ofTokens? [.bare "1.5.", .value (.bool true), .value (.double d "-2.5")] = .ok p := by
  intro text p
  have plain : ofPlain? text.toList = some p := by decide +kernel
  have digits : scanFlat true '1' ".5.true-2.5".toList = (.bare "1.5.", "true-2.5".toList) := rfl
  have keyword : scanFlat true 't' "rue-2.5".toList = (.value (.bool true), "-2.5".toList) := rfl
  obtain ⟨d, number⟩ : ∃ d, scanFlat true '-' "2.5".toList = (.value (.double d "-2.5"), []) :=
    ⟨_, rfl⟩
  have passes : Passes (DocumentSyntax.conf != .json) false ('1' :: ".5.true-2.5".toList) _ _ _ :=
    (Passes.front (by decide) (by decide) digits).trans
      ((Passes.front (by decide) (by decide) keyword).trans
        (Passes.front (by decide) (by decide) number))
  have front : text.toList = '1' :: ".5.true-2.5".toList := by decide
  have tokens : (Token.ofText .conf text.toList).map Placed.kind = .start ::
      ([.bare "1.5.", .value (.bool true), .value (.double d "-2.5")] ++ [.stop]) := by
    rw [front]
    exact passes.kinds_ofText rfl
  obtain ⟨kinds, eq, -, same, -⟩ := ofPlain?_agrees text
  obtain rfl := List.append_cancel_right (List.cons.inj (eq.symm.trans tokens)).2
  exact ⟨plain, d, tokens, same p plain⟩

end Path

end Hocon
