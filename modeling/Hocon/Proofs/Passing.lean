import Mathlib.Data.List.TakeWhile
import Hocon.Proofs.Lexing

/-!
# Passing over tokens

`Passes comments after cs kinds after' rest` says that the lexer gets over tokens of these kinds
from where `cs` is left to where `rest` is left; `after` and `after'` tell whether a value stands
in front of either place.  Like `Lexed` it speaks of kinds and not of places.  But it counts
comments among the tokens, it holds of either syntax, and it may stop anywhere: before the brace
that closes a substitution (`Passes.pullExpression`) as well as at the end of the text
(`Passes.kinds_ofText`).
-/

namespace Hocon

open Scan

/-- From `cs` to `rest` there are tokens of these kinds, and no blanks between two values. -/
inductive Passes (comments : Bool) : Bool → List Char → List TokenKind → Bool → List Char → Prop
  | refl (after : Bool) (cs : List Char) : Passes comments after cs [] after cs
  | token {after after' : Bool} {gap cs mid rest : List Char} {first : Char} {kind : TokenKind}
      {kinds : List TokenKind} (blank : gap.all Cursor.isGap = true)
      (solid : Cursor.isGap first = false) (flat : first ≠ '$')
      (scan : scanFlat comments first cs = (kind, mid))
      (apart : after = true → kind.isSimpleValue = true → gap = [])
      (more : Passes comments kind.isSimpleValue mid kinds after' rest) :
      Passes comments after (gap ++ first :: cs) (kind :: kinds) after' rest

namespace Passes

variable {comments after after' : Bool} {cs mid rest : List Char} {first : Char} {kind : TokenKind}
  {kinds kinds' : List TokenKind}

/-! ### Putting texts together -/

theorem trans {mid' : Bool} (h : Passes comments after cs kinds mid' mid)
    (h' : Passes comments mid' mid kinds' after' rest) :
    Passes comments after cs (kinds ++ kinds') after' rest := by
  induction h with
  | refl => exact h'
  | token blank solid flat scan apart _ ih => exact .token blank solid flat scan apart (ih h')

/-- A token that nothing keeps from what is in front. -/
theorem front (solid : Cursor.isGap first = false) (flat : first ≠ '$')
    (scan : scanFlat comments first cs = (kind, rest)) :
    Passes comments after (first :: cs) [kind] kind.isSimpleValue rest :=
  show Passes comments after ([] ++ first :: cs) _ _ _ from
    .token rfl solid flat scan (fun _ _ => rfl) (.refl _ _)

/-- A sign, which may stand behind a value. -/
theorem sign {c : Char} (h : punctuation? c = some kind) :
    Passes comments after (c :: rest) [kind] false rest := by
  have facts : c ≠ '#' ∧ c ≠ '/' ∧ c ≠ '$' ∧ Cursor.isGap c = false ∧ kind.isSimpleValue = false := by
    unfold punctuation? at h
    split at h <;> cases h <;> decide
  obtain ⟨hash, slash, flat, solid, simple⟩ := facts
  have scan : scanFlat comments c rest = (kind, rest) := by
    unfold scanFlat
    rw [opensComment_cons hash slash, h]
    rfl
  rw [← simple]
  exact .front solid flat scan

/-- Nothing that is passed over where no value stands in front depends on that. -/
theorem of_after (h : Passes comments after cs (kind :: kinds) after' rest) :
    Passes comments false cs (kind :: kinds) after' rest := by
  cases h with
  | token blank solid flat scan _ more => exact .token blank solid flat scan nofun more

/-- Blanks in front of a token that is not joined with what stands before them. -/
theorem blanks (h : Passes comments after cs (kind :: kinds) after' rest)
    (apart : after = true → kind.isSimpleValue = false) {gap : List Char}
    (blank : gap.all Cursor.isGap = true) :
    Passes comments after (gap ++ cs) (kind :: kinds) after' rest := by
  cases h with
  | token blank' solid flat scan _ more =>
    rw [← List.append_assoc]
    refine .token ?_ solid flat scan (fun value simple => ?_) more
    · rw [List.all_append, blank, blank']
      rfl
    · rw [apart value] at simple
      cases simple

/-! ### What the lexer does -/

/-- **The lexer gets over these tokens.** -/
theorem tokensFrom {c : Cursor} (h : Passes comments after c.rest kinds after' rest) :
    ∃ ts next, Hocon.tokensFrom comments c after = ts ++ Hocon.tokensFrom comments next after'
      ∧ ts.map Placed.kind = kinds ∧ next.rest = rest := by
  generalize hc : c.rest = cs at h
  induction h generalizing c with
  | refl => exact ⟨[], c, rfl, rfl, hc⟩
  | token blank solid flat scan apart _ ih =>
    obtain ⟨t, next, eq, kind, left⟩ := exists_tokensFrom_cons hc blank solid flat scan apart
    obtain ⟨ts, last, eq', kinds, left'⟩ := ih left
    refine ⟨t :: ts, last, ?_, ?_, left'⟩
    · rw [eq, eq', List.cons_append]
    · rw [List.map_cons, kind, kinds]

/-- **The lexer reads these tokens up to the brace** that closes a substitution. -/
theorem pullExpression {c : Cursor} (hc : c.rest = cs)
    (h : Passes comments after cs kinds after' ('\x7d' :: rest))
    (inner : ∀ kind ∈ kinds, kind ≠ .closeBrace ∧ ∀ p, kind ≠ .problem p) :
    ∃ ts next, (Hocon.pullExpression comments c after).val = (.ok ts, next)
      ∧ ts.map Placed.kind = kinds ∧ next.rest = rest := by
  generalize htail : '\x7d' :: rest = tail at h
  induction h generalizing c with
  | refl =>
    subst htail
    obtain ⟨front, -⟩ :=
      Cursor.rest_skipGap (show c.rest = [] ++ '\x7d' :: rest from hc) rfl (by decide)
    have nonempty : c.skipGap.rest ≠ [] := front ▸ List.cons_ne_nil _ _
    have scan : scanFlat comments '\x7d' rest = (.closeBrace, rest) := rfl
    obtain ⟨kind, left⟩ := pullToken_flat front (by decide) scan nonempty
    refine ⟨[], _, ?_, rfl, left⟩
    rw [pullExpression_eq nonempty rfl, kind]
  | @token after _ gap _ _ _ _ kind _ blank solid flat scan apart _ ih =>
    obtain ⟨front, hgap⟩ := Cursor.rest_skipGap hc blank solid
    have nonempty : c.skipGap.rest ≠ [] := front ▸ List.cons_ne_nil _ _
    obtain ⟨hkind, left⟩ := pullToken_flat front flat scan nonempty
    obtain ⟨⟨closed, problem⟩, inner⟩ := List.forall_mem_cons.1 inner
    obtain ⟨ts, last, more, kinds, left'⟩ := ih left inner htail
    have nothing : c.gapToken c.skipGap after kind.isSimpleValue = [] :=
      c.gapToken_eq_nil _ fun value simple => hgap.trans (apart value simple)
    refine ⟨(pullToken comments c.skipGap nonempty).val.1 :: ts, last, ?_, ?_, left'⟩
    · rw [pullExpression_eq nonempty rfl, hkind]
      split
      · exact absurd rfl closed
      · exact absurd rfl (problem _)
      · simp only [more, nothing, List.nil_append]
    · rw [List.map_cons, hkind, kinds]

/-- Behind the last token blanks may be left. -/
theorem tokensFrom_of_blank (comments after : Bool) {c : Cursor}
    (blank : c.rest.all Cursor.isGap = true) :
    ∃ t, Hocon.tokensFrom comments c after = [t] ∧ t.kind = .stop := by
  have nothing : c.skipGap.rest = [] := List.dropWhile_eq_nil_iff.2 (List.all_eq_true.1 blank)
  refine ⟨c.skipGap.stopToken, ?_, rfl⟩
  rw [Hocon.tokensFrom, dif_pos nothing]

/-- **The tokens of a whole text.** -/
theorem kinds_ofText {syn : DocumentSyntax} (h : Passes (syn != .json) false cs kinds after' rest)
    (blank : rest.all Cursor.isGap = true) :
    (Token.ofText syn cs).map Placed.kind = .start :: (kinds ++ [.stop]) := by
  obtain ⟨ts, next, eq, kinds, left⟩ := tokensFrom (c := .ofText cs) h
  obtain ⟨t, eq', stop⟩ := tokensFrom_of_blank (syn != .json) after' (c := next) (left ▸ blank)
  rw [Token.ofText, eq, eq', List.map_cons, List.map_append, kinds, List.map_cons, stop]
  rfl

/-- The items of a text are its tokens without comments. -/
theorem items {syn : DocumentSyntax} (h : Passes (syn != .json) false cs kinds after' rest)
    (blank : rest.all Cursor.isGap = true) :
    (Item.ofTokens (Token.ofText syn cs)).map Item.kind = kinds.filter TokenKind.isItem := by
  rw [kinds_ofTokens, itemKinds, h.kinds_ofText blank, List.filter_cons, List.filter_append]
  exact List.append_nil _

end Passes

end Hocon
