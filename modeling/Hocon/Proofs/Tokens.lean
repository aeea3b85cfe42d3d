import Hocon.Document.Item
import Hocon.Proofs.WellFormed
import Hocon.Token.Lexer

/-!
# What the tokens of a text are like

A token for a number holds the text that it was read from, and that text reads as this number
again; a comment is one line.  The lexer, the attachment of comments and the grammar all hand
tokens on as they are, so this is true of every number and every comment of a document.
-/

namespace Hocon

namespace TokenKind

/-- A number is the one that its spelling stands for, and a comment is one line. -/
def Genuine : TokenKind → Prop
  | value (.whole n text) => Value.Spelled (.whole n) (some text)
  | value (.double d text) => Value.Spelled (.double d) (some text)
  | comment text _ => '\n' ∉ text.toList
  | _ => True

end TokenKind

namespace Scan

/-- The literal that a run of characters spells is genuine. -/
theorem genuine_of_numberLiteral? {first : Char} {rest : List Char} {literal : Literal}
    (hf : startsNumber first = true) (hr : rest.all continuesNumber = true)
    (h : numberLiteral? (first :: rest) = some literal) :
    (TokenKind.value literal).Genuine := by
  have h' := h
  unfold numberLiteral? at h
  split at h
  · obtain ⟨d, -, rfl⟩ := Option.map_eq_some_iff.1 h
    exact ⟨first, rest, rfl, hf, hr, h'⟩
  · obtain ⟨n, -, rfl⟩ := Option.map_eq_some_iff.1 h
    exact ⟨first, rest, rfl, hf, hr, h'⟩

theorem genuine_scanNumber {first : Char} (hf : startsNumber first = true) (cs : List Char) :
    (toKind (scanNumber first cs)).1.Genuine := by
  unfold scanNumber
  simp only []
  split
  · next literal h => exact genuine_of_numberLiteral? hf List.all_takeWhile h
  · split <;> trivial

theorem genuine_scanBare (comments : Bool) (taken cs : List Char) :
    (scanBare comments taken cs).1.Genuine := by
  induction cs generalizing taken with
  | nil => trivial
  | cons c cs ih =>
    rw [scanBare]
    split
    · trivial
    · split
      · next literal h =>
        -- keywords are no numbers
        unfold keyword? at h
        split at h
        · cases h
          trivial
        · split at h
          · cases h
            trivial
          · split at h <;> cases h
            trivial
      · exact ih _

theorem genuine_scanString (cs : List Char) : (toKind (scanString cs)).1.Genuine := by
  unfold scanString
  simp only []
  split <;> split <;> trivial

/-- A comment ends with its line. -/
theorem not_mem_scanComment (cs : List Char) : '\n' ∉ (scanComment cs).1 := by
  intro h
  have h := (List.dropWhile_sublist _).subset (List.mem_reverse.1 h)
  have := List.all_eq_true.1 List.all_takeWhile _ (List.mem_reverse.1 h)
  simp at this

theorem genuine_scanFlat (comments : Bool) (first : Char) (cs : List Char) :
    (scanFlat comments first cs).1.Genuine := by
  unfold scanFlat
  split
  · simpa only [TokenKind.Genuine, String.toList_ofList] using not_mem_scanComment _
  · split
    · next kind h =>
      unfold punctuation? at h
      split at h <;> cases h <;> trivial
    · split
      · exact genuine_scanString cs
      · split
        · unfold scanPlus
          split <;> trivial
        · split
          · next h => exact genuine_scanNumber h cs
          · split
            · trivial
            · split
              · trivial
              · exact genuine_scanBare comments [first] cs

end Scan

theorem genuine_pullToken (comments : Bool) (c : Cursor) (h : c.rest ≠ []) :
    (pullToken comments c h).1.1.kind.Genuine := by
  obtain ⟨cs, place, line⟩ := c
  cases cs with
  | nil => exact absurd rfl h
  | cons first cs =>
    rw [pullToken]
    split
    · split <;> trivial
    · exact Scan.genuine_scanFlat _ _ _

theorem genuine_gapToken (c next : Cursor) (afterValue beforeValue : Bool) :
    ∀ t ∈ c.gapToken next afterValue beforeValue, t.kind.Genuine := by
  unfold Cursor.gapToken
  split
  · exact List.forall_mem_singleton.2 trivial
  · exact List.forall_mem_nil _

theorem genuine_tokensFrom (comments : Bool) (c : Cursor) (afterValue : Bool) :
    ∀ t ∈ tokensFrom comments c afterValue, t.kind.Genuine := by
  fun_induction tokensFrom comments c afterValue with
  | case1 c afterValue b le h => exact List.forall_mem_singleton.2 trivial
  | case2 c afterValue b le h t next lt hp shorter ih =>
    have genuine : t.kind.Genuine := by
      have := genuine_pullToken comments b h
      rwa [hp] at this
    refine List.forall_mem_append.2 ⟨genuine_gapToken _ _ _ _, ?_⟩
    exact List.forall_mem_cons.2 ⟨genuine, ih⟩

theorem genuine_ofText (syn : DocumentSyntax) (text : List Char) :
    ∀ t ∈ Token.ofText syn text, t.kind.Genuine :=
  List.forall_mem_cons.2 ⟨trivial, genuine_tokensFrom _ _ _⟩

theorem genuine_dropSideComments {ts : List Token} (h : ∀ t ∈ ts, t.kind.Genuine)
    (midLine : Bool) : ∀ t ∈ dropSideComments midLine ts, t.kind.Genuine := by
  induction ts generalizing midLine with
  | nil => exact List.forall_mem_nil _
  | cons t ts ih =>
    obtain ⟨ht, h⟩ := List.forall_mem_cons.1 h
    rw [dropSideComments]
    split
    · exact List.forall_mem_cons.2 ⟨ht, ih h _⟩
    · split
      · exact ih h _
      · exact List.forall_mem_cons.2 ⟨ht, ih h _⟩
    · exact List.forall_mem_cons.2 ⟨ht, ih h _⟩
    · exact List.forall_mem_cons.2 ⟨ht, ih h _⟩

/-- A token is as texts have them, and the comments above it are lines. -/
structure Item.Genuine (t : Item) : Prop where
  kind : t.kind.Genuine
  comments : Lines t.comments

theorem genuine_attachComments {ts : List Token} (h : ∀ t ∈ ts, t.kind.Genuine)
    {block : Option CommentBlock}
    (hb : ∀ b ∈ block, Lines b.comments) :
    ∀ t ∈ attachComments block ts, t.Genuine := by
  induction ts generalizing block with
  | nil => exact List.forall_mem_nil _
  | cons t ts ih =>
    obtain ⟨ht, h⟩ := List.forall_mem_cons.1 h
    have none : ∀ b ∈ (none : Option CommentBlock), Lines b.comments := nofun
    unfold attachComments
    split
    · exact ih h hb
    · exact ih h hb
    · next text slashes kind =>
      rw [kind] at ht
      refine ih h fun b hb => ?_
      cases hb
      exact List.forall_mem_singleton.2 ht
    · next text slashes b kind =>
      rw [kind] at ht
      refine ih h fun b' hb' => ?_
      cases hb'
      exact List.forall_mem_append.2 ⟨hb b rfl, List.forall_mem_singleton.2 ht⟩
    · exact List.forall_mem_cons.2 ⟨⟨ht, List.forall_mem_nil _⟩, ih h none⟩
    · next b kind =>
      refine List.forall_mem_cons.2 ⟨⟨ht, List.forall_mem_nil _⟩, ih h fun b' hb' => ?_⟩
      cases hb'
      simp only []
      split
      · exact List.forall_mem_nil _
      · exact hb b rfl
    · exact List.forall_mem_cons.2 ⟨⟨ht, List.forall_mem_nil _⟩, ih h none⟩
    · next b _ _ _ _ => exact List.forall_mem_cons.2 ⟨⟨ht, hb b rfl⟩, ih h none⟩

/-- The items of a document are as texts have them. -/
theorem genuine_ofTokens {ts : List Token} (h : ∀ t ∈ ts, t.kind.Genuine) :
    ∀ t ∈ Item.ofTokens ts, t.Genuine :=
  genuine_attachComments (genuine_dropSideComments h false) nofun

end Hocon
