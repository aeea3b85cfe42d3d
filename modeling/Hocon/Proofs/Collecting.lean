import Hocon.Proofs.Joining
import Hocon.Proofs.Recognition

/-!
# Neighbours as a text has them

The blanks between two values of one line are a piece of their own, and blanks are a piece nowhere
else.  So of the neighbours that make up a value no two are blanks in a row, and none is a blank in
front of an object or a list (`Document.collected_readPieces`).
-/

namespace Hocon

variable {c : Cursor} {after : Bool} {kind : TokenKind} {kinds : List TokenKind}

/-! ### The blanks of a text -/

/-- Behind a blank stands a value that is none. -/
def TokenKind.Leads (kind next : TokenKind) : Prop :=
  kind.isBlank = true → next.isSimpleValue = true ∧ next.isBlank = false

theorem TokenKind.exists_bare_of_isBlank (blank : kind.isBlank = true) :
    ∃ text, kind = .bare text ∧ text.toList.all Text.isBlank = true := by
  cases kind with
  | bare text => exact ⟨text, rfl, blank⟩
  | _ => cases blank

/-- What is pulled behind the blanks is not one of them. -/
theorem notBlank_of_pullToken {t : Token} {next : Cursor}
    {lt : next.rest.length < c.skipGap.rest.length} {h : c.skipGap.rest ≠ []}
    (pulled : pullToken true c.skipGap h = ⟨(t, next), lt⟩) : t.kind.isBlank = false := by
  by_contra blank
  obtain ⟨text, kind, blanks⟩ :=
    TokenKind.exists_bare_of_isBlank (Bool.eq_true_of_not_eq_false blank)
  obtain ⟨first, cs, front, -, scan⟩ := pullToken_of_isFlat pulled (by rw [kind]; rfl)
  have solid := Cursor.isGap_of_skipGap front
  -- bare text starts with the character it is scanned from
  obtain ⟨read, -, quotes⟩ := Scan.quotes_scanFlat true first cs
  rw [scan, kind] at quotes
  have starts : first :: read = text.toList := quotes
  rw [← starts, List.all_cons, Bool.and_eq_true] at blanks
  rw [Cursor.isGap, blanks.1, Bool.and_true, bne_eq_false_iff_eq] at solid
  subst solid
  have newline : t.kind = .newline := (congrArg Prod.fst scan).symm
  cases kind.symm.trans newline

/-- Blanks lead to values wherever a text has them. -/
theorem isChain_itemKinds (c : Cursor) (after : Bool) :
    (itemKinds (tokensFrom true c after)).IsChain TokenKind.Leads := by
  fun_induction tokensFrom true c after with
  | case1 => exact .nil
  | case2 c after b le h t next lt pulled shorter ih =>
    have solid := notBlank_of_pullToken pulled
    have chain : (itemKinds (t :: tokensFrom true next t.kind.isSimpleValue)).IsChain
        TokenKind.Leads := by
      rw [itemKinds_cons]
      split
      · refine List.isChain_cons.2 ⟨fun _ _ blank => ?_, ih⟩
        rw [solid] at blank
        cases blank
      · exact ih
    unfold Cursor.gapToken
    split
    · next between =>
      obtain ⟨value, -⟩ := Bool.and_eq_true_iff.1 between
      obtain ⟨-, value⟩ := Bool.and_eq_true_iff.1 value
      have item : t.kind.isItem = true := by
        cases kind : t.kind <;> rw [kind] at value <;> first | rfl | cases value
      rw [itemKinds_cons t, if_pos item] at chain
      show (itemKinds (_ :: t :: _)).IsChain _
      rw [itemKinds_cons, itemKinds_cons, if_pos item]
      exact .cons_cons (fun _ => ⟨value, solid⟩) chain
    · exact chain

theorem Document.isChain_itemsOf (text : String) :
    ((itemsOf text).map Item.kind).IsChain TokenKind.Leads := by
  rw [kinds_itemsOf]
  exact isChain_itemKinds _ _

/-! ### The pieces that are read -/

namespace Value

/-- What can be said of a piece by the token it starts with. -/
structure StartsAt (kind : TokenKind) (v : Value) : Prop where
  blank : v.isBlankText = kind.isBlank
  apart : kind.isSimpleValue = true → v.isContainer = false

theorem StartsAt.withComments {v : Value} (h : StartsAt kind v) (comments : List String) :
    StartsAt kind (Document.withComments v comments) := by
  unfold Document.withComments
  split
  · exact h
  · obtain ⟨blank, apart⟩ := h
    constructor
    · rw [← blank]
      cases v with
      | string p t quoted => cases quoted <;> rfl
      | _ => rfl
    · intro value
      rw [← apart value]
      cases v <;> rfl

theorem isSingle_of_isPiece {v : Value} (piece : v.isPiece = true) : v.isSingle = true := by
  cases v <;> first | rfl | cases piece

/-- A blank among the pieces is followed as it is among the tokens. -/
theorem StartsAt.spaced {next : TokenKind} {v w : Value} (hv : StartsAt kind v)
    (hw : StartsAt next w) (leads : kind.Leads next) : Spaced v w := by
  intro blank
  obtain ⟨value, notBlank⟩ := leads (hv.blank ▸ blank)
  exact ⟨hw.apart value, hw.blank.trans notBlank⟩

end Value

/-- A blank is a term of its own. -/
theorem Term.Written.eq_nil_of_isBlank {term : Term} (h : Term.Written term (kind :: kinds))
    (blank : kind.isBlank = true) : kinds = [] := by
  cases h <;> first | rfl | cases blank

namespace Document

open Value

variable {c : Context} {t : Item} {comments : List String} {s : List Item}

theorem gives_readValue : Gives (readValue c t comments s) fun r => StartsAt t.kind r.1 := by
  rw [readValue]
  simp only []
  split
  · next literal kind =>
    rw [kind]
    refine .pure (.withComments ?_ _)
    cases literal <;> exact ⟨rfl, fun _ => rfl⟩
  · next text kind =>
    rw [kind]
    exact .pure (.withComments ⟨rfl, fun _ => rfl⟩ _)
  · next kind =>
    rw [kind]
    exact .after fun _ => .pure (.withComments ⟨rfl, fun _ => rfl⟩ _)
  · next kind =>
    rw [kind]
    exact .after fun _ => .pure (.withComments ⟨rfl, by rintro ⟨⟩⟩ _)
  · next kind =>
    rw [kind]
    exact .after fun _ => .pure (.withComments ⟨rfl, by rintro ⟨⟩⟩ _)
  · exact .throw

/-- Each piece starts at its token, and a blank one leaves what is behind that token. -/
theorem gives_readPieces (conf : c.InConf) (first : Bool)
    (chain : (s.map Item.kind).IsChain TokenKind.Leads) :
    Gives (readPieces c first s) fun r => Collected r.1
      ∧ ∀ v ∈ r.1.head?, ∃ t ∈ s.head?, StartsAt t.kind v := by
  obtain ⟨k, hk⟩ : ∃ k, s.length = k := ⟨_, rfl⟩
  induction k using Nat.strongRecOn generalizing first s with
  | ind k ih =>
    cases s with
    | nil =>
      rw [readPieces]
      exact .pure ⟨⟨List.forall_mem_nil _, .nil⟩, by rintro _ ⟨⟩⟩
    | cons t rest =>
      rw [readPieces]
      split
      · refine Gives.bind (.and gives_readValue (recognized.1 c _ _ rest conf)) ?_
        rintro ⟨v, r, le⟩ ⟨starts, kinds, ⟨front, whole, same⟩, piece, term, written⟩
        rw [whole, List.map_cons, List.map_append] at chain
        have lt : r.length < k := hk ▸ Nat.lt_succ_of_le le
        refine .after fun _ => Gives.bind (ih r.length lt false chain.tail.right_of_append rfl) ?_
        rintro ⟨vs, q, hq⟩ ⟨⟨single, spaced⟩, more⟩
        refine .pure ⟨⟨?_, ?_⟩, ?_⟩
        · exact List.forall_mem_cons.2 ⟨isSingle_of_isPiece piece, single⟩
        · refine List.isChain_cons.2 ⟨fun w hw blank => ?_, spaced⟩
          -- a blank is one token, so the next piece starts at the token behind it
          have alone : kinds = [] := written.eq_nil_of_isBlank (starts.blank ▸ blank)
          obtain rfl : front = [] := List.map_eq_nil_iff.1 (same.trans alone)
          obtain ⟨u, front, starts'⟩ := more w hw
          have leads : t.kind.Leads u.kind := by
            refine (List.isChain_cons.1 chain).1 u.kind ?_
            rw [List.map_nil, List.nil_append, List.head?_map, Option.mem_def.1 front]
            rfl
          exact starts.spaced starts' leads blank
        · rintro _ ⟨⟩
          exact ⟨t, rfl, starts⟩
      · exact .pure ⟨⟨List.forall_mem_nil _, .nil⟩, by rintro _ ⟨⟩⟩

/-- **The pieces of a value**, wherever it stands in a text, are collected as they are for joining,
and they have the property that the trees of include statements have. -/
theorem collected_readPieces {P : Value → Prop} [Grammatical P]
    {answer : IncludeRequest → Loading Value} (conf : c.InConf)
    (relies : c.Relies .failures P answer)
    {text : String} (behind : s <:+ itemsOf text) (first : Bool) :
    Gives (readPieces c first s) fun r => Collected r.1 ∧ ∀ v ∈ r.1, P v := by
  have chain : (s.map Item.kind).IsChain TokenKind.Leads := by
    obtain ⟨front, whole⟩ := behind
    have chain := isChain_itemsOf text
    rw [← whole, List.map_append] at chain
    exact chain.right_of_append
  have genuine : GenuineItems s := fun t ht =>
    genuine_ofTokens (genuine_ofText .conf text.toList) t (behind.subset ht)
  have tracks := (read_tracks .failures P answer).2.2.2.2.1 c first s relies genuine
  have holds : Gives (readPieces c first s) fun r => ∀ v ∈ r.1, P v :=
    fun m r m' run v hv => ((Tracks.eq tracks run).1.1 v hv).1
  exact ((gives_readPieces conf first chain).and holds).mono fun r h => ⟨h.1.1, h.2⟩

end Document

end Hocon
