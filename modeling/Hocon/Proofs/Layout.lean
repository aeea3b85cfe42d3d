import Hocon.Proofs.Recognition
import Hocon.Proofs.Swapping

/-!
# Layout is free

Where lines end between fields and items is a matter of layout.  `Freed` says of the tokens of two
documents that some commas of the one are line ends in the other, or have line ends beside them.
Such tokens are ways of writing the same phrase (`Script.Written.freed`), and so are the tokens of a
document and those of the document in braces (`Body.Written.braced`).  On texts this is that a
document has the same tree in any layout (`Document.layout_free`).
-/

namespace Hocon

/-! ### Commas as line ends -/

/-- What a comma may be replaced by. -/
inductive Loosens : List TokenKind → Prop
  | newline : Loosens [.newline]
  | commaNewline : Loosens [.comma, .newline]
  | newlineComma : Loosens [.newline, .comma]

/-- The same tokens wherever they stand, apart from commas that are replaced. -/
inductive Freed : List TokenKind → List TokenKind → Prop
  | nil : Freed [] []
  | keep {kind kind' : TokenKind} {ks ks' : List TokenKind} (same : kind'.unplaced = kind.unplaced)
      (more : Freed ks ks') : Freed (kind :: ks) (kind' :: ks')
  | comma {separator ks ks' : List TokenKind} (h : Loosens separator) (more : Freed ks ks') :
      Freed (.comma :: ks) (separator ++ ks')

/-- Whether the token is the same in any layout. -/
def TokenKind.stays : TokenKind → Bool
  | comma => false
  | substitution _ _ => false
  | problem _ => false
  | _ => true

theorem TokenKind.stays_of_isPiece {kind : TokenKind} (h : kind.isPiece = true) :
    kind.stays = true := by
  cases kind <;> first | rfl | cases h

theorem TokenKind.Plain.of_stays {kind : TokenKind} (h : kind.stays = true) : kind.Plain := by
  constructor
  · rintro p rfl
    cases h
  · rintro optional expression rfl
    cases h

theorem forall_plain_of_stays {ks : List TokenKind} (h : ∀ k ∈ ks, k.stays = true) :
    ∀ k ∈ ks, k.Plain :=
  fun k hk => .of_stays (h k hk)

theorem stays_newlines (n : Nat) : ∀ k ∈ newlines n, k.stays = true := by
  intro k hk
  rw [List.eq_of_mem_replicate hk]
  rfl

theorem plain_newlines (n : Nat) : ∀ k ∈ newlines n, k.Plain :=
  forall_plain_of_stays (stays_newlines n)

namespace Freed

variable {ks ks' qs qs' rs : List TokenKind} {kind : TokenKind}

theorem of_unplaced (h : ks'.map TokenKind.unplaced = ks.map TokenKind.unplaced) :
    Freed ks ks' := by
  induction ks generalizing ks' with
  | nil =>
    cases List.map_eq_nil_iff.1 h
    exact .nil
  | cons kind ks ih =>
    obtain ⟨kind', ks', rfl, same, more⟩ := List.map_eq_cons_iff.1 h
    exact .keep same (ih more)

theorem append (h : Freed ks ks') (h' : Freed qs qs') : Freed (ks ++ qs) (ks' ++ qs') := by
  induction h with
  | nil => exact h'
  | keep same _ ih => exact .keep same ih
  | comma loosens _ ih =>
    rw [List.append_assoc]
    exact .comma loosens ih

theorem unplace (ks : List TokenKind) : Freed ks (ks.map TokenKind.unplaced) := by
  refine of_unplaced ?_
  rw [List.map_map]
  exact List.map_congr_left fun kind _ => kind.unplaced_unplaced

theorem place (ks : List TokenKind) : Freed (ks.map TokenKind.unplaced) ks := by
  refine of_unplaced ?_
  rw [List.map_map]
  exact List.map_congr_left fun kind _ => kind.unplaced_unplaced.symm

theorem refl (ks : List TokenKind) : Freed ks ks := of_unplaced rfl

/-- What two runs of tokens are freed to is what each of them is. -/
theorem exists_append (h : Freed (ks ++ qs) rs) :
    ∃ ks' qs', rs = ks' ++ qs' ∧ Freed ks ks' ∧ Freed qs qs' := by
  induction ks generalizing rs with
  | nil => exact ⟨[], rs, rfl, .nil, h⟩
  | cons kind ks ih =>
    cases h with
    | keep same more =>
      obtain ⟨ks', qs', rfl, front, back⟩ := ih more
      exact ⟨_ :: ks', qs', rfl, .keep same front, back⟩
    | @comma separator _ _ loosens more =>
      obtain ⟨ks', qs', rfl, front, back⟩ := ih more
      exact ⟨separator ++ ks', qs', (List.append_assoc ..).symm, .comma loosens front, back⟩

/-- A token that stays in front of others. -/
theorem exists_cons (h : Freed (kind :: ks) rs) (stays : kind.stays = true) :
    ∃ ks', rs = kind :: ks' ∧ Freed ks ks' := by
  cases h with
  | keep same more =>
    have same := TokenKind.eq_of_unplaced (by rintro _ _ rfl; cases stays) same
    exact ⟨_, by rw [same], more⟩
  | comma => cases stays

theorem eq_of_stays (h : Freed ks rs) (stays : ∀ k ∈ ks, k.stays = true) : rs = ks := by
  induction ks generalizing rs with
  | nil =>
    cases h
    rfl
  | cons kind ks ih =>
    obtain ⟨here, stays⟩ := List.forall_mem_cons.1 stays
    obtain ⟨ks', rfl, more⟩ := h.exists_cons here
    rw [ih more stays]

theorem eq_newlines {n : Nat} (h : Freed (newlines n) rs) : rs = newlines n :=
  h.eq_of_stays (stays_newlines n)

end Freed

/-! ### The same phrase in another layout -/

variable {ks ks' : List TokenKind}

theorem SpellsSeparator.freed (h : SpellsSeparator ks) (freed : Freed ks ks') :
    SpellsSeparator ks' := by
  cases h with
  | newline n =>
    rw [freed.eq_newlines]
    exact .newline n
  | comma m n =>
    obtain ⟨_, rest, rfl, front, back⟩ := freed.exists_append
    rw [front.eq_newlines]
    cases back with
    | keep same more =>
      rw [more.eq_newlines, TokenKind.eq_of_unplaced (by rintro _ _ ⟨⟩) same]
      exact .comma m n
    | comma loosens more =>
      rw [more.eq_newlines]
      cases loosens with
      | newline =>
        show SpellsSeparator (newlines m ++ newlines (n + 1))
        rw [← List.replicate_add]
        exact .newline (m + n)
      | commaNewline => exact .comma m (n + 1)
      | newlineComma =>
        show SpellsSeparator (newlines m ++ (newlines 1 ++ .comma :: newlines n))
        rw [← List.append_assoc, ← List.replicate_add]
        exact .comma (m + 1) n

theorem WritesGap.freed {last : Bool} (h : WritesGap last ks) (freed : Freed ks ks') :
    WritesGap last ks' := by
  cases h with
  | separator _ h => exact .separator last (h.freed freed)
  | nothing =>
    cases freed
    exact .nothing

theorem WritesKey.stays {key : Path} (h : WritesKey key ks) : ∀ k ∈ ks, k.stays = true :=
  fun k hk => TokenKind.stays_of_isPiece (isPiece_of_ofTokens? h.path k hk)

theorem WritesLink.stays {grows : Bool} {row : Row} (h : WritesLink grows row ks) :
    ∀ k ∈ ks, k.stays = true := by
  cases h with
  | sign m n row h =>
    refine List.forall_mem_append.2
      ⟨stays_newlines m, List.forall_mem_cons.2 ⟨?_, stays_newlines n⟩⟩
    cases h <;> rfl
  | object m body => exact stays_newlines m

theorem WritesName.stays {words all name : String} (h : WritesName words all name ks) :
    ∀ k ∈ ks, k.stays = true := by
  induction h with
  | name n => exact List.forall_mem_append.2 ⟨stays_newlines n, List.forall_mem_singleton.2 rfl⟩
  | word n text rest ih =>
    exact List.forall_mem_append.2 ⟨stays_newlines n, List.forall_mem_cons.2 ⟨rfl, ih⟩⟩

theorem WritesClosing.stays {unclosed : Nat} (h : WritesClosing unclosed ks) :
    ∀ k ∈ ks, k.stays = true := by
  induction h with
  | none => exact List.forall_mem_nil _
  | blank n isBlank rest ih =>
    exact List.forall_mem_append.2 ⟨stays_newlines n, List.forall_mem_cons.2 ⟨rfl, ih⟩⟩
  | close n notBlank present parentheses enough rest ih =>
    exact List.forall_mem_append.2 ⟨stays_newlines n, List.forall_mem_cons.2 ⟨rfl, ih⟩⟩

theorem WritesInclusion.stays {request : IncludeRequest} (h : WritesInclusion request ks) :
    ∀ k ∈ ks, k.stays = true := by
  cases h with
  | @mk keyword _ _ _ _ _ _ _ isKeyword hname _ hclosing =>
    refine List.forall_mem_cons.2 ⟨?_, List.forall_mem_append.2 ⟨hname.stays, hclosing.stays⟩⟩
    cases keyword <;> first | rfl | cases isKeyword

/-- **The same phrase** is written in any layout. -/
theorem written_freed : WrittenCases
    (fun term ks => ∀ ks', Freed ks ks' → Term.Written term ks')
    (fun terms ks => ∀ ks', Freed ks ks' → Terms.Written terms ks')
    (fun row ks => ∀ ks', Freed ks ks' → Row.Written row ks')
    (fun rows ks => ∀ ks', Freed ks ks' → Rows.Written rows ks')
    (fun body ks => ∀ ks', Freed ks ks' → Body.Written body ks') where
  literal literal ks' freed := by
    rw [freed.eq_of_stays (List.forall_mem_singleton.2 rfl)]
    exact .literal literal
  bare text ks' freed := by
    rw [freed.eq_of_stays (List.forall_mem_singleton.2 rfl)]
    exact .bare text
  reference optional path expression h ks' freed := by
    cases freed with
    | keep same more =>
      cases more
      obtain ⟨expression', rfl, kinds⟩ := TokenKind.exists_substitution_of_unplaced same
      exact .reference optional (kinds ▸ h)
  object n body kinds _ ih ks' freed := by
    obtain ⟨ks', rfl, inner⟩ := freed.exists_cons rfl
    obtain ⟨_, _, rfl, front, inner⟩ := inner.exists_append
    obtain ⟨_, _, rfl, inner, back⟩ := inner.exists_append
    rw [front.eq_newlines, back.eq_of_stays (List.forall_mem_singleton.2 rfl)]
    exact .object n (ih _ inner)
  list n rows kinds _ ih ks' freed := by
    obtain ⟨ks', rfl, inner⟩ := freed.exists_cons rfl
    obtain ⟨_, _, rfl, front, inner⟩ := inner.exists_append
    obtain ⟨_, _, rfl, inner, back⟩ := inner.exists_append
    rw [front.eq_newlines, back.eq_of_stays (List.forall_mem_singleton.2 rfl)]
    exact .list n (ih _ inner)
  noTerm ks' freed := by
    cases freed
    exact .nil
  terms _ _ head tail ks' freed := by
    obtain ⟨_, _, rfl, front, back⟩ := freed.exists_append
    exact .cons (head _ front) (tail _ back)
  row _ _ head tail ks' freed := by
    obtain ⟨_, _, rfl, front, back⟩ := freed.exists_append
    exact .mk (head _ front) (tail _ back)
  noRow ks' freed := by
    cases freed
    exact .nil
  rows _ hgap _ head tail ks' freed := by
    obtain ⟨_, _, rfl, front, freed⟩ := freed.exists_append
    obtain ⟨_, _, rfl, gap, back⟩ := freed.exists_append
    exact .cons (head _ front) (hgap.freed gap) (tail _ back)
  noField ks' freed := by
    cases freed
    exact .nil
  field hkey hlink _ hgap _ head tail ks' freed := by
    obtain ⟨_, _, rfl, keys, freed⟩ := freed.exists_append
    obtain ⟨_, _, rfl, link, freed⟩ := freed.exists_append
    obtain ⟨_, _, rfl, front, freed⟩ := freed.exists_append
    obtain ⟨_, _, rfl, gap, back⟩ := freed.exists_append
    rw [keys.eq_of_stays hkey.stays, link.eq_of_stays hlink.stays]
    exact .field hkey hlink (head _ front) (hgap.freed gap) (tail _ back)
  inclusion h hgap _ tail ks' freed := by
    obtain ⟨_, _, rfl, front, freed⟩ := freed.exists_append
    obtain ⟨_, _, rfl, gap, back⟩ := freed.exists_append
    rw [front.eq_of_stays h.stays]
    exact .inclusion h (hgap.freed gap) (tail _ back)

theorem Script.Written.freed {script : Script} (h : script.Written ks) (freed : Freed ks ks') :
    script.Written ks' := by
  cases h with
  | object m n h =>
    obtain ⟨_, _, rfl, front, freed⟩ := freed.exists_append
    obtain ⟨_, _, rfl, freed, back⟩ := freed.exists_append
    rw [front.eq_newlines, back.eq_newlines]
    exact .object m n (written_freed.ofTerm h _ freed)
  | list m n h =>
    obtain ⟨_, _, rfl, front, freed⟩ := freed.exists_append
    obtain ⟨_, _, rfl, freed, back⟩ := freed.exists_append
    rw [front.eq_newlines, back.eq_newlines]
    exact .list m n (written_freed.ofTerm h _ freed)
  | body n h =>
    obtain ⟨_, _, rfl, front, freed⟩ := freed.exists_append
    rw [front.eq_newlines]
    exact .body n (written_freed.ofBody h _ freed)

/-! ### Braces around a document -/

theorem WritesGap.spaced {gap : List TokenKind} (h : WritesGap true gap) (n : Nat) :
    WritesGap true (gap ++ newlines n) := by
  cases h with
  | separator _ h => exact .separator true (h.more n)
  | nothing =>
    cases n with
    | zero => exact .nothing
    | succ n => exact .separator true (.newline n)

theorem Body.Written.eq_nil {body : Body} (h : Body.Written body ks) (isNil : body.isNil = true) :
    body = .nil ∧ ks = [] := by
  cases h with
  | nil => exact ⟨rfl, rfl⟩
  | _ => cases isNil

/-- Line ends behind the last of the fields belong to what is behind it. -/
theorem Body.Written.exists_spaced {body : Body} {gap rest : List TokenKind} {n : Nat}
    (h : Body.Written body rest) (hgap : WritesGap body.isNil gap)
    (more : body.isNil = false → Body.Written body (rest ++ newlines n)) :
    ∃ gap' rest', WritesGap body.isNil gap' ∧ Body.Written body rest'
      ∧ gap ++ (rest ++ newlines n) = gap' ++ rest' := by
  cases isNil : body.isNil with
  | false => exact ⟨gap, _, isNil ▸ hgap, more isNil, rfl⟩
  | true =>
    obtain ⟨rfl, rfl⟩ := h.eq_nil isNil
    exact ⟨gap ++ newlines n, [], hgap.spaced n, .nil, (List.append_nil _).symm⟩

/-- Line ends behind the fields. -/
theorem written_spaced (n : Nat) : WrittenCases (fun _ _ => True) (fun _ _ => True)
    (fun _ _ => True) (fun _ _ => True)
    (fun body ks => body.isNil = false → Body.Written body (ks ++ newlines n)) where
  literal _ := trivial
  bare _ := trivial
  reference _ _ _ _ := trivial
  object _ _ _ _ _ := trivial
  list _ _ _ _ _ := trivial
  noTerm := trivial
  terms _ _ _ _ := trivial
  row _ _ _ _ := trivial
  noRow := trivial
  rows _ _ _ _ _ := trivial
  noField := by rintro ⟨⟩
  field hkey hlink hrow hgap hbody _ more _ := by
    obtain ⟨gap, rest, hgap, hrest, same⟩ := hbody.exists_spaced hgap more
    simp only [List.append_assoc, same]
    exact .field hkey hlink hrow hgap hrest
  inclusion h hgap hbody more _ := by
    obtain ⟨gap, rest, hgap, hrest, same⟩ := hbody.exists_spaced hgap more
    simp only [List.append_assoc, same]
    exact .inclusion h hgap hrest

/-- **Fields in braces** on lines of their own are an object. -/
theorem Body.Written.braced {body : Body} (h : Body.Written body ks) (m n : Nat) :
    Term.Written (.object body)
      (.openBrace :: (newlines m ++ (ks ++ (newlines n ++ [.closeBrace])))) := by
  cases isNil : body.isNil with
  | true =>
    obtain ⟨rfl, rfl⟩ := h.eq_nil isNil
    have whole := Term.Written.object (m + n) .nil
    rw [List.nil_append, ← List.append_assoc, ← List.replicate_add]
    exact whole
  | false =>
    rw [← List.append_assoc ks]
    exact .object m ((written_spaced n).ofBody h isNil)

/-! ### Tokens of a phrase -/

theorem SpellsSeparator.plain (h : SpellsSeparator ks) : ∀ k ∈ ks, k.Plain := by
  cases h with
  | newline n => exact plain_newlines (n + 1)
  | comma m n =>
    have comma : TokenKind.comma.Plain := ⟨nofun, nofun⟩
    exact List.forall_mem_append.2
      ⟨plain_newlines m, List.forall_mem_cons.2 ⟨comma, plain_newlines n⟩⟩

theorem WritesGap.plain {last : Bool} (h : WritesGap last ks) : ∀ k ∈ ks, k.Plain := by
  cases h with
  | separator _ h => exact h.plain
  | nothing => exact List.forall_mem_nil _

/-- **No token of a phrase is a problem**, and its substitutions hold the pieces of paths. -/
theorem written_plain : WrittenCases
    (fun _ ks => ∀ k ∈ ks, k.Plain) (fun _ ks => ∀ k ∈ ks, k.Plain) (fun _ ks => ∀ k ∈ ks, k.Plain)
    (fun _ ks => ∀ k ∈ ks, k.Plain) (fun _ ks => ∀ k ∈ ks, k.Plain) where
  literal _ := List.forall_mem_singleton.2 (.of_stays rfl)
  bare _ := List.forall_mem_singleton.2 (.of_stays rfl)
  reference optional path expression h := by
    refine List.forall_mem_singleton.2 ⟨nofun, ?_⟩
    rintro _ _ ⟨⟩ t ht
    exact isPiece_of_ofTokens? h t.kind (List.mem_map_of_mem ht)
  object n _ _ _ inner := List.forall_mem_cons.2 ⟨.of_stays rfl, List.forall_mem_append.2
    ⟨plain_newlines n, List.forall_mem_append.2
      ⟨inner, List.forall_mem_singleton.2 (.of_stays rfl)⟩⟩⟩
  list n _ _ _ inner := List.forall_mem_cons.2 ⟨.of_stays rfl, List.forall_mem_append.2
    ⟨plain_newlines n, List.forall_mem_append.2
      ⟨inner, List.forall_mem_singleton.2 (.of_stays rfl)⟩⟩⟩
  noTerm := List.forall_mem_nil _
  terms _ _ head tail := List.forall_mem_append.2 ⟨head, tail⟩
  row _ _ head tail := List.forall_mem_append.2 ⟨head, tail⟩
  noRow := List.forall_mem_nil _
  rows _ hgap _ head tail :=
    List.forall_mem_append.2 ⟨head, List.forall_mem_append.2 ⟨hgap.plain, tail⟩⟩
  noField := List.forall_mem_nil _
  field hkey hlink _ hgap _ head tail := List.forall_mem_append.2
    ⟨forall_plain_of_stays hkey.stays, List.forall_mem_append.2
      ⟨forall_plain_of_stays hlink.stays, List.forall_mem_append.2
        ⟨head, List.forall_mem_append.2 ⟨hgap.plain, tail⟩⟩⟩⟩
  inclusion h hgap _ tail := List.forall_mem_append.2
    ⟨forall_plain_of_stays h.stays, List.forall_mem_append.2 ⟨hgap.plain, tail⟩⟩

theorem Script.Written.plain {script : Script} (h : script.Written ks) : ∀ k ∈ ks, k.Plain := by
  cases h with
  | object m n h | list m n h =>
    exact List.forall_mem_append.2
      ⟨plain_newlines m, List.forall_mem_append.2 ⟨written_plain.ofTerm h, plain_newlines n⟩⟩
  | body n h => exact List.forall_mem_append.2 ⟨plain_newlines n, written_plain.ofBody h⟩

/-! ### Texts in another layout -/

open Scan

/-- The signs of a separator. -/
def Loose (separator : List Char) : Prop :=
  separator = ['\n'] ∨ separator = [',', '\n'] ∨ separator = ['\n', ',']

namespace Loose

variable {separator post : List Char} (h : Loose separator)

include h

theorem stops (post : List Char) : Stops (separator ++ post) := by
  obtain rfl | rfl | rfl := h <;> rintro b ⟨⟩ <;> first | exact .inr rfl | exact .inl (by decide)

/-- The tokens of such a separator in front of others. -/
theorem exists_runs (after : Bool) {last : Bool} {tail : List Char} {kinds : List TokenKind}
    (more : Runs tail last false post kinds) :
    ∃ ks, Loosens ks ∧ ∀ gap, gap.all Cursor.isGap = true →
      Runs tail last after (gap ++ (separator ++ post)) (ks ++ kinds) := by
  obtain rfl | rfl | rfl := h
  · exact ⟨_, .newline, fun gap blank => more.sign rfl blank⟩
  · exact ⟨_, .commaNewline, fun gap blank => (more.signFront rfl).sign rfl blank⟩
  · exact ⟨_, .newlineComma, fun gap blank => (more.signFront rfl).sign rfl blank⟩

end Loose

/-- The tokens of a text, and of the same text with another separator. -/
theorem Loose.exists_tokens {separator pre post : List Char} (loose : Loose separator)
    (plain : ∀ t ∈ tokensFrom true (.ofText (pre ++ ',' :: post)) false, t.kind.Plain) {t : Token}
    (ht : t ∈ tokensFrom true (.ofText (pre ++ ',' :: post)) false)
    (starts : t.span.start = Text.byteLength pre) :
    ∃ front ks behind, Loosens ks
      ∧ (itemKinds (tokensFrom true (.ofText (pre ++ ',' :: post)) false)).map TokenKind.unplaced
        = front ++ .comma :: behind
      ∧ (itemKinds (tokensFrom true (.ofText (pre ++ (separator ++ post))) false)).map
        TokenKind.unplaced = front ++ (ks ++ behind) := by
  have stands : (Cursor.ofText (pre ++ ',' :: post)).At (pre ++ ',' :: post) [] := ⟨rfl, rfl, rfl⟩
  obtain ⟨front, last, runs⟩ := Runs.exists_token stands plain ht rfl starts
  obtain ⟨d, gap, left, blank, same⟩ := runs.kinds_tokensFrom rfl
  obtain ⟨comma, next, eq, -, back⟩ : ∃ comma next, tokensFrom true d last
      = comma :: tokensFrom true next false ∧ comma.kind = .comma ∧ next.rest = post :=
    exists_tokensFrom_cons left blank (by decide) (by decide) rfl nofun
  -- what is behind the comma is among the tokens of the text
  have plain' : ∀ u ∈ tokensFrom true next false, u.kind.Plain := by
    intro u hu
    refine TokenKind.Plain.of_items (fun kind hk => ?_) hu
    have within : kind.unplaced ∈ (itemKinds
        (tokensFrom true (.ofText (pre ++ ',' :: post)) false)).map TokenKind.unplaced := by
      rw [same, eq, unplaced_itemKinds_cons]
      exact List.mem_append_right _ (List.mem_append_right _ (List.mem_map_of_mem hk))
    obtain ⟨kind', hk', same'⟩ := List.mem_map.1 within
    obtain ⟨v, hv, rfl⟩ := List.mem_map.1 (List.mem_filter.1 hk').1
    exact (plain v hv).of_unplaced same'.symm
  obtain ⟨behind, last', rest⟩ := Runs.exists_end next false plain'
  rw [back] at rest
  obtain ⟨read, whole, runs'⟩ := runs.swap (by rintro b ⟨⟩; exact .inr rfl) (loose.stops post)
    (fun line => absurd (line ',' rfl) (by decide))
  obtain rfl := List.append_cancel_right whole
  obtain ⟨ks, loosens, runs''⟩ := loose.exists_runs last rest
  refine ⟨front, ks, behind, loosens, ?_, ?_⟩
  · exact runs.items_append rfl fun gap blank => ⟨last', rest.sign rfl blank⟩
  · exact runs'.items_append rfl fun gap blank => ⟨last', runs'' gap blank⟩

/-- Whether the token is a comma. -/
def TokenKind.isComma : TokenKind → Bool
  | comma => true
  | _ => false

namespace Document

/-- Behind `front` there is a comma that is a token of its own, in no string and no comment. -/
def SeparatesAt (front back : String) : Prop :=
  ∃ t ∈ Token.ofText .conf (front ++ "," ++ back).toList,
    t.kind.isComma = true ∧ t.span.start = Text.byteLength front.toList

/-- The text starts with neither a brace nor a bracket. -/
def IsBraceless (text : String) : Prop :=
  ∀ t ∈ ((itemsOf text).dropWhile Item.isNewline).head?, t.kind.opensContainer = false

variable {script : Script}

/-- **A comma may be a line end**, or have one beside it. -/
theorem written_loosened {front back separator : String}
    (written : script.Written ((itemsOf (front ++ "," ++ back)).map Item.kind))
    (separates : SeparatesAt front back) (loose : Loose separator.toList) :
    script.Written ((itemsOf (front ++ separator ++ back)).map Item.kind) := by
  have text : (front ++ "," ++ back).toList = front.toList ++ ',' :: back.toList := by
    simp [String.toList_append]
  have text' : (front ++ separator ++ back).toList
      = front.toList ++ (separator.toList ++ back.toList) := by
    simp [String.toList_append]
  obtain ⟨t, ht, comma, starts⟩ := separates
  rw [kinds_itemsOf] at written ⊢
  rw [text] at written ht
  rw [text']
  obtain rfl | ht := List.mem_cons.1 ht
  · cases comma
  have plain := fun u hu => TokenKind.Plain.of_items (t := u) written.plain hu
  obtain ⟨ks, kinds, behind, loosens, eq, eq'⟩ := loose.exists_tokens plain ht starts
  have here := written.freed (.unplace _)
  rw [eq] at here
  have there := here.freed ((Freed.refl ks).append (.comma loosens (.refl behind)))
  rw [← eq'] at there
  exact there.freed (.place _)

/-- A text that starts with neither a brace nor a bracket has no braces around its fields. -/
theorem IsBraceless.exists_body {text : String} (braceless : IsBraceless text)
    (written : script.Written ((itemsOf text).map Item.kind)) : ∃ body, script = .body body := by
  have refused {kind : TokenKind} {rest ks : List TokenKind} {m : Nat}
      (opens : kind.opensContainer = true)
      (whole : (itemsOf text).map Item.kind = newlines m ++ (kind :: rest ++ ks)) : False := by
    obtain ⟨nls, others, eq, hnls, hothers⟩ := List.map_eq_append_iff.1 whole
    obtain ⟨t, others, rfl, ht, -⟩ := List.map_eq_cons_iff.1 hothers
    have firm : standsFirm t.kind = true := by
      rw [ht]
      cases kind <;> first | rfl | cases opens
    have front : (itemsOf text).dropWhile Item.isNewline = t :: others := by
      rw [eq]
      exact dropWhile_lineEnds (lineEnds_of_kinds hnls) (.cons firm others)
    rw [IsBraceless, front, List.head?_cons] at braceless
    rw [← ht, braceless t rfl] at opens
    cases opens
  generalize whole : (itemsOf text).map Item.kind = ks at written
  cases written with
  | object m n h =>
    obtain ⟨rest, rfl⟩ := h.openBrace
    exact (refused rfl whole).elim
  | list m n h =>
    cases h
    exact (refused rfl whole).elim
  | body n h => exact ⟨_, rfl⟩

/-- The tokens of a text in braces on lines of their own. -/
theorem itemKinds_braced {cs : List Char}
    (plain : ∀ t ∈ tokensFrom true (.ofText cs) false, t.kind.Plain) :
    (itemKinds (tokensFrom true (.ofText ('\x7b' :: '\n' :: (cs ++ ['\n', '\x7d']))) false)).map
        TokenKind.unplaced
      = .openBrace :: .newline :: ((itemKinds (tokensFrom true (.ofText cs) false)).map
        TokenKind.unplaced ++ [.newline, .closeBrace]) := by
  obtain ⟨kinds, last, runs⟩ := Runs.exists_end (.ofText cs) false plain
  obtain ⟨read, whole, runs'⟩ : ∃ read, cs = read ++ []
      ∧ Runs ['\n', '\x7d'] last false (read ++ ['\n', '\x7d']) kinds :=
    runs.swap stops_nil (by rintro b ⟨⟩; exact .inl (by decide)) fun _ => by rintro b ⟨⟩; rfl
  obtain rfl : cs = read := whole.trans (List.append_nil read)
  have braced : Runs ['\n', '\x7d'] last false ('\x7b' :: '\n' :: (cs ++ ['\n', '\x7d'])) _ :=
    (runs'.signFront rfl).signFront rfl
  have behind (gap : List Char) (blank : gap.all Cursor.isGap = true) :
      Runs [] false last (gap ++ ['\n', '\x7d']) [.newline, .closeBrace] := by
    have nothing : Runs [] false false ([] ++ []) [] := .here rfl
    exact (nothing.signFront rfl).sign rfl blank
  rw [braced.items_append rfl fun gap blank => ⟨false, behind gap blank⟩, runs.items rfl]
  rfl

/-- **Fields in braces** on lines of their own are an object. -/
theorem written_braced {text : String} {body : Body}
    (written : Script.Written (.body body) ((itemsOf text).map Item.kind)) :
    Script.Written (.term (.object body))
      ((itemsOf ("\x7b\n" ++ text ++ "\n\x7d")).map Item.kind) := by
  have whole : ("\x7b\n" ++ text ++ "\n\x7d").toList
      = '\x7b' :: '\n' :: (text.toList ++ ['\n', '\x7d']) := by
    simp [String.toList_append]
  rw [kinds_itemsOf] at written ⊢
  have plain := fun u hu => TokenKind.Plain.of_items (t := u) written.plain hu
  have tokens := itemKinds_braced plain
  rw [← whole] at tokens
  refine Script.Written.freed ?_ (.place _)
  rw [tokens]
  have unplaced := written.freed (.unplace _)
  generalize (itemKinds (tokensFrom true (.ofText text.toList) false)).map TokenKind.unplaced = ks
    at unplaced
  cases unplaced with
  | body n h =>
    have braced := Script.Written.object 0 0 (h.braced (n + 1) 1)
    rw [show newlines 0 = [] from rfl, List.nil_append, List.append_nil] at braced
    rw [List.append_assoc]
    exact braced

/-- **Layout is free.**  A document that is parsed is parsed to the same tree with a line end for
any of its commas, or beside it; so is one that starts with neither a brace nor a bracket when it is
put in braces, on lines of its own. -/
theorem layout_free {files : FileTree} {o : ParseOptions} (conf : o.syn.getD .conf = .conf)
    {text : String} {v : Value} {m m' : List IncludeRecord}
    (parsed : (parseText files o text).run.run m = (.ok v, m')) :
    (∀ front back separator, text = front ++ "," ++ back → SeparatesAt front back →
      separator ∈ ["\n", ",\n", "\n,"] →
      ∃ w, (parseText files o (front ++ separator ++ back)).run.run m = (.ok w, m') ∧ v.SameTree w)
    ∧ (IsBraceless text →
      ∃ w, (parseText files o ("\x7b\n" ++ text ++ "\n\x7d")).run.run m = (.ok w, m')
        ∧ v.SameTree w) := by
  obtain ⟨script, written⟩ := exists_written_of_parseText conf parsed
  constructor
  · rintro front back separator rfl separates among
    have loose : Loose separator.toList := by
      simp only [List.mem_cons, List.not_mem_nil, or_false] at among
      obtain rfl | rfl | rfl := among
      · exact .inl rfl
      · exact .inr (.inl rfl)
      · exact .inr (.inr rfl)
    have written' := written_loosened written separates loose
    exact (follows_parseText files conf written written' fun _ => .sameTree _).exists_ok parsed
  · intro braceless
    obtain ⟨body, rfl⟩ := braceless.exists_body written
    have written' := written_braced written
    exact (follows_parseText files conf written written' fun answer =>
      .sameTree (Script.sense answer (.body body))).exists_ok parsed

/-- The comma in the list, and braces around the only field. -/
theorem layout_free_example :
    let text := "a = [1,2]"
    ∃ v, (parseText {} {} text).run.run [] = (.ok v, [])
      ∧ SeparatesAt "a = [1" "2]" ∧ IsBraceless text
      ∧ (∃ w, (parseText {} {} "a = [1\n2]").run.run [] = (.ok w, []) ∧ v.SameTree w)
      ∧ ∃ w, (parseText {} {} "\x7b\na = [1,2]\n\x7d").run.run [] = (.ok w, []) ∧ v.SameTree w := by
  intro text
  have read : ((parseText {} {} text).run.run []).1.toOption.isSome
      && ((parseText {} {} text).run.run []).2.isEmpty := by
    rw [parseText, Document.load, dif_pos (by decide)]
    decide +kernel
  rcases parsed : (parseText {} {} text).run.run [] with ⟨e | v, m⟩
  · rw [parsed] at read
    cases read
  rw [parsed] at read
  cases List.isEmpty_iff.1 read
  have separates : SeparatesAt "a = [1" "2]" := by
    unfold SeparatesAt
    decide +kernel
  have braceless : IsBraceless text := by
    unfold IsBraceless
    decide +kernel
  obtain ⟨loosened, braced⟩ := layout_free (o := {}) rfl parsed
  exact ⟨v, rfl, separates, braceless,
    loosened "a = [1" "2]" "\n" (by decide +kernel) separates (by decide +kernel), braced braceless⟩

end Document

end Hocon
