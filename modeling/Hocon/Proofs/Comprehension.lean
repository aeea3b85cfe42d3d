import Hocon.Proofs.Sense
import Hocon.Proofs.Shapes

/-!
# What is written is understood

Items that are a way of writing a phrase are read as what the phrase means, whatever stands behind
them (`Document.written_readAs`, `Document.follows_readRoot`).  The reading gives the same tree and
asks for the same documents, or both fail.  So two texts of the same sense are parsed to the same
tree, or neither is (`Document.follows_parseText`).
-/

namespace Hocon

/-! ### The front of a phrase -/

/-- Whether a term starts with such a token. -/
def TokenKind.startsTerm : TokenKind → Bool
  | value _ => true
  | bare _ => true
  | substitution _ _ => true
  | openBrace => true
  | openBracket => true
  | _ => false

theorem Item.continuesValue_eq (t : Item) : t.continuesValue = t.kind.startsTerm := by
  obtain ⟨kind, span, line, comments⟩ := t
  cases kind <;> rfl

theorem Term.Written.exists_cons {term : Term} {kinds : List TokenKind}
    (h : Term.Written term kinds) :
    ∃ kind rest, kinds = kind :: rest ∧ kind.startsTerm = true := by
  cases h <;> exact ⟨_, _, rfl, rfl⟩

theorem Row.Written.exists_cons {row : Row} {kinds : List TokenKind} (h : Row.Written row kinds) :
    ∃ kind rest, kinds = kind :: rest ∧ kind.startsTerm = true := by
  cases h with
  | mk head =>
    obtain ⟨kind, rest, rfl, starts⟩ := head.exists_cons
    exact ⟨kind, _, rfl, starts⟩

theorem Row.Written.alone {term : Term} {kinds : List TokenKind}
    (h : Row.Written (.mk term .nil) kinds) : Term.Written term kinds := by
  cases h with
  | mk head tail =>
    cases tail
    rwa [List.append_nil]

theorem Term.Written.openBrace {body : Body} {kinds : List TokenKind}
    (h : Term.Written (.object body) kinds) : ∃ rest, kinds = .openBrace :: rest := by
  cases h
  exact ⟨_, rfl⟩

theorem WritesKey.exists_cons {key : Path} {kinds : List TokenKind} (h : WritesKey key kinds) :
    ∃ kind rest, kinds = kind :: rest ∧ kind.isPiece = true ∧ kind.isInclude = false := by
  cases kinds with
  | nil => cases h.path
  | cons kind rest =>
    exact ⟨kind, rest, rfl, isPiece_of_ofTokens? h.path kind List.mem_cons_self, h.noInclude kind rfl⟩

theorem isPiece_of_isInclude {kind : TokenKind} (h : kind.isInclude = true) :
    kind.isPiece = true := by
  cases kind <;> first | rfl | cases h

theorem WritesInclusion.exists_cons {request : IncludeRequest} {kinds : List TokenKind}
    (h : WritesInclusion request kinds) :
    ∃ kind rest, kinds = kind :: rest ∧ kind.isInclude = true := by
  cases h with
  | mk isKeyword => exact ⟨_, _, rfl, isKeyword⟩

/-- The words of an include statement and the keys of fields look alike. -/
theorem Body.Written.isPiece {body : Body} {kinds : List TokenKind} (h : Body.Written body kinds) :
    ∀ kind ∈ kinds.head?, kind.isPiece = true := by
  intro kind hk
  cases h with
  | nil => cases hk
  | field hkey =>
    obtain ⟨first, rest, rfl, piece, -⟩ := hkey.exists_cons
    cases hk
    exact piece
  | inclusion h =>
    obtain ⟨first, rest, rfl, word⟩ := h.exists_cons
    cases hk
    exact isPiece_of_isInclude word

theorem WritesSign.stops {grows : Bool} {kind : TokenKind} (h : WritesSign grows kind) :
    kind.isPiece = false ∧ Document.standsFirm kind = true := by
  cases h <;> exact ⟨rfl, rfl⟩

namespace Document

open Value

theorem standsFirm_of_startsTerm {kind : TokenKind} (h : kind.startsTerm = true) :
    standsFirm kind = true := by
  cases kind <;> first | rfl | cases h

theorem standsFirm_of_isPiece {kind : TokenKind} (h : kind.isPiece = true) :
    standsFirm kind = true := by
  cases kind <;> first | rfl | cases h

theorem firm_terms {terms : Terms} {kinds : List TokenKind} (h : Terms.Written terms kinds) :
    ∀ kind ∈ kinds.head?, standsFirm kind = true := by
  intro kind hk
  cases h with
  | nil => cases hk
  | cons head =>
    obtain ⟨first, rest, rfl, starts⟩ := head.exists_cons
    cases hk
    exact standsFirm_of_startsTerm starts

theorem firm_rows {rows : Rows} {kinds : List TokenKind} (h : Rows.Written rows kinds) :
    ∀ kind ∈ kinds.head?, standsFirm kind = true := by
  intro kind hk
  cases h with
  | nil => cases hk
  | cons hrow =>
    obtain ⟨first, rest, rfl, starts⟩ := hrow.exists_cons
    cases hk
    exact standsFirm_of_startsTerm starts

theorem firm_body {body : Body} {kinds : List TokenKind} (h : Body.Written body kinds) :
    ∀ kind ∈ kinds.head?, standsFirm kind = true :=
  fun kind hk => standsFirm_of_isPiece (h.isPiece kind hk)

/-- A value is complete in front of a separator, or where the object or list ends. -/
theorem complete_gap {last : Bool} {gap : List TokenKind} (h : WritesGap last gap) {s r : List Item}
    (hs : s.map Item.kind = gap) (hr : last = true → Complete r) : Complete (s ++ r) := by
  cases h with
  | separator _ h => exact complete_separator h hs r
  | nothing =>
    cases List.map_eq_nil_iff.1 hs
    exact hr rfl

/-! ### Places -/

/-- A place in a HOCON document, told by all that matters to the sense of what stands there. -/
structure Context.At (c : Context) (answer : IncludeRequest → Loading Value) (place : List String) :
    Prop where
  inConf : c.InConf
  answer : c.answer = answer
  place : c.keys.reverse.flatMap Path.keys = place

variable {c : Context} {answer : IncludeRequest → Loading Value} {place : List String}

theorem Context.At.enter (h : c.At answer place) (key : Path) :
    (c.enter key).At answer (place ++ key.keys) where
  inConf := ⟨h.inConf.syn, h.inConf.stop⟩
  answer := h.answer
  place := by
    show (key :: c.keys).reverse.flatMap Path.keys = _
    rw [List.reverse_cons, List.flatMap_append, h.place, List.flatMap_singleton]

theorem Context.At.afterEquals (h : c.At answer place) (afterEquals : Bool) :
    ({ c with afterEquals } : Context).At answer place :=
  ⟨⟨h.inConf.syn, h.inConf.stop⟩, h.answer, h.place⟩

theorem Context.At.place? (h : c.At answer place) : c.place? = Path.ofKeys? place := by
  rw [Context.place?, h.place]

/-- A result that goes with another one, and `r` is left. -/
def Leaves {α β : Type} {s : List Item} (r : List Item) (R : α → β → Prop) (a : α × Left s) (b : β) :
    Prop :=
  a.2.val = r ∧ R a.1 b

/-! ### Keys and include statements -/

theorem length_le_behind (nls : List Item) (t : Item) (s r : List Item) :
    r.length ≤ (nls ++ t :: (s ++ r)).length := by
  simp only [List.length_append, List.length_cons]
  omega

/-- All that may belong to a key does. -/
theorem readKey_written (hc : c.InConf) {key : Path} {t : Item} {before rest : List Item}
    (spelled : Path.ofTokens? ((t :: before).map Item.kind) = .ok key)
    (stops : ∀ u ∈ rest.head?, u.isKeyPiece = false ∧ Clean u) :
    ∃ le, readKey c t (before ++ rest) = pure (key, ⟨rest, le⟩) := by
  have pieces (x : Item) (hx : x ∈ t :: before) : x.isKeyPiece = true := by
    rw [isKeyPiece_eq]
    exact isPiece_of_ofTokens? spelled _ (List.mem_map_of_mem hx)
  obtain ⟨first, pieces⟩ := List.forall_mem_cons.1 pieces
  have parted : rest.dropWhile Item.isKeyPiece = rest ∧ rest.takeWhile Item.isKeyPiece = [] := by
    cases rest with
    | nil => exact ⟨rfl, rfl⟩
    | cons u rest =>
      rw [List.dropWhile_cons, List.takeWhile_cons, (stops u rfl).1]
      exact ⟨rfl, rfl⟩
  have drop : (before ++ rest).dropWhile Item.isKeyPiece = rest := by
    rw [List.dropWhile_append_of_pos pieces, parted.1]
  have take : (before ++ rest).takeWhile Item.isKeyPiece = before := by
    rw [List.takeWhile_append_of_pos pieces, parted.2, List.append_nil]
  have front : checkFront c rest = pure () := checkFront_eq hc fun u hu => (stops u hu).2
  have conf : c.syn ≠ .json := by
    rw [hc.syn]
    decide
  refine ⟨(List.suffix_append _ rest).length_le, ?_⟩
  unfold readKey
  rw [if_neg conf, if_pos first]
  simp only [drop, take, front, pure_bind, pathOf, spelled]
  rfl

theorem readIncludeName_written (hc : c.InConf) {words all name : String} {kinds : List TokenKind}
    (h : WritesName words all name kinds) {s : List Item} (hs : s.map Item.kind = kinds)
    (r : List Item) :
    ∃ n le, readIncludeName c words (s ++ r) = pure (n, ⟨r, le⟩) ∧ n.words = all ∧ n.name = name := by
  induction h generalizing s with
  | name n words name =>
    obtain ⟨nls, s, rfl, hnls, hs⟩ := List.map_eq_append_iff.1 hs
    obtain ⟨t, s, rfl, ht, hs⟩ := List.map_eq_cons_iff.1 hs
    cases List.map_eq_nil_iff.1 hs
    have firm : Firm (t :: r) := .cons (by rw [ht]; rfl) r
    obtain ⟨le, skip⟩ := skipNewlines_eq hc (lineEnds_of_kinds hnls) firm
    rw [List.append_assoc, List.singleton_append]
    refine ⟨⟨words, name, t⟩, length_le_behind nls t [] r, ?_, rfl, rfl⟩
    rw [readIncludeName]
    simp only [skip, pure_bind, ht]
  | word n text rest ih =>
    obtain ⟨nls, s, rfl, hnls, hs⟩ := List.map_eq_append_iff.1 hs
    obtain ⟨t, s, rfl, ht, hs⟩ := List.map_eq_cons_iff.1 hs
    have firm : Firm (t :: (s ++ r)) := .cons (by rw [ht]; rfl) _
    obtain ⟨le, skip⟩ := skipNewlines_eq hc (lineEnds_of_kinds hnls) firm
    obtain ⟨found, le', read, same⟩ := ih hs
    have blank : t.isBlank = (TokenKind.bare text).isBlank := by rw [Item.isBlank, ht]
    rw [List.append_assoc, List.cons_append]
    refine ⟨found, length_le_behind nls t s r, ?_, same⟩
    rw [readIncludeName]
    simp only [skip, pure_bind, ht, blank, read]

theorem readClosing_written (hc : c.InConf) {unclosed : Nat} {kinds : List TokenKind}
    (h : WritesClosing unclosed kinds) {s : List Item} (hs : s.map Item.kind = kinds)
    (r : List Item) : ∃ le, readClosing c unclosed (s ++ r) = pure ⟨r, le⟩ := by
  induction h generalizing s with
  | none =>
    cases List.map_eq_nil_iff.1 hs
    exact ⟨Nat.le_refl _, by rw [readClosing, if_pos rfl]; rfl⟩
  | blank n isBlank rest ih =>
    obtain ⟨nls, s, rfl, hnls, hs⟩ := List.map_eq_append_iff.1 hs
    obtain ⟨t, s, rfl, ht, hs⟩ := List.map_eq_cons_iff.1 hs
    have firm : Firm (t :: (s ++ r)) := .cons (by rw [ht]; rfl) _
    obtain ⟨le, skip⟩ := skipNewlines_eq hc (lineEnds_of_kinds hnls) firm
    obtain ⟨le', read⟩ := ih hs
    have blank : t.isBlank = true := by rw [Item.isBlank, ht, isBlank]
    rw [List.append_assoc, List.cons_append]
    refine ⟨length_le_behind nls t s r, ?_⟩
    rw [readClosing, if_neg (Nat.succ_ne_zero _)]
    simp only [skip, pure_bind, blank, if_true, read]
  | @close n unclosed text kinds notBlank present parentheses enough rest ih =>
    obtain ⟨nls, s, rfl, hnls, hs⟩ := List.map_eq_append_iff.1 hs
    obtain ⟨t, s, rfl, ht, hs⟩ := List.map_eq_cons_iff.1 hs
    have firm : Firm (t :: (s ++ r)) := .cons (by rw [ht]; rfl) _
    obtain ⟨le, skip⟩ := skipNewlines_eq hc (lineEnds_of_kinds hnls) firm
    obtain ⟨le', read⟩ := ih hs
    have blank : ¬ t.isBlank = true := by
      rw [Item.isBlank, ht, notBlank]
      exact Bool.false_ne_true
    have closes : text ≠ "" ∧ text.toList.all (· == ')') = true ∧ text.length ≤ unclosed + 1 :=
      ⟨present, parentheses, enough⟩
    rw [List.append_assoc, List.cons_append]
    refine ⟨length_le_behind nls t s r, ?_⟩
    rw [readClosing, if_neg (Nat.succ_ne_zero _)]
    simp only [skip, pure_bind, if_neg blank, ht, if_pos closes, read]

/-- An include statement is read as what it asks for. -/
theorem follows_readInclude (hc : c.At answer place) {request : IncludeRequest}
    {kinds : List TokenKind} {keyword : Item} {s : List Item}
    (h : WritesInclusion request kinds) (hs : (keyword :: s).map Item.kind = kinds) (r : List Item)
    {fs gs : Entries Value} (same : SameEntries fs gs) :
    Follows (Leaves r SameEntries) (readInclude c fs keyword (s ++ r))
      (includedFields answer place gs request) := by
  cases h with
  | @mk word words name required isFileName unclosed kinds closing isKeyword hname asks hclosing =>
    obtain ⟨-, hs⟩ := List.cons_eq_cons.1 hs
    obtain ⟨s, s', rfl, hs, hs'⟩ := List.map_eq_append_iff.1 hs
    obtain ⟨n, le, readName, all, rfl⟩ := readIncludeName_written hc.inConf hname hs (s' ++ r)
    obtain ⟨le', closed⟩ := readClosing_written hc.inConf hclosing hs' r
    rw [List.append_assoc]
    unfold readInclude
    simp only [readName, pure_bind, asks c n all]
    show Follows _ (readClosing c unclosed (s' ++ r) >>= fun q => _) _
    rw [closed, pure_bind, hc.answer]
    refine (Follows.same (R := Eq) (fun _ => rfl) (answer _)).attempt (fun e => ?error) ?ok
    case error =>
      simp only []
      split
      · exact ⟨_, rfl⟩
      · exact ⟨_, rfl⟩
    case ok =>
      rintro v _ rfl
      simp only [hc.place?]
      cases Path.ofKeys? place
      all_goals
        simp only []
        generalize Value.fields? _ = more
        cases more with
        | some more => exact .pure ⟨rfl, same.includeFields rfl⟩
        | none => exact .throw _ _

/-! ### Values -/

/-- A value that was read for itself, and its tree. -/
def PieceOf (v w : Value) : Prop := v.isPiece = true ∧ v.SameTree w

/-- Values that were read for themselves, and their trees. -/
def PiecesOf (vs ws : List Value) : Prop := (∀ v ∈ vs, v.isPiece = true) ∧ SameTrees vs ws

/-- A joined value, and its tree. -/
def JoinedOf (a : Option Value) (w : Value) : Prop := ∃ v, a = some v ∧ v.SameTree w

/-- Items of these kinds are read as what the term means. -/
def TermReadAs (term : Term) (kinds : List TokenKind) : Prop :=
  ∀ ⦃c : Context⦄ ⦃answer place⦄, c.At answer place → ∀ ⦃t : Item⦄ ⦃s : List Item⦄,
    (t :: s).map Item.kind = kinds → ∀ comments r,
    Follows (Leaves r PieceOf) (readValue c t comments (s ++ r)) (term.sense answer place)

/-- Items of these kinds, up to where a value is complete, are read as what the terms mean. -/
def TermsReadAs (terms : Terms) (kinds : List TokenKind) : Prop :=
  ∀ ⦃c : Context⦄ ⦃answer place⦄, c.At answer place → ∀ ⦃s r : List Item⦄,
    s.map Item.kind = kinds → Complete r → ∀ first,
    Follows (Leaves r PiecesOf) (readPieces c first (s ++ r)) (terms.sense answer place)

/-- Items of these kinds behind line ends are read as what they are joined to; a term alone is read
for itself as well. -/
structure RowReadAs (row : Row) (kinds : List TokenKind) : Prop where
  joined : ∀ ⦃c : Context⦄ ⦃answer place⦄, c.At answer place → ∀ ⦃nls s r : List Item⦄,
    LineEnds nls → s.map Item.kind = kinds → Complete r → ∀ comments,
    Follows (Leaves r JoinedOf) (readJoined c comments (nls ++ (s ++ r))) (row.sense answer place)
  alone : ∀ term, row = .mk term .nil → TermReadAs term kinds

/-- No problem is where a value is complete. -/
theorem Complete.checkFront {s : List Item} (h : Complete s) (hc : c.InConf) :
    checkFront c s = pure () := by
  refine checkFront_eq hc fun t ht p kind => ?_
  have := h t ht
  rw [kind] at this
  cases this

theorem termsReadAs_nil : TermsReadAs .nil [] := by
  intro c answer place hc s r hs hr first
  cases List.map_eq_nil_iff.1 hs
  have none : Follows (Leaves r PiecesOf) (pure ([], ⟨r, Nat.le_refl _⟩) : Read (List Value) r)
      (pure []) := .pure ⟨rfl, List.forall_mem_nil _, rfl⟩
  rw [List.nil_append]
  cases r with
  | nil =>
    rw [readPieces]
    exact none
  | cons t r =>
    rw [readPieces, if_neg (by rw [continuesValue_of_endsValue (hr t rfl)]; exact Bool.false_ne_true)]
    exact none

/-- At least one value is read where there is a term. -/
theorem follows_readPieces {term : Term} {terms : Terms} {kinds kinds' : List TokenKind}
    (h : Term.Written term kinds) (h' : Terms.Written terms kinds') (head : TermReadAs term kinds)
    (tail : TermsReadAs terms kinds') (hc : c.At answer place) {s r : List Item}
    (hs : s.map Item.kind = kinds ++ kinds') (hr : Complete r) (first : Bool) :
    Follows (Leaves r fun vs ws => PiecesOf vs ws ∧ vs ≠ []) (readPieces c first (s ++ r))
      ((Terms.cons term terms).sense answer place) := by
  obtain ⟨s, s', rfl, hs, hs'⟩ := List.map_eq_append_iff.1 hs
  obtain ⟨kind, rest, rfl, starts⟩ := h.exists_cons
  obtain ⟨t, s, rfl, ht, hs⟩ := List.map_eq_cons_iff.1 hs
  have continues : t.continuesValue = true := by rw [Item.continuesValue_eq, ht, starts]
  have front : checkFront c (s' ++ r) = pure () := by
    refine checkFront_eq hc.inConf fun u hu p kind => ?_
    cases s' with
    | nil =>
      have ends := hr u hu
      rw [kind] at ends
      cases ends
    | cons t' s' =>
      cases hu
      subst hs'
      have firm := firm_terms h' u.kind rfl
      rw [kind] at firm
      cases firm
  rw [List.append_assoc, List.cons_append, readPieces, if_pos continues]
  refine (head hc (t := { t with comments := if first then [] else t.comments }) (s := s)
    (by rw [List.map_cons, hs, ← ht]) [] (s' ++ r)).bind ?_
  rintro ⟨v, q, le⟩ w ⟨rfl, piece, same⟩
  simp only [front, pure_bind]
  refine (tail hc hs' hr false).bind ?_
  rintro ⟨vs, q, le'⟩ ws ⟨left, pieces, sames⟩
  exact .pure ⟨left, ⟨List.forall_mem_cons.2 ⟨piece, pieces⟩, congrArg₂ List.cons same sames⟩,
    List.cons_ne_nil _ _⟩

theorem termsReadAs_cons {term : Term} {terms : Terms} {kinds kinds' : List TokenKind}
    (h : Term.Written term kinds) (h' : Terms.Written terms kinds') (head : TermReadAs term kinds)
    (tail : TermsReadAs terms kinds') : TermsReadAs (.cons term terms) (kinds ++ kinds') :=
  fun _ _ _ hc _ _ hs hr first =>
    (follows_readPieces h h' head tail hc hs hr first).mono fun _ _ of => ⟨of.1, of.2.1⟩

theorem joinOnto_ne_nil {nullIsEmpty : Bool} {todo done ws : List Value}
    (present : done ≠ [] ∨ todo ≠ []) (h : joinOnto nullIsEmpty done todo = .ok ws) : ws ≠ [] := by
  fun_induction joinOnto nullIsEmpty done todo with
  | case1 done =>
    cases h
    simpa using present
  | case2 right rest ih => exact ih (.inl (List.cons_ne_nil _ _)) h
  | case3 => cases h
  | case4 right rest left before v _ ih => exact ih (.inl (List.cons_ne_nil _ _)) h
  | case5 right rest left before _ ih => exact ih (.inl (List.cons_ne_nil _ _)) h

/-- Values that were read for themselves are joined to something. -/
theorem concatenate_ne_none {vs : List Value} (pieces : ∀ v ∈ vs, v.isPiece = true)
    (present : vs ≠ []) : concatenate vs ≠ .ok none := by
  intro h
  have joined {ws : List Value} (run : joinRun false vs = .ok ws) : ws ≠ [] := by
    unfold joinRun at run
    split at run
    · cases run
      exact present
    · rw [flattenPieces_of_isPiece pieces] at run
      exact joinOnto_ne_nil (.inr present) run
  unfold concatenate at h
  split at h
  · cases h
  · next run => exact joined run rfl
  · cases h
  · cases h

theorem follows_concatenate {vs ws : List Value} (of : PiecesOf vs ws) (present : vs ≠ []) :
    Follows JoinedOf (liftM (concatenate vs)) (joinedValue ws) := by
  have some := concatenate_ne_none of.1 present
  have joins : (liftM (concatenate vs) : Loading (Option Value))
      = joinedValue vs >>= fun v => pure (Option.some v) := by
    unfold joinedValue
    generalize concatenate vs = x at some ⊢
    obtain e | _ | v := x
    · rfl
    · exact absurd rfl some
    · rfl
  rw [joins, ← bind_pure (joinedValue ws)]
  exact of.2.joinedValue.bind fun v w same => .pure ⟨v, rfl, same⟩

theorem Row.sense_eq (answer : IncludeRequest → Loading Value) (place : List String) (term : Term)
    (terms : Terms) : (Row.mk term terms).sense answer place
      = (Terms.cons term terms).sense answer place >>= joinedValue := by
  rw [Row.sense, Terms.sense]
  simp only [bind_assoc, pure_bind]

theorem rowReadAs_mk {term : Term} {terms : Terms} {kinds kinds' : List TokenKind}
    (h : Term.Written term kinds) (h' : Terms.Written terms kinds') (head : TermReadAs term kinds)
    (tail : TermsReadAs terms kinds') : RowReadAs (.mk term terms) (kinds ++ kinds') := by
  refine ⟨?joined, ?alone⟩
  case alone =>
    rintro _ ⟨⟩
    cases h'
    rwa [List.append_nil]
  intro c answer place hc nls s r hn hs hr comments
  have pieces := follows_readPieces h h' head tail hc hs hr true
  obtain ⟨kind, rest, rfl, starts⟩ := h.exists_cons
  obtain ⟨t, s, rfl, ht, -⟩ := List.map_eq_cons_iff.1 hs
  have firm : Firm (t :: s ++ r) := .cons (ht ▸ standsFirm_of_startsTerm starts) (s ++ r)
  have conf : c.syn ≠ .json := by
    rw [hc.inConf.syn]
    decide
  obtain ⟨le, skip⟩ := skipNewlines_eq hc.inConf hn firm
  rw [readJoined, skip, Row.sense_eq]
  simp only [pure_bind, if_neg conf]
  refine pieces.bind ?_
  rintro ⟨vs, q, le'⟩ ws ⟨left, of, present⟩
  rw [← bind_pure (joinedValue ws)]
  refine (follows_concatenate of present).bind ?_
  rintro _ w ⟨v, rfl, same⟩
  exact .pure ⟨left, _, rfl, same.withComments _⟩

/-! ### Items of a list -/

/-- Items of these kinds in front of a closing bracket are read as what the rows mean, at the front
of a list as well as behind a separator. -/
def RowsReadAs (rows : Rows) (kinds : List TokenKind) : Prop :=
  ∀ ⦃c : Context⦄ ⦃answer place⦄, c.At answer place → ∀ ⦃nls s : List Item⦄ ⦃t : Item⦄,
    LineEnds nls → s.map Item.kind = kinds → t.kind = .closeBracket → ∀ r,
    Follows (Leaves r SameTrees) (readList c (nls ++ (s ++ t :: r))) (rows.sense answer place) ∧
    ∀ s' lt, readSeparator c s' = pure (.found ⟨nls ++ (s ++ t :: r), lt⟩) →
      Follows (Leaves r SameTrees) (readItems c s') (rows.sense answer place)

theorem rowsReadAs_nil : RowsReadAs .nil [] := by
  intro c answer place hc nls s t hn hs ht r
  cases List.map_eq_nil_iff.1 hs
  obtain ⟨le, joined⟩ := readJoined_none (r := r) hc.inConf hn ht []
  obtain ⟨le', skip⟩ := skipNewlines_of_firm hc.inConf (firm_of_closes ht r)
  refine ⟨?_, fun s' lt found => ?_⟩
  · rw [readList]
    simp only [List.nil_append, joined, pure_bind, skip, ht]
    exact .pure ⟨rfl, rfl⟩
  · rw [readItems]
    have opens : t.opensValue = false := by rw [Item.opensValue, ht]
    simp only [found, pure_bind, List.nil_append, joined, skip, opens, ht, hc.inConf.syn]
    exact .pure ⟨rfl, rfl⟩

/-- What stands behind an item: more of them behind a separator, or the end of the list. -/
theorem follows_readItems {rows : Rows} {gap kinds : List TokenKind}
    (hgap : WritesGap rows.isNil gap) (hrows : Rows.Written rows kinds)
    (reads : RowsReadAs rows kinds) (hc : c.At answer place) {g s : List Item} {t : Item}
    (hg : g.map Item.kind = gap) (hs : s.map Item.kind = kinds) (ht : t.kind = .closeBracket)
    (r : List Item) :
    Follows (Leaves r SameTrees) (readItems c (g ++ (s ++ t :: r))) (rows.sense answer place) := by
  generalize last : rows.isNil = isLast at hgap
  cases hgap with
  | separator _ h =>
    have firm : Firm (s ++ t :: r) := firm_append (firm_rows hrows) hs (firm_of_closes ht r)
    obtain ⟨nls, lt, found, hn⟩ := readSeparator_found hc.inConf h hg firm
    exact (reads hc hn hs ht r).2 _ lt found
  | nothing =>
    cases rows with
    | cons => cases last
    | nil =>
      cases hrows
      cases List.map_eq_nil_iff.1 hg
      cases List.map_eq_nil_iff.1 hs
      obtain ⟨le, read⟩ := readItems_last hc.inConf ht r
      rw [List.nil_append, List.nil_append, read]
      exact .pure ⟨rfl, rfl⟩

/-- A value is complete in front of what may follow it in a list. -/
theorem complete_items {rows : Rows} {gap kinds : List TokenKind}
    (hgap : WritesGap rows.isNil gap) (hrows : Rows.Written rows kinds) {g s : List Item} {t : Item}
    (hg : g.map Item.kind = gap) (hs : s.map Item.kind = kinds) (ht : t.kind = .closeBracket)
    (r : List Item) : Complete (g ++ (s ++ t :: r)) := by
  refine complete_gap hgap hg fun last => ?_
  cases rows with
  | cons => cases last
  | nil =>
    cases hrows
    cases List.map_eq_nil_iff.1 hs
    intro u hu
    cases hu
    rw [ht]
    rfl

theorem rowsReadAs_cons {row : Row} {rows : Rows} {kinds gap rest : List TokenKind}
    (hgap : WritesGap rows.isNil gap) (hrows : Rows.Written rows rest) (head : RowReadAs row kinds)
    (tail : RowsReadAs rows rest) : RowsReadAs (.cons row rows) (kinds ++ (gap ++ rest)) := by
  intro c answer place hc nls s t hn hs ht r
  obtain ⟨s, behind, rfl, hkinds, hbehind⟩ := List.map_eq_append_iff.1 hs
  obtain ⟨g, s', rfl, hg, hs'⟩ := List.map_eq_append_iff.1 hbehind
  have joined := head.joined hc hn hkinds (complete_items hgap hrows hg hs' ht r) []
  have more := follows_readItems hgap hrows tail hc hg hs' ht r
  rw [List.append_assoc s, List.append_assoc g]
  refine ⟨?_, fun s'' lt found => ?_⟩
  · rw [readList, Rows.sense]
    refine joined.bind ?_
    rintro ⟨_, q, le⟩ w ⟨rfl, v, rfl, same⟩
    refine more.bind ?_
    rintro ⟨vs, q, le'⟩ ws ⟨left, sames⟩
    exact .pure ⟨left, congrArg₂ List.cons same sames⟩
  · rw [readItems, found, Rows.sense]
    refine joined.bind ?_
    rintro ⟨_, q, le⟩ w ⟨rfl, v, rfl, same⟩
    refine more.bind ?_
    rintro ⟨vs, q, le'⟩ ws ⟨left, sames⟩
    exact .pure ⟨left, congrArg₂ List.cons same sames⟩

/-! ### Terms -/

theorem termReadAs_literal (literal : Literal) : TermReadAs (.literal literal) [.value literal] := by
  intro c answer place hc t s hs comments r
  obtain ⟨ht, hs⟩ := List.cons_eq_cons.1 hs
  cases List.map_eq_nil_iff.1 hs
  rw [readValue]
  simp only [ht]
  refine .pure ⟨rfl, ?_, SameTree.withComments ?_ _⟩
  · rw [isPiece_withComments]
    cases literal <;> rfl
  · cases literal <;> rfl

theorem termReadAs_bare (text : String) : TermReadAs (.bare text) [.bare text] := by
  intro c answer place hc t s hs comments r
  obtain ⟨ht, hs⟩ := List.cons_eq_cons.1 hs
  cases List.map_eq_nil_iff.1 hs
  rw [readValue]
  simp only [ht]
  exact .pure ⟨rfl, isPiece_withComments _ _, SameTree.withComments rfl _⟩

theorem termReadAs_reference (optional : Bool) {path : Path} {expression : List Token}
    (h : Path.ofTokens? (expression.map Placed.kind) = .ok path) :
    TermReadAs (.reference ⟨path, optional⟩) [.substitution optional expression] := by
  intro c answer place hc t s hs comments r
  obtain ⟨ht, hs⟩ := List.cons_eq_cons.1 hs
  cases List.map_eq_nil_iff.1 hs
  rw [readValue]
  simp only [ht, pathOf, h]
  exact .pure ⟨rfl, isPiece_withComments _ _, SameTree.withComments rfl _⟩

theorem termReadAs_list (n : Nat) {rows : Rows} {kinds : List TokenKind}
    (h : RowsReadAs rows kinds) :
    TermReadAs (.list rows) (.openBracket :: (newlines n ++ (kinds ++ [.closeBracket]))) := by
  intro c answer place hc t s hs comments r
  obtain ⟨ht, hs⟩ := List.cons_eq_cons.1 hs
  obtain ⟨nls, s', rfl, hnls, hs'⟩ := List.map_eq_append_iff.1 hs
  obtain ⟨s, close, rfl, hkinds, hclose⟩ := List.map_eq_append_iff.1 hs'
  obtain ⟨u, rest, rfl, hu, hrest⟩ := List.map_eq_cons_iff.1 hclose
  cases List.map_eq_nil_iff.1 hrest
  rw [List.append_assoc, List.append_assoc, readValue, Term.sense]
  simp only [ht]
  refine (h hc (lineEnds_of_kinds hnls) hkinds hu r).1.bind ?_
  rintro ⟨vs, q, le⟩ ws ⟨left, sames⟩
  exact .pure ⟨left, isPiece_withComments _ _, (SameTrees.ofItems sames _ _).withComments _⟩

/-! ### Fields -/

/-- Items of these kinds are read as what the fields mean, put over the fields so far. -/
def BodyReadAs (body : Body) (kinds : List TokenKind) : Prop :=
  ∀ ⦃c : Context⦄ ⦃answer place⦄, c.At answer place → ∀ ⦃braced : Bool⦄ ⦃f : Fields⦄
    ⦃nls s t r : List Item⦄ ⦃gs : Entries Value⦄, LineEnds nls → s.map Item.kind = kinds →
    Closes braced t r → SameEntries f.entries gs →
    Follows (Leaves r SameEntries) (readFields c braced f (nls ++ (s ++ t)))
      (body.sense answer place gs)

theorem termReadAs_object (n : Nat) {body : Body} {kinds : List TokenKind}
    (h : BodyReadAs body kinds) :
    TermReadAs (.object body) (.openBrace :: (newlines n ++ (kinds ++ [.closeBrace]))) := by
  intro c answer place hc t s hs comments r
  obtain ⟨ht, hs⟩ := List.cons_eq_cons.1 hs
  obtain ⟨nls, s', rfl, hnls, hs'⟩ := List.map_eq_append_iff.1 hs
  obtain ⟨s, close, rfl, hkinds, hclose⟩ := List.map_eq_append_iff.1 hs'
  obtain ⟨u, rest, rfl, hu, hrest⟩ := List.map_eq_cons_iff.1 hclose
  cases List.map_eq_nil_iff.1 hrest
  rw [List.append_assoc, List.append_assoc, readValue, Term.sense]
  simp only [ht]
  refine (h hc (f := {}) (lineEnds_of_kinds hnls) hkinds (.brace hu r) rfl).bind ?_
  rintro ⟨fs, q, le⟩ gs ⟨left, same⟩
  exact .pure ⟨left, isPiece_withComments _ _, (SameEntries.ofFields same _ _).withComments _⟩

theorem bodyReadAs_nil : BodyReadAs .nil [] := by
  intro c answer place hc braced f nls s t r gs hn hs closes same
  cases List.map_eq_nil_iff.1 hs
  obtain ⟨le, closing⟩ := readFields_closing hc.inConf hn closes f
  rw [List.nil_append, closing]
  exact .pure ⟨rfl, same⟩

/-- Line ends may stand behind a key. -/
theorem stops_link {nls : List Item} (hn : LineEnds nls) {u : Item}
    (hu : u.kind.isPiece = false ∧ standsFirm u.kind = true) (s : List Item) :
    ∀ v ∈ (nls ++ u :: s).head?, v.isKeyPiece = false ∧ Clean v := by
  intro v hv
  cases nls with
  | nil =>
    cases hv
    refine ⟨(isKeyPiece_eq u).trans hu.1, fun p kind => ?_⟩
    have firm := hu.2
    rw [kind] at firm
    cases firm
  | cons t nls =>
    cases hv
    have newline := hn v List.mem_cons_self
    refine ⟨?_, clean_of_isNewline newline⟩
    rw [Item.isNewline] at newline
    rw [Item.isKeyPiece]
    cases kind : v.kind <;> rw [kind] at newline <;> first | rfl | cases newline

theorem follows_appended (hc : c.At answer place) (key : Path) {v w : Value} (same : v.SameTree w) :
    Follows SameTree (liftM (appended c key v)) (grownValue true (key.under place) w) := by
  have grown : (liftM (appended c key v) : Loading Value) = grownValue true (key.under place) v := by
    unfold appended grownValue joinedValue Path.under
    rw [hc.place?, if_pos rfl]
    cases Path.ofKeys? place
    all_goals
      simp only []
      generalize Value.concatenate _ = x
      obtain e | _ | v := x <;> rfl
  rw [grown]
  exact same.grownValue true _

/-- The last step of reading a field puts its value over the fields so far. -/
theorem follows_putField (hc : c.InConf) (f : Fields) (t : Item) (key : Path) {v w : Value}
    (hv : v.SameTree w) {gs : Entries Value} (same : SameEntries f.entries gs) (afterEquals : Bool)
    {s r : List Item} {q : Left s} (left : q.val = r) :
    Follows (Leaves r fun g es => SameEntries g.entries es)
      (do
        let g ← liftM (do
          let entries ← putField c f.entries t key v
          return { f with entries, lastKey := some key, lastAfterEquals := afterEquals } :
            Except Error Fields)
        pure (g, q))
      (pure (includeFields gs [(key.first, nest w key.rest)])) := by
  rw [putField_eq hc.syn]
  exact .pure ⟨left, same.includeField (hv.nest _) _⟩

theorem follows_readFieldValue {row : Row} {kinds : List TokenKind} (reads : RowReadAs row kinds)
    (hc : c.At answer place) {nls s r : List Item} (hn : LineEnds nls)
    (hs : s.map Item.kind = kinds) (hr : Complete r) (comments : List String) :
    Follows (Leaves r SameTree) (readFieldValue c comments (nls ++ (s ++ r)))
      (row.sense answer place) := by
  rw [readFieldValue, ← bind_pure (row.sense answer place)]
  refine (reads.joined hc hn hs hr comments).bind ?_
  rintro ⟨_, q, le⟩ w ⟨left, v, rfl, same⟩
  exact .pure ⟨left, same⟩

/-- A field is read as what it means, put over the fields so far. -/
theorem follows_readField (hc : c.At answer place) {key : Path} {grows : Bool} {row : Row}
    {keys link kinds : List TokenKind} (hkey : WritesKey key keys)
    (hlink : WritesLink grows row link) (hrow : Row.Written row kinds) (reads : RowReadAs row kinds)
    {f : Fields} {t : Item} {s r : List Item} {gs : Entries Value}
    (hs : (t :: s).map Item.kind = keys ++ (link ++ kinds)) (hr : Complete r)
    (same : SameEntries f.entries gs) :
    Follows (Leaves r fun g es => SameEntries g.entries es) (readField c f t (s ++ r)) (do
      let v ← row.sense answer (place ++ key.keys)
      definedFields place gs key grows v) := by
  obtain ⟨before, behind, whole, hkeys, hbehind⟩ := List.map_eq_append_iff.1 hs
  obtain ⟨first, rest, rfl, -, -⟩ := hkey.exists_cons
  obtain ⟨t, before, rfl, ht, hrest⟩ := List.map_eq_cons_iff.1 hkeys
  rw [List.cons_append] at whole
  obtain ⟨rfl, rfl⟩ := List.cons.inj whole
  obtain ⟨front, value, rfl, hfront, hvalue⟩ := List.map_eq_append_iff.1 hbehind
  have spelled : Path.ofTokens? ((t :: before).map Item.kind) = .ok key := hkeys ▸ hkey.path
  rw [List.append_assoc, List.append_assoc, readField]
  cases hlink with
  | @sign m n _ _ kind sign =>
    obtain ⟨nls, signs, rfl, hnls, hsigns⟩ := List.map_eq_append_iff.1 hfront
    obtain ⟨u, nls', rfl, hu, hnls'⟩ := List.map_eq_cons_iff.1 hsigns
    have stops : u.kind.isPiece = false ∧ standsFirm u.kind = true := hu ▸ sign.stops
    obtain ⟨le, keyed⟩ := readKey_written hc.inConf spelled
      (stops_link (lineEnds_of_kinds hnls) stops (nls' ++ (value ++ r)))
    obtain ⟨le', skip⟩ := skipNewlines_eq hc.inConf (lineEnds_of_kinds hnls)
      (.cons stops.2 (nls' ++ (value ++ r)))
    have read := follows_readFieldValue reads
      ((hc.enter key).afterEquals (c.afterEquals || u.kind.isEquals)) (lineEnds_of_kinds hnls')
      hvalue hr (t.comments ++ u.comments)
    rw [List.append_assoc nls, List.cons_append]
    simp only [keyed, pure_bind, skip]
    rw [hu] at read ⊢
    cases sign with
    | colon | equals =>
      simp only [hu, hc.inConf.syn, isKeySeparator]
      refine read.bind ?_
      rintro ⟨v, q⟩ w ⟨left, same'⟩
      exact follows_putField hc.inConf f t key same' same _ left
    | plusEquals =>
      simp only [hu, hc.inConf.syn, isKeySeparator]
      refine read.bind ?_
      rintro ⟨v, q⟩ w ⟨left, same'⟩
      refine (follows_appended hc key same').bind ?_
      intro v' w' same''
      exact follows_putField hc.inConf f t key same'' same _ left
  | object m body =>
    obtain ⟨inside, rfl⟩ := hrow.alone.openBrace
    obtain ⟨u, value, rfl, hu, -⟩ := List.map_eq_cons_iff.1 hvalue
    have stops : u.kind.isPiece = false ∧ standsFirm u.kind = true := hu ▸ ⟨rfl, rfl⟩
    obtain ⟨le, keyed⟩ := readKey_written hc.inConf spelled
      (stops_link (lineEnds_of_kinds hfront) stops (value ++ r))
    obtain ⟨le', skip⟩ := skipNewlines_eq hc.inConf (lineEnds_of_kinds hfront)
      (.cons stops.2 (value ++ r))
    have read := reads.alone (.object body) rfl (hc.enter key) hvalue t.comments r
    rw [List.cons_append]
    simp only [keyed, pure_bind, skip, hu, hc.inConf.syn]
    rw [Row.sense]
    simp only [bind_assoc]
    refine read.bind ?_
    rintro ⟨v, q⟩ w ⟨left, -, same'⟩
    exact follows_putField hc.inConf f t key same' same _ left

/-- What stands behind a field: more of them behind a separator, or the end of the object. -/
theorem follows_readBehind {body : Body} {gap kinds : List TokenKind}
    (hgap : WritesGap body.isNil gap) (hbody : Body.Written body kinds)
    (reads : BodyReadAs body kinds) (hc : c.At answer place) {braced : Bool} {f : Fields}
    {between s t r : List Item} {gs : Entries Value} (hbetween : between.map Item.kind = gap)
    (hs : s.map Item.kind = kinds) (closes : Closes braced t r) (same : SameEntries f.entries gs) :
    Follows (Leaves r SameEntries)
      (readSeparator c (between ++ (s ++ t)) >>= readBehind c braced f)
      (body.sense answer place gs) := by
  generalize last : body.isNil = isLast at hgap
  cases hgap with
  | separator _ h =>
    obtain ⟨nls, lt, found, hn⟩ :=
      readSeparator_found hc.inConf h hbetween (firm_append (firm_body hbody) hs closes.firm)
    rw [found, pure_bind, readBehind, ← bind_pure (body.sense answer place gs)]
    refine (reads hc (f := { f with afterSeparator := true }) hn hs closes same).bind ?_
    rintro ⟨fs, q, le⟩ es ⟨left, same'⟩
    exact .pure ⟨left, same'⟩
  | nothing =>
    cases body with
    | field | inclusion => cases last
    | nil =>
      cases hbody
      cases List.map_eq_nil_iff.1 hbetween
      cases List.map_eq_nil_iff.1 hs
      obtain ⟨le, missing⟩ := readSeparator_missing hc.inConf closes.firm
      rw [List.nil_append, List.nil_append, missing, pure_bind]
      cases closes with
      | stop =>
        rw [readBehind, if_neg Bool.false_ne_true]
        exact .pure ⟨rfl, same⟩
      | brace ht =>
        rw [readBehind]
        simp only [ht, if_true]
        exact .pure ⟨rfl, same⟩

/-- A field or an include statement is read, and then what stands behind it. -/
theorem follows_readFields {body : Body} {gap kinds : List TokenKind}
    (hgap : WritesGap body.isNil gap) (hbody : Body.Written body kinds)
    (reads : BodyReadAs body kinds) (hc : c.At answer place) {braced : Bool} {f : Fields}
    {nls before between s t r : List Item} {u : Item} {x : Loading (Entries Value)}
    (hn : LineEnds nls) (hu : standsFirm u.kind = true) (opened : u.kind ≠ .closeBrace)
    (hbetween : between.map Item.kind = gap) (hs : s.map Item.kind = kinds)
    (closes : Closes braced t r)
    (member : Follows (Leaves (between ++ (s ++ t)) fun g es => SameEntries g.entries es)
      (readMember c f u (before ++ (between ++ (s ++ t)))) x) :
    Follows (Leaves r SameEntries)
      (readFields c braced f (nls ++ u :: (before ++ (between ++ (s ++ t)))))
      (x >>= fun gs => body.sense answer place gs) := by
  obtain ⟨le, skip⟩ := skipNewlines_eq hc.inConf hn (.cons hu (before ++ (between ++ (s ++ t))))
  rw [readFields_eq braced f skip opened]
  refine member.bind ?_
  rintro ⟨g, q, hq⟩ gs ⟨left, same⟩
  obtain rfl : q = between ++ (s ++ t) := left
  rw [← bind_pure (body.sense answer place gs)]
  refine (follows_readBehind hgap hbody reads hc hbetween hs closes same).bind ?_
  rintro ⟨fs, q, le⟩ es ⟨left, same'⟩
  exact .pure ⟨left, same'⟩

/-- A value is complete in front of what may follow it in an object. -/
theorem complete_fields {body : Body} {gap kinds : List TokenKind}
    (hgap : WritesGap body.isNil gap) (hbody : Body.Written body kinds) {braced : Bool}
    {between s t r : List Item} (hbetween : between.map Item.kind = gap)
    (hs : s.map Item.kind = kinds) (closes : Closes braced t r) :
    Complete (between ++ (s ++ t)) := by
  refine complete_gap hgap hbetween fun last => ?_
  cases body with
  | field | inclusion => cases last
  | nil =>
    cases hbody
    cases List.map_eq_nil_iff.1 hs
    exact closes.complete

theorem bodyReadAs_field {key : Path} {grows : Bool} {row : Row} {body : Body}
    {keys link kinds gap rest : List TokenKind} (hkey : WritesKey key keys)
    (hlink : WritesLink grows row link) (hrow : Row.Written row kinds)
    (hgap : WritesGap body.isNil gap) (hbody : Body.Written body rest) (head : RowReadAs row kinds)
    (tail : BodyReadAs body rest) :
    BodyReadAs (.field key grows row body) (keys ++ (link ++ (kinds ++ (gap ++ rest)))) := by
  intro c answer place hc braced f nls s t r gs hn hs closes same
  have assoc : keys ++ (link ++ (kinds ++ (gap ++ rest)))
      = (keys ++ (link ++ kinds)) ++ (gap ++ rest) := by simp only [List.append_assoc]
  obtain ⟨member, behind, rfl, hmember, hbehind⟩ := List.map_eq_append_iff.1 (hs.trans assoc)
  obtain ⟨between, s, rfl, hbetween, hs'⟩ := List.map_eq_append_iff.1 hbehind
  obtain ⟨first, others, eq, piece, noInclude⟩ := hkey.exists_cons
  rw [eq] at hmember
  obtain ⟨u, before, rfl, hu, hbefore⟩ := List.map_eq_cons_iff.1 hmember
  have opened : u.kind ≠ .closeBrace := by
    rw [hu]
    rintro rfl
    cases piece
  have read := follows_readField hc (f := f) hkey hlink hrow head (t := u) (s := before)
    (by rw [eq]; exact hmember) (complete_fields hgap hbody hbetween hs' closes) same
  rw [List.append_assoc, List.append_assoc, Body.sense, ← bind_assoc]
  refine follows_readFields hgap hbody tail hc hn (hu ▸ standsFirm_of_isPiece piece) opened hbetween
    hs' closes ?_
  rw [readMember, hu, noInclude, Bool.false_and, if_neg Bool.false_ne_true]
  exact read

theorem bodyReadAs_inclusion {request : IncludeRequest} {body : Body}
    {kinds gap rest : List TokenKind} (h : WritesInclusion request kinds)
    (hgap : WritesGap body.isNil gap) (hbody : Body.Written body rest)
    (tail : BodyReadAs body rest) :
    BodyReadAs (.inclusion request body) (kinds ++ (gap ++ rest)) := by
  intro c answer place hc braced f nls s t r gs hn hs closes same
  obtain ⟨member, behind, rfl, hmember, hbehind⟩ := List.map_eq_append_iff.1 hs
  obtain ⟨between, s, rfl, hbetween, hs'⟩ := List.map_eq_append_iff.1 hbehind
  obtain ⟨keyword, others, rfl, word⟩ := h.exists_cons
  obtain ⟨u, before, rfl, hu, hbefore⟩ := List.map_eq_cons_iff.1 hmember
  have opened : u.kind ≠ .closeBrace := by
    rw [hu]
    rintro rfl
    cases word
  have read := follows_readInclude hc h hmember (between ++ (s ++ t)) same
  have conf : (c.syn != .json) = true := by
    rw [hc.inConf.syn]
    rfl
  rw [List.append_assoc, List.append_assoc, Body.sense]
  refine follows_readFields hgap hbody tail hc hn (hu ▸ standsFirm_of_isPiece (isPiece_of_isInclude word)) opened
    hbetween hs' closes ?_
  rw [readMember, hu, word, conf, Bool.true_and, if_pos rfl, ← bind_pure (includedFields _ _ _ _)]
  refine read.bind ?_
  rintro ⟨fs, q⟩ es ⟨left, same'⟩
  exact .pure ⟨left, same'⟩

/-! ### Documents -/

/-- **What is written is understood**, whatever stands around it. -/
theorem written_readAs :
    WrittenCases TermReadAs TermsReadAs RowReadAs RowsReadAs BodyReadAs where
  literal := termReadAs_literal
  bare := termReadAs_bare
  reference optional _ _ h := termReadAs_reference optional h
  object n _ _ _ h := termReadAs_object n h
  list n _ _ _ h := termReadAs_list n h
  noTerm := termsReadAs_nil
  terms h h' head tail := termsReadAs_cons h h' head tail
  row h h' head tail := rowReadAs_mk h h' head tail
  noRow := rowsReadAs_nil
  rows _ hgap hrows head tail := rowsReadAs_cons hgap hrows head tail
  noField := bodyReadAs_nil
  field hkey hlink hrow hgap hbody head tail :=
    bodyReadAs_field hkey hlink hrow hgap hbody head tail
  inclusion h hgap hbody tail := bodyReadAs_inclusion h hgap hbody tail

/-- A document of one object or list. -/
theorem follows_readRoot_term (hc : c.At answer place) {term : Term} {kind : TokenKind}
    {kinds : List TokenKind} (opens : kind.opensContainer = true)
    (reads : TermReadAs term (kind :: kinds)) {nls s nls' : List Item} (hn : LineEnds nls)
    (hs : s.map Item.kind = kind :: kinds) (hn' : LineEnds nls') :
    Follows SameTree (readRoot c (nls ++ (s ++ nls'))) (term.sense answer place) := by
  obtain ⟨t, s, rfl, ht, -⟩ := List.map_eq_cons_iff.1 hs
  have firm : standsFirm t.kind = true := by
    rw [ht]
    cases kind <;> first | rfl | cases opens
  obtain ⟨le, skip⟩ := skipNewlines_eq hc.inConf hn (.cons firm (s ++ nls'))
  obtain ⟨le', skip'⟩ := skipNewlines_end hc.inConf hn'
  unfold readRoot
  rw [List.cons_append, skip, ← bind_pure (term.sense answer place)]
  simp only [pure_bind, ht, opens, if_true]
  refine (reads hc hs [] nls').bind ?_
  rintro ⟨v, q, le⟩ w ⟨left, -, same⟩
  obtain rfl : q = nls' := left
  simp only [skip', pure_bind]
  exact .pure same

/-- A document without braces around it. -/
theorem follows_readRoot_body (hc : c.At answer place) {body : Body} {kinds : List TokenKind}
    (h : Body.Written body kinds) {nls s : List Item} (hn : LineEnds nls)
    (hs : s.map Item.kind = kinds) :
    Follows SameTree (readRoot c (nls ++ s)) (do
      return .ofFields (mergedOrigin []) (← body.sense answer place [])) := by
  have firm : Firm s := by
    have whole := firm_append (firm_body h) hs (t := []) (by rintro _ ⟨⟩)
    rwa [List.append_nil] at whole
  obtain ⟨le, skip⟩ := skipNewlines_eq hc.inConf hn firm
  obtain ⟨le', skip'⟩ := skipNewlines_end hc.inConf lineEnds_nil
  have braceless : ∀ t ∈ s.head?, t.kind.opensContainer = false := by
    intro t ht
    cases s with
    | nil => cases ht
    | cons u s =>
      cases ht
      subst hs
      have piece := h.isPiece t.kind rfl
      cases kind : t.kind <;> rw [kind] at piece <;> first | rfl | cases piece
  have read := written_readAs.ofBody h hc (f := {}) lineEnds_nil hs .stop
    (rfl : SameEntries [] [])
  rw [List.append_nil] at read
  rw [readRoot_braceless hc.inConf.syn skip braceless]
  refine Follows.bind read ?_
  rintro ⟨fs, q, le⟩ gs ⟨left, same⟩
  obtain rfl : q = [] := left
  simp only [skip', pure_bind]
  exact .pure (same.ofFields _ _)

/-- **A document is read as what it means**: to the same tree, asking for the same documents, or
else neither gives one. -/
theorem follows_readRoot (hc : c.At answer []) {script : Script} {kinds : List TokenKind}
    (h : script.Written kinds) {s : List Item} (hs : s.map Item.kind = kinds) :
    Follows SameTree (readRoot c s) (script.sense answer) := by
  have isContainer {term : Term} {kinds : List TokenKind} {m n : Nat} {kind : TokenKind}
      {rest : List TokenKind} (h : Term.Written term kinds) (front : kinds = kind :: rest)
      (opens : kind.opensContainer = true)
      (hs : s.map Item.kind = newlines m ++ (kinds ++ newlines n)) :
      Follows SameTree (readRoot c s) (term.sense answer []) := by
    subst front
    obtain ⟨nls, s, rfl, hnls, hs⟩ := List.map_eq_append_iff.1 hs
    obtain ⟨s, nls', rfl, hs, hnls'⟩ := List.map_eq_append_iff.1 hs
    exact follows_readRoot_term hc opens (written_readAs.ofTerm h) (lineEnds_of_kinds hnls) hs
      (lineEnds_of_kinds hnls')
  cases h with
  | object m n h =>
    obtain ⟨rest, front⟩ := h.openBrace
    exact isContainer h front rfl hs
  | list m n h =>
    cases h with
    | list k hrows => exact isContainer (.list k hrows) rfl rfl hs
  | body n h =>
    obtain ⟨nls, s, rfl, hnls, hs⟩ := List.map_eq_append_iff.1 hs
    exact follows_readRoot_body hc h (lineEnds_of_kinds hnls) hs

/-! ### Texts -/

/-- What an include statement is answered does not depend on the text that it stands in. -/
theorem find_ofText (files : FileTree) (shelves : Nat) (a b : String)
    (ha : (ofText a).chain.length < maxIncludeDepth)
    (hb : (ofText b).chain.length < maxIncludeDepth) (o : ParseOptions) (r : IncludeRequest)
    (i : Includer) :
    (ofText a).find files shelves ha o r i = (ofText b).find files shelves hb o r i := by
  induction i with
  | files => rw [Document.find, Document.find]; rfl
  | shelf s =>
    unfold Document.find
    rfl
  | both first second ih ih' =>
    rw [Document.find, Document.find, ih, ih']

/-- A text is parsed by reading it, with the same answers whatever its items are. -/
theorem exists_parseText_eq_read (files : FileTree) {o : ParseOptions}
    (conf : o.syn.getD .conf = .conf) :
    ∃ answer, ∀ text, parseText files o text
      = Document.read .conf ((ofText "").originFor o) answer text
        >>= fun v => checkRoot ((ofText "").originFor o) v := by
  have depth (text : String) : (ofText text).chain.length < maxIncludeDepth := Nat.zero_lt_succ _
  have syn (text : String) : (ofText text).syntaxFor o = .conf := by
    rw [syntaxFor, ofText, syntaxOfName?, Option.or_none, conf]
  have origin (text : String) : (ofText text).originFor o = (ofText "").originFor o := by
    unfold originFor
    cases o.description <;> rfl
  refine ⟨fun r =>
    let inner := if r.required then { o.inherited with allowMissing := false } else o.inherited
    (ofText "").find files o.shelfDepth (depth "") inner r inner.allIncluders, fun text => ?_⟩
  rw [parseText, Document.load, dif_pos (depth text)]
  simp only [show (ofText text).content files = .ok text from rfl, syn, origin,
    find_ofText files o.shelfDepth text "" (depth text) (depth "")]

theorem exists_parseText_eq (files : FileTree) {o : ParseOptions}
    (conf : o.syn.getD .conf = .conf) :
    ∃ origin answer, ∀ text, parseText files o text
      = Document.read .conf origin answer text >>= fun v => checkRoot origin v :=
  ⟨_, exists_parseText_eq_read files conf⟩

/-- **A text is read as what it means.** -/
theorem exists_follows_parseText (files : FileTree) {o : ParseOptions}
    (conf : o.syn.getD .conf = .conf) :
    ∃ origin answer, ∀ (text : String) (script : Script),
      script.Written ((itemsOf text).map Item.kind) →
      Follows SameTree (parseText files o text)
        (script.sense answer >>= fun v => liftM (Document.checkRoot origin v)) := by
  obtain ⟨origin, answer, eq⟩ := exists_parseText_eq files conf
  refine ⟨origin, answer, fun text script written => ?_⟩
  rw [eq]
  refine Follows.bind (R := SameTree) ?_ fun v w same => same.checkRoot origin
  exact follows_readRoot ⟨⟨rfl, kind_stopOf _ _⟩, rfl, rfl⟩ written rfl

/-- **Texts of the same sense** give the same tree, or neither gives one. -/
theorem follows_parseText (files : FileTree) {o : ParseOptions} (conf : o.syn.getD .conf = .conf)
    {a b : String} {script script' : Script} (ha : script.Written ((itemsOf a).map Item.kind))
    (hb : script'.Written ((itemsOf b).map Item.kind))
    (same : ∀ answer, Follows SameTree (script.sense answer) (script'.sense answer)) :
    Follows SameTree (parseText files o a) (parseText files o b) := by
  obtain ⟨origin, answer, reads⟩ := exists_follows_parseText files conf
  have between := (same answer).bind fun v w same => same.checkRoot origin
  have front := (reads a script ha).trans between fun _ _ _ left right => Eq.trans left right
  exact front.trans (reads b script' hb).symm fun _ _ _ left right => Eq.trans left (Eq.symm right)

end Document

end Hocon
