import Mathlib.Data.List.Forall2
import Hocon.Loading
import Hocon.Proofs.WellFormed

/-!
# How items spell a value

`Spells v kinds` says that items of these kinds are a way of writing the resolved tree `v` in
HOCON: objects and lists with separators and line ends as the grammar allows them.  It is the
view of a document that the writer and the reader of documents share.  The reader keeps to it:
items that spell a tree are read as that tree (`Document.readValue_spells`), whatever comments
stand above them.  What is read echoes what was spelled; it is the same but for provenance, for
the order of keys, for quotes and for closed objects.
-/

namespace Hocon

open Value

/-! ### Echoes -/

/-- `w.Echoes v` tells that `w` holds what the resolved tree `v` holds, spellings included. -/
inductive Value.Echoes : Value → Value → Prop
  | null (p q : Provenance) : Echoes (null p) (null q)
  | bool (p q : Provenance) (b : Bool) : Echoes (bool p b) (bool q b)
  | number (p q : Provenance) (n : Number) (t : Option String) :
      Echoes (number p n t) (number q n t)
  | string (p q : Provenance) (t : String) (a b : Bool) : Echoes (string p t a) (string q t b)
  | object (p q : Provenance) (a b : Bool) {fs gs : Entries Value}
      (nodup : (Entries.keys gs).Nodup) (keys : (Entries.keys fs).Perm (Entries.keys gs))
      (fields : ∀ k v w, Entries.get? fs k = some v → Entries.get? gs k = some w → Echoes v w) :
      Echoes (object p a fs) (object q b gs)
  | list (p q : Provenance) {xs ys : List Value} (length : xs.length = ys.length)
      (items : ∀ (i : Nat) x y, xs[i]? = some x → ys[i]? = some y → Echoes x y) :
      Echoes (list p xs) (list q ys)

theorem Value.Echoes.withProv {w v : Value} (h : w.Echoes v) (p : Provenance) :
    (w.withProv p).Echoes v := by
  cases h with
  | null => exact .null _ _
  | bool => exact .bool _ _ _
  | number => exact .number _ _ _ _
  | string => exact .string _ _ _ _ _
  | object _ _ _ _ nodup keys fields => exact .object _ _ _ _ nodup keys fields
  | list _ _ length items => exact .list _ _ length items

theorem Value.Echoes.withComments {w v : Value} (h : w.Echoes v) (comments : List String) :
    (Document.withComments w comments).Echoes v := by
  unfold Document.withComments
  split
  · exact h
  · exact h.withProv _

/-- Items that echo others one by one. -/
abbrev Value.EchoItems (xs ys : List Value) : Prop := List.Forall₂ Value.Echoes xs ys

/-- Fields that echo others one by one. -/
abbrev Value.EchoFields (fs gs : Entries Value) : Prop :=
  List.Forall₂ (fun f g => f.1 = g.1 ∧ f.2.Echoes g.2) fs gs

namespace Value

theorem EchoItems.list {xs ys : List Value} (h : EchoItems xs ys) (p q : Provenance) :
    (list p xs).Echoes (list q ys) := by
  refine .list p q h.length_eq fun i x y hx hy => ?_
  obtain ⟨hi, rfl⟩ := List.getElem?_eq_some_iff.1 hx
  obtain ⟨hi', rfl⟩ := List.getElem?_eq_some_iff.1 hy
  exact List.Forall₂.get h hi hi'

theorem EchoFields.keys_eq {fs gs : Entries Value} (h : EchoFields fs gs) :
    Entries.keys fs = Entries.keys gs := by
  induction h with
  | nil => rfl
  | cons head _ ih =>
    simp only [Entries.keys, List.map_cons, List.cons.injEq] at ih ⊢
    exact ⟨head.1, ih⟩

theorem EchoFields.get? {fs gs : Entries Value} (h : EchoFields fs gs) {k : String} {v w : Value}
    (hv : Entries.get? fs k = some v) (hw : Entries.get? gs k = some w) : v.Echoes w := by
  induction h with
  | nil => cases hv
  | @cons f g _ _ head _ ih =>
    simp only [Entries.get?] at hv hw
    rw [head.1] at hv
    split at hv
    · next e =>
      rw [if_pos e] at hw
      cases hv
      cases hw
      exact head.2
    · next e =>
      rw [if_neg e] at hw
      exact ih hv hw

/-- Fields that were spelled in another order. -/
theorem EchoFields.object {fs gs hs : Entries Value} (h : EchoFields fs gs) (perm : gs.Perm hs)
    (nodup : (Entries.keys hs).Nodup) (p q : Provenance) (a b : Bool) :
    (object p a fs).Echoes (object q b hs) := by
  have keys : (Entries.keys gs).Perm (Entries.keys hs) := perm.map _
  have nodup' : (Entries.keys gs).Nodup := keys.nodup_iff.2 nodup
  refine .object p q a b nodup (h.keys_eq ▸ keys) fun k v w hv hw => ?_
  have hw' : Entries.get? gs k = some w :=
    Entries.get?_of_mem nodup' (perm.mem_iff.2 (Entries.mem_of_get? hw))
  exact h.get? hv hw'

end Value

/-! ### Spellings -/

/-- Any number of line ends. -/
abbrev newlines (n : Nat) : List TokenKind := List.replicate n .newline

/-- A comma among line ends, or a line end. -/
inductive SpellsSeparator : List TokenKind → Prop
  | comma (m n : Nat) : SpellsSeparator (newlines m ++ .comma :: newlines n)
  | newline (n : Nat) : SpellsSeparator (newlines (n + 1))

/-- A token that is the whole of a key. -/
structure SpellsKey (key : String) (kind : TokenKind) : Prop where
  path : Path.ofTokens? [kind] = .ok (.ofKey key)
  piece : (match kind with
    | .value _ => true
    | .bare _ => true
    | _ => false) = true
  noInclude : kind.isInclude = false

/-- What may stand between a key and its value: nothing in front of an object. -/
inductive SpellsLink : Value → List TokenKind → Prop
  | none (p : Provenance) (c : Bool) (fs : Entries Value) : SpellsLink (object p c fs) []
  | colon (v : Value) : SpellsLink v [.colon]
  | equals (v : Value) : SpellsLink v [.equals]

mutual

/-- `Spells v kinds`: items of these kinds are a way of writing `v`. -/
inductive Spells : Value → List TokenKind → Prop
  | null (p : Provenance) : Spells (null p) [.value .null]
  | bool (p : Provenance) (b : Bool) : Spells (bool p b) [.value (.bool b)]
  | whole (p : Provenance) (n : Int64) (t : String) :
      Spells (number p (.whole n) (some t)) [.value (.whole n t)]
  | double (p : Provenance) (d : Double) (t : String) :
      Spells (number p (.double d) (some t)) [.value (.double d t)]
  | string (p : Provenance) (t : String) (quoted : Bool) :
      Spells (string p t quoted) [.value (.string t)]
  | object (p : Provenance) (c : Bool) (n : Nat) {fs gs : Entries Value} {kinds : List TokenKind}
      (perm : gs.Perm fs) (nodup : (Entries.keys fs).Nodup) (fields : SpellsFields gs kinds) :
      Spells (object p c fs) (.openBrace :: (newlines n ++ (kinds ++ [.closeBrace])))
  | list (p : Provenance) (n : Nat) {xs : List Value} {kinds : List TokenKind}
      (items : SpellsItems xs kinds) :
      Spells (list p xs) (.openBracket :: (newlines n ++ (kinds ++ [.closeBracket])))

/-- A way of writing fields; a separator may stand behind the last one. -/
inductive SpellsFields : Entries Value → List TokenKind → Prop
  | nil : SpellsFields [] []
  | last {key : String} {v : Value} {kind : TokenKind} {link value : List TokenKind}
      (hkey : SpellsKey key kind) (hlink : SpellsLink v link) (hvalue : Spells v value) :
      SpellsFields [(key, v)] (kind :: (link ++ value))
  | cons {key : String} {v : Value} {kind : TokenKind} {link value separator kinds : List TokenKind}
      {fs : Entries Value} (hkey : SpellsKey key kind) (hlink : SpellsLink v link)
      (hvalue : Spells v value) (hseparator : SpellsSeparator separator)
      (hfields : SpellsFields fs kinds) :
      SpellsFields ((key, v) :: fs) (kind :: (link ++ value) ++ (separator ++ kinds))

/-- A way of writing items; a separator may stand behind the last one. -/
inductive SpellsItems : List Value → List TokenKind → Prop
  | nil : SpellsItems [] []
  | last {v : Value} {value : List TokenKind} (hvalue : Spells v value) : SpellsItems [v] value
  | cons {v : Value} {xs : List Value} {value separator kinds : List TokenKind}
      (hvalue : Spells v value) (hseparator : SpellsSeparator separator)
      (hitems : SpellsItems xs kinds) :
      SpellsItems (v :: xs) (value ++ (separator ++ kinds))

end

/-- Whether a value starts with a token of this kind that is no reference. -/
def TokenKind.opensValue : TokenKind → Bool
  | value _ => true
  | openBrace => true
  | openBracket => true
  | _ => false

theorem Spells.exists_cons {v : Value} {kinds : List TokenKind} (h : Spells v kinds) :
    ∃ kind rest, kinds = kind :: rest ∧ kind.opensValue = true := by
  cases h <;> exact ⟨_, _, rfl, rfl⟩

theorem SpellsKey.literal_or_bare {key : String} {kind : TokenKind} (h : SpellsKey key kind) :
    (∃ literal, kind = .value literal) ∨ ∃ text, kind = .bare text := by
  have piece := h.piece
  split at piece
  · exact .inl ⟨_, rfl⟩
  · exact .inr ⟨_, rfl⟩
  · cases piece

/-! ### Moving on -/

namespace Document

/-- A place in a HOCON document. -/
structure Context.InConf (c : Context) : Prop where
  syn : c.syn = .conf
  stop : c.stop.kind = .stop

/-- Whether the token may stand at the front without being skipped or refused. -/
def standsFirm : TokenKind → Bool
  | .newline => false
  | .comma => false
  | .problem _ => false
  | _ => true

/-- The front item, if there is one, is neither skipped nor refused. -/
abbrev Firm (s : List Item) : Prop := ∀ t ∈ s.head?, standsFirm t.kind = true

/-- Whether no value goes on with such a token. -/
def endsValue : TokenKind → Bool
  | .newline => true
  | .comma => true
  | .closeBrace => true
  | .closeBracket => true
  | _ => false

/-- The value in front of these items is complete. -/
abbrev Complete (s : List Item) : Prop := ∀ t ∈ s.head?, endsValue t.kind = true

/-- These items are line ends. -/
abbrev LineEnds (s : List Item) : Prop := ∀ t ∈ s, t.isNewline = true

variable {c : Context}

theorem lineEnds_of_kinds {s : List Item} {n : Nat} (h : s.map Item.kind = newlines n) :
    LineEnds s := by
  intro t ht
  have kind : t.kind ∈ newlines n := h ▸ List.mem_map_of_mem ht
  rw [Item.isNewline, List.eq_of_mem_replicate kind]

theorem checkFront_eq (hc : c.InConf) {s : List Item}
    (h : ∀ t ∈ s.head?, ∀ p, t.kind ≠ .problem p) : checkFront c s = pure () := by
  have none : c.refusal? (c.front s) = none := by
    have front : ∀ p, (c.front s).kind ≠ .problem p := by
      cases s with
      | nil =>
        intro p hp
        have := hc.stop.symm.trans hp
        cases this
      | cons t s => exact h t rfl
    unfold Context.refusal?
    rw [hc.syn]
    split
    · next hp => exact absurd hp (front _)
    · next hs => cases hs
    · next hs => cases hs
    · rfl
  rw [checkFront, none]

theorem Firm.cons {t : Item} (h : standsFirm t.kind = true) (s : List Item) : Firm (t :: s) := by
  intro u hu
  cases hu
  exact h

theorem Firm.dropWhile {s : List Item} (h : Firm s) : s.dropWhile Item.isNewline = s := by
  cases s with
  | nil => rfl
  | cons t s =>
    have solid : t.isNewline = false := by
      have := h t rfl
      unfold Item.isNewline
      split
      · next kind => rw [kind] at this; cases this
      · rfl
    rw [List.dropWhile_cons, solid]
    rfl

theorem Firm.checkFront {s : List Item} (h : Firm s) (hc : c.InConf) : checkFront c s = pure () := by
  refine checkFront_eq hc fun t ht p kind => ?_
  have := h t ht
  rw [kind] at this
  cases this

theorem dropWhile_lineEnds {nls s : List Item} (hn : LineEnds nls) (hs : Firm s) :
    (nls ++ s).dropWhile Item.isNewline = s := by
  rw [List.dropWhile_append_of_pos hn, hs.dropWhile]

/-- Line ends are skipped up to the item behind them. -/
theorem skipNewlines_eq (hc : c.InConf) {nls s : List Item} (hn : LineEnds nls) (hs : Firm s) :
    ∃ le, skipNewlines c (nls ++ s) = pure ⟨s, le⟩ := by
  have drop := dropWhile_lineEnds hn hs
  refine ⟨by rw [List.length_append]; omega, ?_⟩
  unfold skipNewlines
  simp only [drop, hs.checkFront hc, pure_bind]

/-- Nothing is left behind line ends. -/
theorem skipNewlines_end (hc : c.InConf) {nls : List Item} (hn : LineEnds nls) :
    ∃ le, skipNewlines c nls = pure ⟨[], le⟩ := by
  have skip := skipNewlines_eq hc (s := []) hn nofun
  rwa [List.append_nil] at skip

theorem lineEnds_nil : LineEnds [] := nofun

/-- Where nothing is to be skipped. -/
theorem skipNewlines_of_firm (hc : c.InConf) {s : List Item} (hs : Firm s) :
    ∃ le, skipNewlines c s = pure ⟨s, le⟩ := skipNewlines_eq hc lineEnds_nil hs

theorem readSeparator_comma (hc : c.InConf) {s rest : List Item} {t : Item}
    (drop : s.dropWhile Item.isNewline = t :: rest) (ht : t.kind = .comma) :
    ∃ lt, readSeparator c s = pure (.found ⟨rest, lt⟩) := by
  have front : checkFront c (t :: rest) = pure () := by
    refine checkFront_eq hc fun u hu p kind => ?_
    cases hu
    rw [ht] at kind
    cases kind
  have lt : rest.length < s.length := by
    have := (List.dropWhile_suffix (l := s) Item.isNewline).length_le
    rw [drop] at this
    exact this
  refine ⟨lt, ?_⟩
  unfold readSeparator skipNewlines
  simp only [drop, front, pure_bind, ht]

/-- A separator is found, and the line ends behind it may be left. -/
theorem readSeparator_found (hc : c.InConf) {separator : List TokenKind}
    (h : SpellsSeparator separator) {s r : List Item} (hs : s.map Item.kind = separator)
    (hr : Firm r) :
    ∃ nls lt, readSeparator c (s ++ r) = pure (.found ⟨nls ++ r, lt⟩) ∧ LineEnds nls := by
  cases h with
  | comma m n =>
    obtain ⟨before, s', rfl, hbefore, hs'⟩ := List.map_eq_append_iff.1 hs
    obtain ⟨t, after, rfl, ht, hafter⟩ := List.map_eq_cons_iff.1 hs'
    have drop : (before ++ t :: after ++ r).dropWhile Item.isNewline = t :: (after ++ r) := by
      rw [List.append_assoc, List.dropWhile_append_of_pos (lineEnds_of_kinds hbefore),
        List.cons_append, List.dropWhile_cons, show t.isNewline = false by rw [Item.isNewline, ht]]
      rfl
    obtain ⟨lt, found⟩ := readSeparator_comma hc drop ht
    exact ⟨after, lt, found, lineEnds_of_kinds hafter⟩
  | newline n =>
    obtain ⟨t, nls, rfl, ht, hnls⟩ := List.map_eq_cons_iff.1 hs
    have ends : LineEnds (t :: nls) := lineEnds_of_kinds hs
    obtain ⟨le, skip⟩ := skipNewlines_eq hc ends hr
    have lt : r.length < ((t :: nls) ++ r).length := by
      simp only [List.length_append, List.length_cons]
      omega
    have conf : c.syn ≠ .json := by rw [hc.syn]; decide
    refine ⟨[], lt, ?_, nofun⟩
    unfold readSeparator
    simp only [skip, pure_bind, dif_pos (And.intro conf lt)]
    cases r with
    | nil => rfl
    | cons u r =>
      have firm := hr u rfl
      simp only []
      split
      · next kind => rw [kind] at firm; cases firm
      · rfl

/-- Where something else stands, no separator is found. -/
theorem readSeparator_missing (hc : c.InConf) {s : List Item} (hs : Firm s) :
    ∃ le, readSeparator c s = pure (.missing ⟨s, le⟩) := by
  obtain ⟨le, skip⟩ := skipNewlines_of_firm hc hs
  refine ⟨le, ?_⟩
  unfold readSeparator
  simp only [skip, pure_bind, Nat.lt_irrefl, and_false, dif_neg, not_false_eq_true]
  cases s with
  | nil => rfl
  | cons t s =>
    have firm := hs t rfl
    simp only []
    split
    · next kind => rw [kind] at firm; cases firm
    · rfl

/-! ### Values -/

theorem continuesValue_of_opensValue {t : Item} (h : t.kind.opensValue = true) :
    t.continuesValue = true := by
  obtain ⟨kind, span, line, comments⟩ := t
  cases kind <;> first | rfl | cases h

theorem continuesValue_of_endsValue {t : Item} (h : endsValue t.kind = true) :
    t.continuesValue = false := by
  obtain ⟨kind, span, line, comments⟩ := t
  cases kind <;> first | rfl | cases h

/-- A value that is complete is joined with nothing. -/
theorem readPieces_eq (hc : c.InConf) {t : Item} {s r : List Item} {v : Value}
    (ht : t.kind.opensValue = true) (hr : Complete r)
    (read : ∀ u : Item, u.kind = t.kind →
      ∃ w le, readValue c u [] s = pure (w, ⟨r, le⟩) ∧ w.Echoes v) :
    ∃ w le, readPieces c true (t :: s) = pure ([w], ⟨r, le⟩) ∧ w.Echoes v := by
  obtain ⟨w, le, value, echoes⟩ := read { t with comments := [] } rfl
  have front : checkFront c r = pure () := by
    refine checkFront_eq hc fun u hu p kind => ?_
    have := hr u hu
    rw [kind] at this
    cases this
  have rest : ∃ le', readPieces c false r = pure ([], ⟨r, le'⟩) := by
    cases r with
    | nil => exact ⟨Nat.le_refl _, by rw [readPieces]⟩
    | cons u r =>
      refine ⟨Nat.le_refl _, ?_⟩
      rw [readPieces, if_neg (by rw [continuesValue_of_endsValue (hr u rfl)]; decide)]
  obtain ⟨le', rest⟩ := rest
  refine ⟨w, Nat.le_succ_of_le le, ?_, echoes⟩
  rw [readPieces, if_pos (continuesValue_of_opensValue ht)]
  simp only [if_true, value, pure_bind, front, rest]

/-- Items of these kinds are read as a value that echoes `v`, whatever stands around them. -/
def ReadsAs (v : Value) (kinds : List TokenKind) : Prop :=
  ∀ ⦃c : Context⦄, c.InConf → ∀ ⦃t : Item⦄ ⦃s : List Item⦄, (t :: s).map Item.kind = kinds →
    ∀ comments r, ∃ w le, readValue c t comments (s ++ r) = pure (w, ⟨r, le⟩) ∧ w.Echoes v

theorem readJoined_eq (hc : c.InConf) {v : Value} {kinds : List TokenKind} (h : Spells v kinds)
    (reads : ReadsAs v kinds) {nls s r : List Item} (hn : LineEnds nls)
    (hs : s.map Item.kind = kinds) (hr : Complete r) (comments : List String) :
    ∃ w le, readJoined c comments (nls ++ (s ++ r)) = pure (some w, ⟨r, le⟩) ∧ w.Echoes v := by
  obtain ⟨kind, rest, rfl, opens⟩ := h.exists_cons
  obtain ⟨t, s, rfl, ht, hs⟩ := List.map_eq_cons_iff.1 hs
  have opens : t.kind.opensValue = true := ht ▸ opens
  have firm : Firm (t :: (s ++ r)) := .cons
    (by cases hk : t.kind <;> rw [hk] at opens <;> first | rfl | cases opens) _
  obtain ⟨le, skip⟩ := skipNewlines_eq hc hn firm
  obtain ⟨w, le', pieces, echoes⟩ := readPieces_eq hc (v := v) opens hr fun u hu =>
    reads hc (t := u) (s := s) (by rw [List.map_cons, hu, ht, hs]) [] r
  have conf : c.syn ≠ .json := by rw [hc.syn]; decide
  refine ⟨withComments w (comments ++ t.comments), ?_, ?_, ?_⟩
  · simp only [List.length_append]
    omega
  · rw [readJoined]
    simp only [List.cons_append, skip, pure_bind, if_neg conf, pieces, Context.front,
      List.headD_cons]
    rfl
  · exact echoes.withComments _

/-- Where no value starts, none is read. -/
theorem readJoined_none (hc : c.InConf) {nls r : List Item} {t : Item} (hn : LineEnds nls)
    (ht : t.kind = .closeBracket) (comments : List String) :
    ∃ le, readJoined c comments (nls ++ t :: r) = pure (none, ⟨t :: r, le⟩) := by
  have firm : Firm (t :: r) := .cons (by rw [ht]; rfl) r
  obtain ⟨le, skip⟩ := skipNewlines_eq hc hn firm
  have conf : c.syn ≠ .json := by rw [hc.syn]; decide
  have pieces : readPieces c true (t :: r) = pure ([], ⟨t :: r, Nat.le_refl _⟩) := by
    rw [readPieces, if_neg (by rw [continuesValue_of_endsValue (by rw [ht]; rfl)]; decide)]
  refine ⟨le, ?_⟩
  rw [readJoined]
  simp only [skip, pure_bind, if_neg conf, pieces]
  rfl

theorem readFieldValue_eq (hc : c.InConf) {v : Value} {kinds : List TokenKind} (h : Spells v kinds)
    (reads : ReadsAs v kinds) {s r : List Item} (hs : s.map Item.kind = kinds) (hr : Complete r)
    (comments : List String) :
    ∃ w le, readFieldValue c comments (s ++ r) = pure (w, ⟨r, le⟩) ∧ w.Echoes v := by
  obtain ⟨w, le, joined, echoes⟩ := readJoined_eq hc h reads lineEnds_nil hs hr comments
  have joined : readJoined c comments (s ++ r) = pure (some w, ⟨r, le⟩) := joined
  refine ⟨w, le, ?_, echoes⟩
  rw [readFieldValue, joined]
  rfl

/-! ### Lists -/

/-- Items of these kinds in front of a closing bracket are read as items of a list, at its front
as well as behind a separator. -/
def ItemsReadAs (xs : List Value) (kinds : List TokenKind) : Prop :=
  ∀ ⦃c : Context⦄, c.InConf → ∀ ⦃nls s : List Item⦄ ⦃t : Item⦄, LineEnds nls →
    s.map Item.kind = kinds → t.kind = .closeBracket → ∀ r,
    (∃ ws le, readList c (nls ++ (s ++ t :: r)) = pure (ws, ⟨r, le⟩) ∧ EchoItems ws xs) ∧
    ∀ s' lt, readSeparator c s' = pure (.found ⟨nls ++ (s ++ t :: r), lt⟩) →
      ∃ ws le, readItems c s' = pure (ws, ⟨r, le⟩) ∧ EchoItems ws xs

theorem firm_of_closes {t : Item} (ht : t.kind = .closeBracket) (r : List Item) :
    Firm (t :: r) := .cons (by rw [ht]; rfl) r

/-- No item is left in front of the closing bracket. -/
theorem itemsReadAs_nil : ItemsReadAs [] [] := by
  intro c hc nls s t hn hs ht r
  cases List.map_eq_nil_iff.1 hs
  obtain ⟨le, joined⟩ := readJoined_none (r := r) hc hn ht []
  obtain ⟨le', skip⟩ := skipNewlines_of_firm hc (firm_of_closes ht r)
  refine ⟨⟨[], ?_, ?_, .nil⟩, fun s' lt found => ⟨[], ?_, ?_, .nil⟩⟩
  · simp only [List.length_append, List.nil_append, List.length_cons]
    omega
  · rw [readList]
    simp only [List.nil_append, joined, pure_bind, skip, ht]
  · simp only [List.length_append, List.nil_append, List.length_cons] at lt
    omega
  · rw [readItems]
    have opens : t.opensValue = false := by
      rw [Item.opensValue, ht]
    simp only [found, pure_bind, List.nil_append, joined, skip, opens, ht, hc.syn]
    rfl

/-- An item that stands in front of items which are read. -/
theorem itemsReadAs_cons {v : Value} {xs : List Value} {value kinds : List TokenKind}
    (h : Spells v value) (reads : ReadsAs v value)
    (rest : ∀ ⦃c : Context⦄, c.InConf → ∀ ⦃s : List Item⦄ ⦃t : Item⦄, s.map Item.kind = kinds →
      t.kind = .closeBracket → ∀ r, Complete (s ++ t :: r) ∧
        ∃ ws le, readItems c (s ++ t :: r) = pure (ws, ⟨r, le⟩) ∧ EchoItems ws xs) :
    ItemsReadAs (v :: xs) (value ++ kinds) := by
  intro c hc nls s t hn hs ht r
  obtain ⟨s, s', rfl, hs, hs'⟩ := List.map_eq_append_iff.1 hs
  obtain ⟨complete, ws, le, items, echo⟩ := rest hc hs' ht r
  obtain ⟨w, le', joined, echoes⟩ := readJoined_eq hc h reads hn hs complete []
  rw [List.append_assoc s s']
  refine ⟨⟨w :: ws, ?_, ?_, .cons echoes echo⟩,
    fun s'' lt found => ⟨w :: ws, ?_, ?_, .cons echoes echo⟩⟩
  · simp only [List.length_append, List.length_cons]
    omega
  · rw [readList]
    simp only [joined, pure_bind, items]
  · simp only [List.length_append, List.length_cons] at lt
    omega
  · rw [readItems]
    simp only [found, joined, pure_bind, items]

/-- Behind the last item. -/
theorem readItems_last (hc : c.InConf) {t : Item} (ht : t.kind = .closeBracket) (r : List Item) :
    ∃ le, readItems c (t :: r) = pure ([], ⟨r, le⟩) := by
  obtain ⟨le, missing⟩ := readSeparator_missing hc (firm_of_closes ht r)
  refine ⟨Nat.le_succ _, ?_⟩
  rw [readItems]
  simp only [missing, pure_bind, ht]

theorem complete_separator {separator : List TokenKind} (h : SpellsSeparator separator)
    {s : List Item} (hs : s.map Item.kind = separator) (r : List Item) : Complete (s ++ r) := by
  intro t ht
  have front : ∃ kind kinds, separator = kind :: kinds ∧ endsValue kind = true := by
    cases h with
    | comma m n => cases m <;> exact ⟨_, _, rfl, rfl⟩
    | newline n => exact ⟨_, _, rfl, rfl⟩
  obtain ⟨kind, kinds, rfl, ends⟩ := front
  obtain ⟨u, s, rfl, hu, -⟩ := List.map_eq_cons_iff.1 hs
  cases ht
  rw [hu]
  exact ends

/-! ### Fields -/

/-- What stands behind the fields of an object, and what is left then. -/
inductive Closes : Bool → List Item → List Item → Prop
  | brace {t : Item} (ht : t.kind = .closeBrace) (r : List Item) : Closes true (t :: r) r
  | stop : Closes false [] []

theorem Closes.firm {braced : Bool} {s r : List Item} (h : Closes braced s r) : Firm s := by
  intro t ht
  cases h with
  | brace kind => cases ht; rw [kind]; rfl
  | stop => cases ht

theorem Closes.complete {braced : Bool} {s r : List Item} (h : Closes braced s r) : Complete s := by
  intro t ht
  cases h with
  | brace kind => cases ht; rw [kind]; rfl
  | stop => cases ht

/-- A key of one token, where nothing behind it goes on with it. -/
theorem readKey_alone (hc : c.InConf) {key : String} {t : Item} (h : SpellsKey key t.kind)
    {s : List Item} (hs : ∀ u ∈ s.head?, u.isKeyPiece = false ∧ ∀ p, u.kind ≠ .problem p) :
    ∃ le, readKey c t s = pure (.ofKey key, ⟨s, le⟩) := by
  have conf : c.syn ≠ .json := by rw [hc.syn]; decide
  have piece : t.isKeyPiece = true := by
    obtain ⟨literal, kind⟩ | ⟨text, kind⟩ := h.literal_or_bare <;>
      rw [Item.isKeyPiece, kind]
  have parted : s.dropWhile Item.isKeyPiece = s ∧ s.takeWhile Item.isKeyPiece = [] := by
    cases s with
    | nil => exact ⟨rfl, rfl⟩
    | cons u s =>
      rw [List.dropWhile_cons, List.takeWhile_cons, (hs u rfl).1]
      exact ⟨rfl, rfl⟩
  obtain ⟨drop, take⟩ := parted
  have front : checkFront c s = pure () := checkFront_eq hc fun u hu => (hs u hu).2
  refine ⟨Nat.le_refl _, ?_⟩
  unfold Document.readKey
  rw [if_neg conf, if_pos piece]
  simp only [drop, take, front, pure_bind, List.map_cons, List.map_nil, pathOf, h.path]
  rfl

theorem readKey_eq (hc : c.InConf) {key : String} {t : Item} (h : SpellsKey key t.kind)
    {u : Item} {s : List Item} (hu : u.kind = .colon ∨ u.kind = .equals ∨ u.kind = .openBrace) :
    ∃ le, readKey c t (u :: s) = pure (.ofKey key, ⟨u :: s, le⟩) := by
  refine readKey_alone hc h fun v hv => ?_
  cases hv
  obtain kind | kind | kind := hu <;> rw [Item.isKeyPiece, kind] <;> exact ⟨rfl, nofun⟩

/-- A field with a new key is put behind the fields so far. -/
theorem putField_fresh {fields : Entries Value} {t : Item} {key : String} {v : Value}
    (fresh : key ∉ Entries.keys fields) :
    putField c fields t (.ofKey key) v = .ok (fields ++ [(key, v)]) := by
  unfold putField
  rw [show (Path.ofKey key).first = key from rfl, Entries.get?_eq_none_iff.2 fresh]
  exact congrArg _ (Entries.put_of_not_mem fresh _)

/-- A field whose value stands behind a sign. -/
theorem readField_sign (hc : c.InConf) {k : String} {v : Value} {value : List TokenKind} {f : Fields}
    {t u : Item} {s r : List Item} (hkey : SpellsKey k t.kind) (hu : u.kind = .colon ∨ u.kind = .equals)
    (h : Spells v value) (reads : ReadsAs v value) (hs : s.map Item.kind = value) (hr : Complete r)
    (fresh : k ∉ Entries.keys f.entries) :
    ∃ g w le, readField c f t (u :: (s ++ r)) = pure (g, ⟨r, le⟩)
      ∧ g.entries = f.entries ++ [(k, w)] ∧ w.Echoes v := by
  obtain ⟨le, key⟩ := readKey_eq hc hkey (u := u) (s := s ++ r) (or_assoc.1 (.inl hu))
  have firm : Firm (u :: (s ++ r)) := .cons (by obtain hu | hu := hu <;> rw [hu] <;> rfl) _
  obtain ⟨le', skip⟩ := skipNewlines_of_firm hc firm
  obtain ⟨w, le'', fieldValue, echoes⟩ := readFieldValue_eq (c :=
    { c.enter (.ofKey k) with afterEquals := c.afterEquals || u.kind.isEquals })
    ⟨hc.syn, hc.stop⟩ h reads hs hr (t.comments ++ u.comments)
  refine ⟨{ f with
    entries := f.entries ++ [(k, w)], lastKey := some (.ofKey k), lastAfterEquals := u.kind.isEquals },
    w, Nat.le_succ_of_le le'', ?_, rfl, echoes⟩
  rw [readField]
  obtain hu | hu := hu <;> rw [hu] at fieldValue <;>
    simp only [key, pure_bind, skip, hu, hc.syn, isKeySeparator, TokenKind.isPlusEquals,
      fieldValue, putField_fresh fresh]
  all_goals rfl

/-- A new field is read as it was spelled. -/
theorem readField_eq (hc : c.InConf) {k : String} {v : Value} {kind : TokenKind}
    {link value : List TokenKind} (hkey : SpellsKey k kind) (hlink : SpellsLink v link)
    (h : Spells v value) (reads : ReadsAs v value) {f : Fields} {t : Item} {s r : List Item}
    (ht : t.kind = kind) (hs : s.map Item.kind = link ++ value) (hr : Complete r)
    (fresh : k ∉ Entries.keys f.entries) :
    ∃ g w le, readField c f t (s ++ r) = pure (g, ⟨r, le⟩)
      ∧ g.entries = f.entries ++ [(k, w)] ∧ w.Echoes v := by
  subst ht
  obtain ⟨before, s', rfl, hbefore, hs'⟩ := List.map_eq_append_iff.1 hs
  cases hlink with
  | none p closed fs =>
    cases List.map_eq_nil_iff.1 hbefore
    cases h with
    | object _ _ n perm nodup fields =>
      obtain ⟨u, s, rfl, hu, hs⟩ := List.map_eq_cons_iff.1 hs'
      obtain ⟨le, key⟩ := readKey_eq hc hkey (s := s ++ r) (.inr (.inr hu))
      have firm : Firm (u :: (s ++ r)) := .cons (by rw [hu]; rfl) _
      obtain ⟨le', skip⟩ := skipNewlines_of_firm hc firm
      have inner : (c.enter (.ofKey k)).InConf := ⟨hc.syn, hc.stop⟩
      obtain ⟨w, le'', value, echoes⟩ := reads inner (t := u) (s := s) (by
        rw [List.map_cons, hu, hs]) t.comments r
      refine ⟨{ f with
        entries := f.entries ++ [(k, w)], lastKey := some (.ofKey k), lastAfterEquals := false },
        w, Nat.le_succ_of_le le'', ?_, rfl, echoes⟩
      rw [readField]
      simp only [List.nil_append, List.cons_append, key, pure_bind, skip, hu, hc.syn, value,
        putField_fresh fresh]
      rfl
  | colon =>
    obtain ⟨u, rest, rfl, hu, hrest⟩ := List.map_eq_cons_iff.1 hbefore
    cases List.map_eq_nil_iff.1 hrest
    exact readField_sign hc hkey (.inl hu) h reads hs' hr fresh
  | equals =>
    obtain ⟨u, rest, rfl, hu, hrest⟩ := List.map_eq_cons_iff.1 hbefore
    cases List.map_eq_nil_iff.1 hrest
    exact readField_sign hc hkey (.inr hu) h reads hs' hr fresh

/-- Items of these kinds are read as fields, put behind the fields so far. -/
def FieldsReadAs (gs : Entries Value) (kinds : List TokenKind) : Prop :=
  ∀ ⦃c : Context⦄, c.InConf → ∀ ⦃braced : Bool⦄ ⦃f : Fields⦄ ⦃nls s t r : List Item⦄,
    LineEnds nls → s.map Item.kind = kinds → Closes braced t r →
    (Entries.keys f.entries ++ Entries.keys gs).Nodup →
    ∃ fs le, readFields c braced f (nls ++ (s ++ t)) = pure (f.entries ++ fs, ⟨r, le⟩)
      ∧ EchoFields fs gs

/-- The object is closed. -/
theorem readFields_closing (hc : c.InConf) {braced : Bool} {nls t r : List Item}
    (hn : LineEnds nls) (closes : Closes braced t r) (f : Fields) :
    ∃ le, readFields c braced f (nls ++ t) = pure (f.entries, ⟨r, le⟩) := by
  obtain ⟨le, skip⟩ := skipNewlines_eq hc hn closes.firm
  have le' : r.length ≤ (nls ++ t).length := by
    refine Nat.le_trans ?_ le
    cases closes <;> simp
  refine ⟨le', ?_⟩
  rw [readFields]
  cases closes with
  | @brace t ht =>
    have open' : ¬ (DocumentSyntax.conf = .json ∧ f.afterSeparator = true) := by
      rintro ⟨h, -⟩
      cases h
    simp only [skip, pure_bind, ht, hc.syn, if_neg open']
    rfl
  | stop =>
    simp only [skip, pure_bind]
    rfl

theorem fieldsReadAs_nil : FieldsReadAs [] [] := by
  intro c hc braced f nls s t r hn hs closes _
  cases List.map_eq_nil_iff.1 hs
  obtain ⟨le, closing⟩ := readFields_closing hc hn closes f
  exact ⟨[], le, by rw [List.append_nil]; exact closing, .nil⟩

theorem firm_append {kinds : List TokenKind} {s t : List Item}
    (firm : ∀ kind ∈ kinds.head?, standsFirm kind = true) (hs : s.map Item.kind = kinds)
    (ht : Firm t) : Firm (s ++ t) := by
  subst hs
  cases s with
  | nil => exact ht
  | cons u s =>
    intro u' hu
    cases hu
    exact firm _ rfl

theorem firm_fields {gs : Entries Value} {kinds : List TokenKind} (h : SpellsFields gs kinds) :
    ∀ kind ∈ kinds.head?, standsFirm kind = true := by
  intro kind hk
  cases h with
  | nil => cases hk
  | last hkey | cons hkey =>
    cases hk
    obtain ⟨literal, rfl⟩ | ⟨text, rfl⟩ := hkey.literal_or_bare <;> rfl

theorem firm_items {xs : List Value} {kinds : List TokenKind} (h : SpellsItems xs kinds) :
    ∀ kind ∈ kinds.head?, standsFirm kind = true := by
  intro kind hk
  have opens {v : Value} {value : List TokenKind} (hv : Spells v value) (rest : List TokenKind)
      (hk : kind ∈ (value ++ rest).head?) : standsFirm kind = true := by
    obtain ⟨first, value, rfl, opens⟩ := hv.exists_cons
    cases hk
    cases kind <;> first | rfl | cases opens
  cases h with
  | nil => cases hk
  | last hvalue => exact opens hvalue [] (by rwa [List.append_nil])
  | cons hvalue => exact opens hvalue _ hk

theorem firm_of_key {k : String} {t : Item} (hkey : SpellsKey k t.kind) (s : List Item) :
    Firm (t :: s) := .cons (by
  obtain ⟨literal, kind⟩ | ⟨text, kind⟩ := hkey.literal_or_bare <;> rw [kind] <;> rfl) s

/-- No separator stands behind the last field. -/
theorem readFields_last (hc : c.InConf) {k : String} {braced : Bool} {f g : Fields} {t : Item}
    {nls s q r : List Item} {le : q.length ≤ s.length} (hn : LineEnds nls) (hkey : SpellsKey k t.kind)
    (field : readField c f t s = pure (g, ⟨q, le⟩)) (closes : Closes braced q r) :
    ∃ le', readFields c braced f (nls ++ t :: s) = pure (g.entries, ⟨r, le'⟩) := by
  obtain ⟨le₁, skip⟩ := skipNewlines_eq hc hn (firm_of_key hkey s)
  obtain ⟨le₂, missing⟩ := readSeparator_missing hc closes.firm
  have noInclude := hkey.noInclude
  have le' : r.length ≤ (nls ++ t :: s).length := by
    simp only [List.length_append, List.length_cons]
    cases closes <;> simp only [List.length_cons, List.length_nil] at le ⊢ <;> omega
  refine ⟨le', ?_⟩
  rw [readFields]
  obtain ⟨literal, kind⟩ | ⟨text, kind⟩ := hkey.literal_or_bare <;> rw [kind] at noInclude <;>
    simp only [skip, pure_bind, kind, noInclude, Bool.false_and, Bool.false_eq_true, if_false,
      field, missing] <;>
    cases closes <;> simp only [*] <;> rfl

/-- Behind a separator there may be more fields. -/
theorem readFields_more (hc : c.InConf) {k : String} {braced : Bool} {f g : Fields} {t : Item}
    {nls s q p r : List Item} {fs : Entries Value} {le : q.length ≤ s.length}
    {lt : p.length < q.length} {le' : r.length ≤ p.length} (hn : LineEnds nls)
    (hkey : SpellsKey k t.kind) (field : readField c f t s = pure (g, ⟨q, le⟩))
    (found : readSeparator c q = pure (.found ⟨p, lt⟩))
    (more : readFields c braced { g with afterSeparator := true } p = pure (fs, ⟨r, le'⟩)) :
    ∃ le'', readFields c braced f (nls ++ t :: s) = pure (fs, ⟨r, le''⟩) := by
  obtain ⟨le₁, skip⟩ := skipNewlines_eq hc hn (firm_of_key hkey s)
  have noInclude := hkey.noInclude
  have le'' : r.length ≤ (nls ++ t :: s).length := by
    simp only [List.length_append, List.length_cons]
    omega
  refine ⟨le'', ?_⟩
  rw [readFields]
  obtain ⟨literal, kind⟩ | ⟨text, kind⟩ := hkey.literal_or_bare <;> rw [kind] at noInclude <;>
    simp only [skip, pure_bind, kind, noInclude, Bool.false_and, Bool.false_eq_true, if_false,
      field, found, more]

theorem fieldsReadAs_last {k : String} {v : Value} {kind : TokenKind} {link value : List TokenKind}
    (hkey : SpellsKey k kind) (hlink : SpellsLink v link) (h : Spells v value)
    (reads : ReadsAs v value) : FieldsReadAs [(k, v)] (kind :: (link ++ value)) := by
  intro c hc braced f nls s t r hn hs closes nodup
  obtain ⟨u, s, rfl, hu, hs⟩ := List.map_eq_cons_iff.1 hs
  have fresh : k ∉ Entries.keys f.entries := fun hk =>
    (List.nodup_append.1 nodup).2.2 k hk k List.mem_cons_self rfl
  obtain ⟨g, w, le, field, entries, echoes⟩ :=
    readField_eq hc hkey hlink h reads hu hs closes.complete fresh
  obtain ⟨le', read⟩ := readFields_last hc hn (hu ▸ hkey) field closes
  exact ⟨[(k, w)], le', entries ▸ read, .cons ⟨rfl, echoes⟩ .nil⟩

theorem fieldsReadAs_cons {k : String} {v : Value} {kind : TokenKind}
    {link value separator kinds : List TokenKind} {gs : Entries Value} (hkey : SpellsKey k kind)
    (hlink : SpellsLink v link) (h : Spells v value) (reads : ReadsAs v value)
    (hseparator : SpellsSeparator separator) (fields : FieldsReadAs gs kinds)
    (firm : ∀ kind ∈ kinds.head?, standsFirm kind = true) :
    FieldsReadAs ((k, v) :: gs) (kind :: (link ++ value) ++ (separator ++ kinds)) := by
  intro c hc braced f nls s t r hn hs closes nodup
  obtain ⟨s₁, s₂, rfl, hs₁, hs₂⟩ := List.map_eq_append_iff.1 hs
  obtain ⟨s', s₃, rfl, hs', hs₃⟩ := List.map_eq_append_iff.1 hs₂
  obtain ⟨u, s₁, rfl, hu, hs₁⟩ := List.map_eq_cons_iff.1 hs₁
  have fresh : k ∉ Entries.keys f.entries := fun hk =>
    (List.nodup_append.1 nodup).2.2 k hk k List.mem_cons_self rfl
  have complete : Complete (s' ++ (s₃ ++ t)) := complete_separator hseparator hs' _
  obtain ⟨g, w, le, field, entries, echoes⟩ :=
    readField_eq hc hkey hlink h reads hu hs₁ complete fresh
  obtain ⟨nls', lt, found, hn'⟩ :=
    readSeparator_found hc hseparator hs' (firm_append firm hs₃ closes.firm)
  have nodup' : (Entries.keys g.entries ++ Entries.keys gs).Nodup := by
    rw [entries, Entries.keys, List.map_append, List.append_assoc]
    exact nodup
  obtain ⟨fs, le', more, echo⟩ :=
    fields hc (f := { g with afterSeparator := true }) hn' hs₃ closes nodup'
  obtain ⟨le'', read⟩ := readFields_more hc hn (hu ▸ hkey) field found more
  have assoc : u :: s₁ ++ (s' ++ s₃) ++ t = u :: (s₁ ++ (s' ++ (s₃ ++ t))) := by
    simp only [List.append_assoc, List.cons_append]
  rw [assoc]
  refine ⟨(k, w) :: fs, le'', ?_, .cons ⟨rfl, echoes⟩ echo⟩
  rw [read]
  simp only [entries, List.append_assoc, List.cons_append, List.nil_append]

theorem itemsReadAs_last {v : Value} {value : List TokenKind} (h : Spells v value)
    (reads : ReadsAs v value) : ItemsReadAs [v] value := by
  rw [← List.append_nil value]
  refine itemsReadAs_cons h reads fun c hc s t hs ht r => ?_
  cases List.map_eq_nil_iff.1 hs
  obtain ⟨le, read⟩ := readItems_last hc ht r
  refine ⟨?_, [], le, read, .nil⟩
  intro u hu
  cases hu
  rw [ht]
  rfl

theorem itemsReadAs_more {v : Value} {xs : List Value} {value separator kinds : List TokenKind}
    (h : Spells v value) (reads : ReadsAs v value) (hseparator : SpellsSeparator separator)
    (items : ItemsReadAs xs kinds) (firm : ∀ kind ∈ kinds.head?, standsFirm kind = true) :
    ItemsReadAs (v :: xs) (value ++ (separator ++ kinds)) := by
  refine itemsReadAs_cons h reads fun c hc s t hs ht r => ?_
  obtain ⟨s', s, rfl, hs', hs⟩ := List.map_eq_append_iff.1 hs
  obtain ⟨nls, lt, found, hn⟩ :=
    readSeparator_found hc hseparator hs' (firm_append firm hs (firm_of_closes ht r))
  rw [List.append_assoc]
  exact ⟨complete_separator hseparator hs' _, (items hc hn hs ht r).2 _ lt found⟩

/-! ### All values -/

/-- A scalar is one item. -/
theorem readsAs_literal {v : Value} (literal : Literal)
    (h : ∀ o, (literalValue o literal).Echoes v) : ReadsAs v [.value literal] := by
  intro c hc t s hs comments r
  obtain ⟨ht, hs⟩ := List.cons_eq_cons.1 hs
  cases List.map_eq_nil_iff.1 hs
  refine ⟨_, Nat.le_refl _, ?_, (h (c.originAt t.line)).withComments (comments ++ t.comments)⟩
  rw [readValue]
  simp only [ht]
  rfl

theorem readsAs_object {p : Provenance} {closed : Bool} {n : Nat} {fs gs : Entries Value}
    {kinds : List TokenKind} (perm : gs.Perm fs) (nodup : (Entries.keys fs).Nodup)
    (fields : FieldsReadAs gs kinds) :
    ReadsAs (.object p closed fs) (.openBrace :: (newlines n ++ (kinds ++ [.closeBrace]))) := by
  intro c hc t s hs comments r
  obtain ⟨ht, hs⟩ := List.cons_eq_cons.1 hs
  obtain ⟨nls, s', rfl, hnls, hs'⟩ := List.map_eq_append_iff.1 hs
  obtain ⟨s, close, rfl, hkinds, hclose⟩ := List.map_eq_append_iff.1 hs'
  obtain ⟨u, rest, rfl, hu, hrest⟩ := List.map_eq_cons_iff.1 hclose
  cases List.map_eq_nil_iff.1 hrest
  have nodup' : (Entries.keys gs).Nodup := (perm.map _).nodup_iff.2 nodup
  obtain ⟨ws, le, read, echo⟩ := fields hc (f := {}) (lineEnds_of_kinds hnls) hkinds (.brace hu r)
    (by simpa [Entries.keys] using nodup')
  rw [List.append_assoc, List.append_assoc]
  refine ⟨_, le, ?_, (echo.object perm nodup { origin := c.originAt t.line } p false closed).withComments
    (comments ++ t.comments)⟩
  rw [readValue]
  simp only [ht, List.cons_append, List.nil_append, read, pure_bind]
  rfl

theorem readsAs_list {p : Provenance} {n : Nat} {xs : List Value} {kinds : List TokenKind}
    (items : ItemsReadAs xs kinds) :
    ReadsAs (.list p xs) (.openBracket :: (newlines n ++ (kinds ++ [.closeBracket]))) := by
  intro c hc t s hs comments r
  obtain ⟨ht, hs⟩ := List.cons_eq_cons.1 hs
  obtain ⟨nls, s', rfl, hnls, hs'⟩ := List.map_eq_append_iff.1 hs
  obtain ⟨s, close, rfl, hkinds, hclose⟩ := List.map_eq_append_iff.1 hs'
  obtain ⟨u, rest, rfl, hu, hrest⟩ := List.map_eq_cons_iff.1 hclose
  cases List.map_eq_nil_iff.1 hrest
  obtain ⟨⟨ws, le, read, echo⟩, -⟩ := items hc (lineEnds_of_kinds hnls) hkinds hu r
  rw [List.append_assoc, List.append_assoc]
  refine ⟨_, le, ?_, (echo.list { origin := c.originAt t.line } p).withComments
    (comments ++ t.comments)⟩
  rw [readValue]
  simp only [ht, List.cons_append, List.nil_append, read, pure_bind]
  rfl

mutual

/-- **What is spelled is read.** -/
theorem readValue_spells {v : Value} {kinds : List TokenKind} : Spells v kinds → ReadsAs v kinds
  | .null _ => readsAs_literal .null fun _ => .null _ _
  | .bool _ b => readsAs_literal (.bool b) fun _ => .bool _ _ _
  | .whole _ n t => readsAs_literal (.whole n t) fun _ => .number _ _ _ _
  | .double _ d t => readsAs_literal (.double d t) fun _ => .number _ _ _ _
  | .string _ t _ => readsAs_literal (.string t) fun _ => .string _ _ _ _ _
  | .object _ _ _ perm nodup fields => readsAs_object perm nodup (readFields_spells fields)
  | .list _ _ items => readsAs_list (readItems_spells items)

theorem readFields_spells {gs : Entries Value} {kinds : List TokenKind} :
    SpellsFields gs kinds → FieldsReadAs gs kinds
  | .nil => fieldsReadAs_nil
  | .last hkey hlink hvalue => fieldsReadAs_last hkey hlink hvalue (readValue_spells hvalue)
  | .cons hkey hlink hvalue hseparator hfields =>
    fieldsReadAs_cons hkey hlink hvalue (readValue_spells hvalue) hseparator
      (readFields_spells hfields) (firm_fields hfields)

theorem readItems_spells {xs : List Value} {kinds : List TokenKind} :
    SpellsItems xs kinds → ItemsReadAs xs kinds
  | .nil => itemsReadAs_nil
  | .last hvalue => itemsReadAs_last hvalue (readValue_spells hvalue)
  | .cons hvalue hseparator hitems =>
    itemsReadAs_more hvalue (readValue_spells hvalue) hseparator (readItems_spells hitems)
      (firm_items hitems)

end

end Document

end Hocon
