import Hocon.Proofs.Comprehension

/-!
# What is read is written

Whatever items are read, they are a way of writing a phrase (`Document.recognized`): a document is
read only if it is written as the grammar of phrases says (`Document.exists_written`,
`Document.exists_written_of_parseText`).
-/

namespace Hocon

/-! ### Ways of writing, as they are read -/

/-- What joined values are written as: line ends only where there are none. -/
inductive WritesJoined : Option Value → List TokenKind → Prop
  | none (n : Nat) : WritesJoined none (newlines n)
  | some (v : Value) (n : Nat) {row : Row} {kinds : List TokenKind} (h : Row.Written row kinds) :
      WritesJoined (some v) (newlines n ++ kinds)

/-- A value behind line ends. -/
def WritesRow (kinds : List TokenKind) : Prop :=
  ∃ n row ks, Row.Written row ks ∧ kinds = newlines n ++ ks

/-- Items of a list behind line ends, and the closing bracket. -/
def WritesList (kinds : List TokenKind) : Prop :=
  ∃ n rows ks, Rows.Written rows ks ∧ kinds = newlines n ++ (ks ++ [.closeBracket])

/-- What stands behind an item of a list, the closing bracket included. -/
def WritesItems (kinds : List TokenKind) : Prop :=
  ∃ gap rows ks, WritesGap rows.isNil gap ∧ Rows.Written rows ks
    ∧ kinds = gap ++ (ks ++ [.closeBracket])

/-- A field or an include statement, by what it makes of those behind it. -/
inductive WritesMember : (Body → Body) → List TokenKind → Prop
  | field {key : Path} {grows : Bool} {row : Row} {keys link kinds : List TokenKind}
      (hkey : WritesKey key keys) (hlink : WritesLink grows row link) (hrow : Row.Written row kinds) :
      WritesMember (.field key grows row) (keys ++ (link ++ kinds))
  | inclusion {request : IncludeRequest} {kinds : List TokenKind}
      (h : WritesInclusion request kinds) : WritesMember (.inclusion request) kinds

theorem WritesMember.written {add : Body → Body} {body : Body} {kinds gap rest : List TokenKind}
    (h : WritesMember add kinds) (hgap : WritesGap body.isNil gap)
    (hrest : Body.Written body rest) : Body.Written (add body) (kinds ++ (gap ++ rest)) := by
  cases h with
  | field hkey hlink hrow =>
    rw [List.append_assoc, List.append_assoc]
    exact .field hkey hlink hrow hgap hrest
  | inclusion h => exact .inclusion h hgap hrest

theorem Row.Written.ofTerm {term : Term} {kinds : List TokenKind} (h : Term.Written term kinds) :
    Row.Written (.mk term .nil) kinds := by
  have row := Row.Written.mk h .nil
  rwa [List.append_nil] at row

theorem Term.Written.exists_object {term : Term} {kinds : List TokenKind}
    (h : Term.Written term (.openBrace :: kinds)) : ∃ body, term = .object body := by
  cases h
  exact ⟨_, rfl⟩

/-- An object or a list between line ends is a document. -/
theorem Term.Written.exists_script {term : Term} {kind : TokenKind} {kinds : List TokenKind}
    (h : Term.Written term (kind :: kinds)) (opens : kind.opensContainer = true) (m n : Nat) :
    ∃ script : Script, script.Written (newlines m ++ (kind :: kinds ++ newlines n)) := by
  cases h with
  | object k h => exact ⟨_, .object m n (.object k h)⟩
  | list k h => exact ⟨_, .list m n (.list k h)⟩
  | _ => cases opens

/-- More line ends are part of a separator. -/
theorem SpellsSeparator.more {kinds : List TokenKind} (h : SpellsSeparator kinds) (n : Nat) :
    SpellsSeparator (kinds ++ newlines n) := by
  cases h with
  | comma m k =>
    rw [List.append_assoc, List.cons_append, ← List.replicate_add]
    exact .comma m (k + n)
  | newline k =>
    rw [← List.replicate_add, Nat.add_right_comm]
    exact .newline (k + n)

theorem WritesItems.cons {row : Row} {separator kinds rest : List TokenKind} {n : Nat}
    (hseparator : SpellsSeparator separator) (hrow : Row.Written row kinds)
    (hrest : WritesItems rest) :
    WritesItems (separator ++ (newlines n ++ kinds ++ rest)) := by
  obtain ⟨gap, rows, ks, hgap, hrows, rfl⟩ := hrest
  refine ⟨separator ++ newlines n, .cons row rows, kinds ++ (gap ++ ks),
    .separator _ (hseparator.more n), .cons hrow hgap hrows, ?_⟩
  simp only [List.append_assoc]

theorem WritesList.cons {row : Row} {kinds rest : List TokenKind} {n : Nat}
    (hrow : Row.Written row kinds) (hrest : WritesItems rest) :
    WritesList (newlines n ++ kinds ++ rest) := by
  obtain ⟨gap, rows, ks, hgap, hrows, rfl⟩ := hrest
  refine ⟨n, .cons row rows, kinds ++ (gap ++ ks), .cons hrow hgap hrows, ?_⟩
  simp only [List.append_assoc]

namespace Document

open Value

/-! ### What a reading gives -/

/-- Whatever comes of `x` has the property. -/
def Gives {α : Type} (x : Loading α) (P : α → Prop) : Prop :=
  ∀ m a m', x.run.run m = (.ok a, m') → P a

namespace Gives

variable {α β : Type} {x : Loading α} {P Q : α → Prop} {R : β → Prop}

protected theorem pure {a : α} (h : P a) : Gives (pure a) P := by
  rintro m _ _ ⟨⟩
  exact h

protected theorem throw {e : Error} : Gives (throw e) P := by
  rintro m _ _ ⟨⟩

theorem mono (h : Gives x P) (le : ∀ a, P a → Q a) : Gives x Q :=
  fun m a m' run => le a (h m a m' run)

protected theorem bind {f : α → Loading β} (h : Gives x P) (next : ∀ a, P a → Gives (f a) R) :
    Gives (x >>= f) R := by
  intro m b m'' run
  obtain ⟨a, m', here, there⟩ := exists_run_of_bind run
  exact next a (h m a m' here) m' b m'' there

protected theorem and (h : Gives x P) (h' : Gives x Q) : Gives x fun a => P a ∧ Q a :=
  fun m a m' run => ⟨h m a m' run, h' m a m' run⟩

/-- Nothing is known of what comes first. -/
theorem after {f : α → Loading β} (next : ∀ a, Gives (f a) R) : Gives (x >>= f) R :=
  .bind (P := fun _ => True) (fun _ _ _ _ => trivial) fun a _ => next a

theorem ofExcept {e : Except Error α} (h : ∀ a, e = .ok a → P a) : Gives (liftM e) P := by
  intro m a m' run
  cases e with
  | error => cases run
  | ok =>
    cases run
    exact h _ rfl

end Gives

/-! ### Items spent -/

/-- The items of `s` in front of `r` are of these kinds. -/
def Spends (s r : List Item) (kinds : List TokenKind) : Prop :=
  ∃ front, s = front ++ r ∧ front.map Item.kind = kinds

namespace Spends

variable {s r q : List Item} {kinds kinds' : List TokenKind}

theorem nothing (s : List Item) : Spends s s [] := ⟨[], rfl, rfl⟩

theorem one (t : Item) (s : List Item) : Spends (t :: s) s [t.kind] := ⟨[t], rfl, rfl⟩

theorem trans (h : Spends s r kinds) (h' : Spends r q kinds') : Spends s q (kinds ++ kinds') := by
  obtain ⟨front, rfl, rfl⟩ := h
  obtain ⟨front', rfl, rfl⟩ := h'
  exact ⟨front ++ front', (List.append_assoc ..).symm, List.map_append⟩

theorem cons {t : Item} (h : Spends s r kinds) : Spends (t :: s) r (t.kind :: kinds) :=
  (one t s).trans h

theorem lineEnds (s : List Item) : ∃ n, Spends s (s.dropWhile Item.isNewline) (newlines n) := by
  refine ⟨(s.takeWhile Item.isNewline).length, s.takeWhile Item.isNewline,
    List.takeWhile_append_dropWhile.symm, ?_⟩
  refine List.eq_replicate_iff.2 ⟨List.length_map .., List.forall_mem_map.2 fun t ht => ?_⟩
  have newline := List.all_eq_true.1 List.all_takeWhile t ht
  rw [Item.isNewline] at newline
  cases kind : t.kind <;> rw [kind] at newline <;> first | rfl | cases newline

theorem further {m n : Nat} (h : Spends s r (newlines m)) (h' : Spends r q (newlines n)) :
    Spends s q (newlines (m + n)) := by
  rw [newlines, List.replicate_add]
  exact h.trans h'

theorem map_eq (h : Spends s [] kinds) : s.map Item.kind = kinds := by
  obtain ⟨front, rfl, rfl⟩ := h
  rw [List.append_nil]

end Spends

/-- What is read is of such kinds. -/
def Recognized {α : Type} {s : List Item} (x : Read α s) (P : α → List TokenKind → Prop) : Prop :=
  Gives x fun a => ∃ kinds, Spends s a.2.val kinds ∧ P a.1 kinds

variable {c : Context}

/-- Line ends are spent, and what is behind them is looked at. -/
theorem Gives.skip {β : Type} {s : List Item} {f : Left s → Loading β} {R : β → Prop}
    (next : ∀ r le n, Spends s r (newlines n) → Gives (f ⟨r, le⟩) R) :
    Gives (skipNewlines c s >>= f) R := by
  obtain ⟨n, spends⟩ := Spends.lineEnds s
  obtain ⟨le, skip⟩ := skipNewlines_eq_check c (rfl : s.dropWhile Item.isNewline = _)
  rw [skip, bind_assoc]
  refine .after fun _ => ?_
  rw [pure_bind]
  exact next _ le n spends

/-- What was spent to separate something. -/
def Separated (s : List Item) : Separation s → Prop
  | .found r => ∃ kinds, SpellsSeparator kinds ∧ Spends s r.val kinds
  | .missing r => r.val = s

theorem gives_readSeparator (conf : c.syn = .conf) (s : List Item) :
    Gives (readSeparator c s) (Separated s) := by
  unfold readSeparator
  refine .skip fun r le n spends => ?_
  have other : Separated s
      (if h : c.syn ≠ .json ∧ r.length < s.length then .found ⟨r, h.2⟩ else .missing ⟨r, le⟩) := by
    split
    · next lt =>
      cases n with
      | zero =>
        obtain ⟨front, rfl, none⟩ := spends
        cases List.map_eq_nil_iff.1 none
        exact absurd lt.2 (Nat.lt_irrefl _)
      | succ n => exact ⟨_, .newline n, spends⟩
    · next none =>
      obtain ⟨front, rfl, kinds⟩ := spends
      have same : ¬ r.length < (front ++ r).length := fun lt => none ⟨by rw [conf]; decide, lt⟩
      rw [List.length_append] at same
      cases front with
      | nil => rfl
      | cons => exact absurd (Nat.lt_add_of_pos_left (Nat.succ_pos _)) same
  cases r with
  | nil => exact .pure other
  | cons t rest =>
    simp only []
    split
    · next comma =>
      refine .pure ⟨_, .comma n 0, ?_⟩
      have whole := spends.trans (.one t rest)
      rwa [comma] at whole
    · exact .pure other

theorem separated_of_eq (conf : c.syn = .conf) {s : List Item} {separation : Separation s}
    (h : readSeparator c s = pure separation) : Separated s separation :=
  gives_readSeparator conf s [] separation [] (by rw [h]; rfl)

/-! ### Keys and include statements -/

/-- What is taken for a path is spelled. -/
theorem gives_pathOf (o : Origin) (kinds : List TokenKind) :
    Gives (liftM (pathOf o kinds)) fun path => Path.ofTokens? kinds = .ok path := by
  refine .ofExcept fun path h => ?_
  unfold pathOf at h
  split at h
  · next spelled =>
    cases h
    exact spelled
  · cases h

theorem recognized_readKey (conf : c.syn = .conf) (t : Item) (s : List Item) :
    Recognized (readKey c t s) fun key kinds => Path.ofTokens? (t.kind :: kinds) = .ok key := by
  unfold readKey
  rw [if_neg (by rw [conf]; decide)]
  split
  · refine .after fun _ => Gives.bind (gives_pathOf _ _) fun key spelled => ?_
    exact .pure ⟨_, ⟨_, List.takeWhile_append_dropWhile.symm, rfl⟩, spelled⟩
  · exact .throw

theorem recognized_readIncludeName (words : String) (s : List Item) :
    Recognized (readIncludeName c words s) fun n kinds =>
      WritesName words n.words n.name kinds := by
  obtain ⟨k, hk⟩ : ∃ k, s.length = k := ⟨_, rfl⟩
  induction k using Nat.strongRecOn generalizing words s with
  | ind k ih =>
    rw [readIncludeName]
    refine .skip fun r le n spends => ?_
    cases r with
    | nil => exact .throw
    | cons t rest =>
      have lt : rest.length < k := hk ▸ le
      simp only []
      split
      · next name kind =>
        have whole := spends.trans (.one t rest)
        rw [kind] at whole
        exact .pure ⟨_, whole, .name n words name⟩
      · next text kind =>
        refine Gives.bind (ih rest.length lt _ rest rfl) ?_
        rintro ⟨found, q, hq⟩ ⟨kinds, spends', writes⟩
        have blank : t.isBlank = (TokenKind.bare text).isBlank := by rw [Item.isBlank, kind]
        rw [blank] at writes
        have whole := spends.trans spends'.cons
        rw [kind] at whole
        exact .pure ⟨_, whole, .word n text writes⟩
      · exact .throw

theorem recognized_readClosing (unclosed : Nat) (s : List Item) :
    Gives (readClosing c unclosed s) fun r =>
      ∃ kinds, Spends s r.val kinds ∧ WritesClosing unclosed kinds := by
  obtain ⟨k, hk⟩ : ∃ k, s.length = k := ⟨_, rfl⟩
  induction k using Nat.strongRecOn generalizing unclosed s with
  | ind k ih =>
    rw [readClosing]
    split
    · next none =>
      subst none
      exact .pure ⟨[], .nothing s, .none⟩
    · next opened =>
      obtain ⟨unclosed, rfl⟩ := Nat.exists_eq_succ_of_ne_zero opened
      refine .skip fun r le n spends => ?_
      cases r with
      | nil => exact .throw
      | cons t rest =>
        have lt : rest.length < k := hk ▸ le
        simp only []
        split
        · next blank =>
          refine Gives.bind (ih rest.length lt _ rest rfl) ?_
          rintro ⟨q, hq⟩ ⟨kinds, spends', writes⟩
          obtain ⟨text, kind⟩ : ∃ text, t.kind = .bare text := by
            rw [Item.isBlank] at blank
            cases kind : t.kind <;> rw [kind] at blank <;> first | exact ⟨_, rfl⟩ | cases blank
          have whole := spends.trans spends'.cons
          rw [Item.isBlank, kind] at blank
          rw [kind] at whole
          exact .pure ⟨_, whole, .blank n blank writes⟩
        · next notBlank =>
          split
          · next text kind =>
            split
            · next closes =>
              refine Gives.bind (ih rest.length lt _ rest rfl) ?_
              rintro ⟨q, hq⟩ ⟨kinds, spends', writes⟩
              have whole := spends.trans spends'.cons
              rw [kind] at whole
              rw [Item.isBlank, kind, Bool.not_eq_true] at notBlank
              exact .pure ⟨_, whole, .close n notBlank closes.1 closes.2.1 closes.2.2 writes⟩
            · exact .throw
          · exact .throw

theorem writesSign_of_isKeySeparator {u : Item} (h : isKeySeparator c u = true) :
    ∃ grows, WritesSign grows u.kind := by
  unfold isKeySeparator at h
  split at h
  · next kind => exact ⟨_, kind.symm ▸ WritesSign.colon⟩
  · next kind => exact ⟨_, kind.symm ▸ WritesSign.equals⟩
  · next kind => exact ⟨_, kind.symm ▸ WritesSign.plusEquals⟩
  · cases h

/-- What the words ask for does not depend on where they stand. -/
theorem asksFor_of_includeWords {n : IncludeName} {required isFileName : Bool} {unclosed : Nat}
    (h : includeWords c n = .ok (required, isFileName, unclosed)) :
    AsksFor n.words required isFileName unclosed := by
  intro c' n' same
  unfold includeWords at h ⊢
  rw [same]
  simp only [] at h ⊢
  generalize (if "required(".toList.isPrefixOf n.words.toList = true then
    String.ofList (n.words.toList.drop "required(".length) else n.words) = word at h ⊢
  generalize (if "required(".toList.isPrefixOf n.words.toList = true then 1 else 0) = depth at h ⊢
  split at h
  · next plain =>
    rw [if_pos plain]
    exact h
  · next word =>
    rw [if_neg word]
    split at h
    · next file =>
      rw [if_pos file]
      exact h
    · split at h <;> cases h

theorem recognized_readInclude (fields : Entries Value) {keyword : Item} (s : List Item)
    (word : keyword.kind.isInclude = true) :
    Recognized (readInclude c fields keyword s) fun _ kinds =>
      ∃ request, WritesInclusion request (keyword.kind :: kinds) := by
  unfold readInclude
  refine Gives.bind (recognized_readIncludeName "" s) ?_
  rintro ⟨n, r, hr⟩ ⟨kinds, spends, name⟩
  refine Gives.bind (.ofExcept fun _ => asksFor_of_includeWords) ?_
  rintro ⟨required, isFileName, depth⟩ asks
  refine Gives.bind (recognized_readClosing depth r) ?_
  rintro ⟨q, hq⟩ ⟨kinds', spends', closing⟩
  have writes : WritesInclusion { name := n.name, isFileName, required }
      (keyword.kind :: (kinds ++ kinds')) := .mk word name asks closing
  have recognized : ∃ ks, Spends s q ks ∧ ∃ request, WritesInclusion request (keyword.kind :: ks) :=
    ⟨_, spends.trans spends', _, writes⟩
  refine .after fun answer => ?_
  cases answer with
  | error e =>
    simp only []
    split <;> exact .throw
  | ok v =>
    simp only []
    generalize Value.fields? _ = more
    cases more with
    | some more => exact .pure recognized
    | none => exact .throw

/-! ### The grammar -/

/-- What is read as a value is written as a term. -/
def RecognizesValue (c : Context) (t : Item) (comments : List String) (s : List Item) : Prop :=
  c.InConf → Recognized (readValue c t comments s) fun v kinds =>
    v.isPiece = true ∧ ∃ term, Term.Written term (t.kind :: kinds)

def RecognizesPieces (c : Context) (first : Bool) (s : List Item) : Prop :=
  c.InConf → Recognized (readPieces c first s) fun vs kinds =>
    (∀ v ∈ vs, v.isPiece = true) ∧ ((vs = [] ∧ kinds = []) ∨ (vs ≠ [] ∧ ∃ row, Row.Written row kinds))

def RecognizesJoined (c : Context) (comments : List String) (s : List Item) : Prop :=
  c.InConf → Recognized (readJoined c comments s) WritesJoined

def RecognizesFieldValue (c : Context) (comments : List String) (s : List Item) : Prop :=
  c.InConf → Recognized (readFieldValue c comments s) fun _ kinds => WritesRow kinds

def RecognizesList (c : Context) (s : List Item) : Prop :=
  c.InConf → Recognized (readList c s) fun _ kinds => WritesList kinds

def RecognizesItems (c : Context) (s : List Item) : Prop :=
  c.InConf → Recognized (readItems c s) fun _ kinds => WritesItems kinds

def RecognizesField (c : Context) (f : Fields) (t : Item) (s : List Item) : Prop :=
  c.InConf → t.kind.isInclude = false →
    Recognized (readField c f t s) fun _ kinds => ∃ add, WritesMember add (t.kind :: kinds)

def RecognizesFields (c : Context) (braced : Bool) (f : Fields) (s : List Item) : Prop :=
  c.InConf → Gives (readFields c braced f s) fun a => ∃ u n body kinds,
    Spends s u (newlines n ++ kinds) ∧ Body.Written body kinds ∧ Closes braced u a.2.val

variable {s : List Item}

theorem recognizes_readPieces_cons {t : Item} {rest : List Item} {first : Bool}
    (value : t.continuesValue = true →
      RecognizesValue c { t with comments := if first then [] else t.comments } [] rest)
    (pieces : t.continuesValue = true → ∀ r : List Item, r.length ≤ rest.length →
      RecognizesPieces c false r) : RecognizesPieces c first (t :: rest) := by
  intro conf
  rw [readPieces]
  split
  · next continues =>
    refine Gives.bind (value continues conf) ?_
    rintro ⟨v, r, hr⟩ ⟨kinds, spends, piece, term, written⟩
    refine .after fun _ => Gives.bind (pieces continues r hr conf) ?_
    rintro ⟨vs, q, hq⟩ ⟨kinds', spends', others, more⟩
    have row : ∃ row, Row.Written row (t.kind :: (kinds ++ kinds')) := by
      obtain ⟨-, rfl⟩ | ⟨-, row, written'⟩ := more
      · rw [List.append_nil]
        exact ⟨_, .ofTerm written⟩
      · cases written' with
        | mk head tail => exact ⟨_, .mk written (.cons head tail)⟩
    exact .pure ⟨_, (spends.trans spends').cons, List.forall_mem_cons.2 ⟨piece, others⟩,
      .inr ⟨List.cons_ne_nil _ _, row⟩⟩
  · exact .pure ⟨[], .nothing _, List.forall_mem_nil _, .inl ⟨rfl, rfl⟩⟩

theorem recognizes_readJoined {comments : List String}
    (pieces : ∀ r : List Item, r.length ≤ s.length → RecognizesPieces c true r) :
    RecognizesJoined c comments s := by
  intro conf
  rw [readJoined]
  refine .skip fun r le n spends => ?_
  simp only [if_neg (show c.syn ≠ .json by rw [conf.syn]; decide)]
  refine Gives.bind (pieces r le conf) ?_
  rintro ⟨vs, q, hq⟩ ⟨kinds, spends', others, written⟩
  refine Gives.bind (.ofExcept fun _ => id) fun o joined => ?_
  have whole := spends.trans spends'
  obtain ⟨rfl, rfl⟩ | ⟨present, row, written⟩ := written
  · cases joined
    rw [List.append_nil] at whole
    exact .pure ⟨_, whole, .none n⟩
  · cases o with
    | none => exact absurd joined (concatenate_ne_none others present)
    | some v => exact .pure ⟨_, whole, .some _ n written⟩

/-- A value that is joined with no other is one all the same. -/
theorem recognizes_readFieldValue {comments : List String} (joined : RecognizesJoined c comments s)
    (value : ∀ (t : Item) (rest : List Item), rest.length < s.length →
      RecognizesValue c t comments rest) : RecognizesFieldValue c comments s := by
  intro conf
  rw [readFieldValue]
  refine Gives.bind (joined conf) ?_
  rintro ⟨o, r, hr⟩ ⟨kinds, spends, writes⟩
  cases writes with
  | some v n written => exact .pure ⟨_, spends, n, _, _, written, rfl⟩
  | none n =>
    refine .skip fun q le n' skipped => ?_
    cases q with
    | nil => exact .throw
    | cons t rest =>
      refine Gives.bind (value t rest (Nat.lt_of_lt_of_le le hr) conf) ?_
      rintro ⟨v, p, hp⟩ ⟨kinds, spends', -, term, written⟩
      exact .pure ⟨_, (spends.further skipped).trans spends'.cons, _, _, _, .ofTerm written, rfl⟩

theorem recognizes_readList (joined : RecognizesJoined c [] s)
    (items : ∀ r : List Item, r.length ≤ s.length → RecognizesItems c r)
    (value : ∀ (t : Item) (rest : List Item), rest.length < s.length →
      RecognizesValue c t [] rest) : RecognizesList c s := by
  intro conf
  rw [readList]
  refine Gives.bind (joined conf) ?_
  rintro ⟨o, r, hr⟩ ⟨kinds, spends, writes⟩
  cases writes with
  | some v n written =>
    refine Gives.bind (items r hr conf) ?_
    rintro ⟨vs, q, hq⟩ ⟨kinds', spends', more⟩
    exact .pure ⟨_, spends.trans spends', .cons written more⟩
  | none n =>
    refine .skip fun q le n' skipped => ?_
    have front := spends.further skipped
    cases q with
    | nil => exact .throw
    | cons t rest =>
      simp only []
      split
      · next closes =>
        have whole := front.trans (.one t rest)
        rw [closes] at whole
        exact .pure ⟨_, whole, n + n', .nil, [], .nil, rfl⟩
      · split
        · refine Gives.bind (value t rest (Nat.lt_of_lt_of_le le hr) conf) ?_
          rintro ⟨v, p, hp⟩ ⟨kinds, spends', -, term, written⟩
          have shorter : p.length ≤ s.length :=
            Nat.le_trans hp (Nat.le_of_lt (Nat.lt_of_lt_of_le le hr))
          refine Gives.bind (items p shorter conf) ?_
          rintro ⟨vs, q, hq⟩ ⟨kinds', spends'', more⟩
          exact .pure ⟨_, (front.trans spends'.cons).trans spends'', .cons (.ofTerm written) more⟩
        · exact .throw

theorem recognizes_readItems (joined : ∀ r : List Item, r.length < s.length → RecognizesJoined c [] r)
    (items : ∀ r : List Item, r.length < s.length → RecognizesItems c r)
    (value : ∀ (t : Item) (rest : List Item), (t :: rest).length < s.length →
      RecognizesValue c t [] rest) : RecognizesItems c s := by
  intro conf
  rw [readItems]
  refine Gives.bind (gives_readSeparator conf.syn s) fun separation separated => ?_
  obtain ⟨r, hr⟩ | ⟨r, hr⟩ := separation
  · obtain ⟨separator, separates, spent⟩ := separated
    simp only []
    refine Gives.bind (joined r hr conf) ?_
    rintro ⟨o, q, hq⟩ ⟨kinds, spends, writes⟩
    have lt : q.length < s.length := Nat.lt_of_le_of_lt hq hr
    cases writes with
    | some v n written =>
      refine Gives.bind (items q lt conf) ?_
      rintro ⟨vs, p, hp⟩ ⟨kinds', spends', more⟩
      exact .pure ⟨_, spent.trans (spends.trans spends'), .cons separates written more⟩
    | none n =>
      refine .skip fun p le n' skipped => ?_
      have front := spends.further skipped
      cases p with
      | nil => exact .throw
      | cons t rest =>
        have lt' : (t :: rest).length < s.length := Nat.lt_of_le_of_lt le lt
        simp only []
        split
        · refine Gives.bind (value t rest lt' conf) ?_
          rintro ⟨v, p, hp⟩ ⟨kinds, spends', -, term, written⟩
          have shorter : p.length < s.length := by
            rw [List.length_cons] at lt'
            omega
          refine Gives.bind (items p shorter conf) ?_
          rintro ⟨vs, q, hq⟩ ⟨kinds', spends'', more⟩
          exact .pure ⟨_, spent.trans ((front.trans spends'.cons).trans spends''),
            .cons separates (.ofTerm written) more⟩
        · split
          · next closes _ =>
            have whole := (spent.trans front).trans (.one t rest)
            rw [closes] at whole
            exact .pure ⟨_, whole, _, .nil, [], .separator _ (separates.more (n + n')), .nil, rfl⟩
          · exact .throw
  · obtain rfl : r = s := separated
    cases r with
    | nil => exact .throw
    | cons t rest =>
      simp only []
      split
      · next closes =>
        have whole := Spends.one t rest
        rw [closes] at whole
        exact .pure ⟨_, whole, [], .nil, [], .nothing, .nil, rfl⟩
      · exact .throw

theorem recognizes_readField {f : Fields} {t : Item}
    (value : ∀ (key : Path) (u : Item) (rest : List Item), rest.length < s.length →
      RecognizesValue (c.enter key) u t.comments rest)
    (fieldValue : ∀ (key : Path) (u : Item) (rest : List Item), rest.length < s.length →
      RecognizesFieldValue { c.enter key with afterEquals := c.afterEquals || u.kind.isEquals }
        (t.comments ++ u.comments) rest) : RecognizesField c f t s := by
  intro conf noInclude
  rw [readField]
  refine Gives.bind (recognized_readKey conf.syn t s) ?_
  rintro ⟨key, r, hr⟩ ⟨keys, spends, spelled⟩
  have hkey : WritesKey key (t.kind :: keys) := ⟨spelled, by rintro _ ⟨⟩; exact noInclude⟩
  refine .skip fun q le n skipped => ?_
  cases q with
  | nil => exact .throw
  | cons u rest =>
    have lt : rest.length < s.length := Nat.lt_of_lt_of_le le hr
    have inner : (c.enter key).InConf := ⟨conf.syn, conf.stop⟩
    simp only [conf.syn]
    split
    · next brace _ =>
      refine Gives.bind (value key u rest lt inner) ?_
      rintro ⟨v, p, hp⟩ ⟨kinds, spends', -, term, written⟩
      rw [brace] at written
      obtain ⟨body, rfl⟩ := written.exists_object
      have member : WritesMember _ (t.kind :: keys ++ (newlines n ++ (.openBrace :: kinds))) :=
        .field hkey (.object n body) (.ofTerm written)
      have whole := spends.trans (skipped.trans spends'.cons)
      rw [brace] at whole
      exact .after fun g => .pure ⟨_, whole, _, member⟩
    · split
      · next separator =>
        obtain ⟨grows, sign⟩ := writesSign_of_isKeySeparator separator
        refine Gives.bind (fieldValue key u rest lt ⟨inner.syn, inner.stop⟩) ?_
        rintro ⟨v, p, hp⟩ ⟨_, spends', k, row, kinds, written, rfl⟩
        have member : WritesMember _
            (t.kind :: keys ++ ((newlines n ++ u.kind :: newlines k) ++ kinds)) :=
          .field hkey (.sign n k row sign) written
        have whole := spends.trans (skipped.trans spends'.cons)
        rw [List.append_assoc] at member
        split <;> exact .after fun v => .after fun g => .pure ⟨_, whole, _, member⟩
      · exact .throw

/-- A field or an include statement. -/
theorem recognized_readMember (conf : c.InConf) {f : Fields} {t : Item}
    (field : RecognizesField c f t s) :
    Recognized (readMember c f t s) fun _ kinds => ∃ add, WritesMember add (t.kind :: kinds) := by
  unfold readMember
  split
  · next word =>
    refine Gives.bind (recognized_readInclude f.entries s (Bool.and_eq_true_iff.1 word).1) ?_
    rintro ⟨entries, q⟩ ⟨kinds, spends, request, writes⟩
    exact .pure ⟨kinds, spends, _, .inclusion writes⟩
  · next word =>
    have conf' : (c.syn != .json) = true := by
      rw [conf.syn]
      rfl
    rw [conf', Bool.and_true, Bool.not_eq_true] at word
    exact field conf word

theorem recognizes_readFields {braced : Bool} {f : Fields}
    (fields : ∀ (g : Fields) (t : Item) (rest q p : List Item), (t :: rest).length ≤ s.length →
      q.length ≤ rest.length → p.length < q.length →
      RecognizesFields c braced { g with afterSeparator := true } p)
    (field : ∀ (t : Item) (rest : List Item), rest.length < s.length → RecognizesField c f t rest) :
    RecognizesFields c braced f s := by
  rintro conf m ⟨es, r, hr⟩ m' run
  have read := fieldsRead_of_run conf.syn run
  have front {t : Item} {rest : List Item} (front : s.dropWhile Item.isNewline = t :: rest) :
      (∃ n, Spends s (t :: rest) (newlines n)) ∧ (t :: rest).length ≤ s.length :=
    ⟨front ▸ Spends.lineEnds s, front ▸ (List.dropWhile_suffix _).length_le⟩
  have member {t : Item} {rest q : List Item} {g : Fields} {m m' : List IncludeRecord}
      (lt : rest.length < s.length) (member : MemberRead c f t rest m g q m') :
      q.length ≤ rest.length ∧
        ∃ kinds, Spends rest q kinds ∧ ∃ add, WritesMember add (t.kind :: kinds) := by
    obtain ⟨le, run⟩ := member.run
    exact ⟨le, recognized_readMember conf (field t rest lt) _ _ _ run⟩
  cases read with
  | none skipped closes =>
    obtain ⟨n, spends⟩ := Spends.lineEnds s
    rw [skipped] at spends
    exact ⟨_, n, .nil, [], by rwa [List.append_nil], .nil, closes⟩
  | @last _ g _ rest q u _ t _ _ skipped read missing closes =>
    obtain ⟨⟨n, spends⟩, lt⟩ := front skipped
    obtain ⟨-, kinds, spends', add, writes⟩ := member lt read
    obtain ⟨_, missing⟩ := missing
    obtain rfl : u = q := separated_of_eq conf.syn missing
    have written : Body.Written (add .nil) (t.kind :: kinds ++ ([] ++ [])) := writes.written .nothing .nil
    rw [List.append_nil, List.append_nil] at written
    exact ⟨_, n, _, _, spends.trans spends'.cons, written, closes⟩
  | @more _ g _ rest q p _ t _ m₁ _ _ skipped read found more =>
    obtain ⟨⟨n, spends⟩, lt⟩ := front skipped
    obtain ⟨le, kinds, spends', add, writes⟩ := member lt read
    obtain ⟨lt', found⟩ := found
    obtain ⟨separator, separates, spent⟩ := separated_of_eq conf.syn found
    obtain ⟨_, run⟩ := more.run conf
    obtain ⟨u, k, body, ks, spends'', written, closes⟩ :=
      fields g t rest q p lt le lt' conf _ _ _ run
    refine ⟨u, n, add body, _, ?_, writes.written (.separator _ (separates.more k)) written, closes⟩
    rw [List.append_assoc separator]
    exact spends.trans (spends'.cons.trans (spent.trans spends''))

theorem recognizes_readValue {t : Item} {comments : List String}
    (fields : t.kind = .openBrace → RecognizesFields c true {} s)
    (list : t.kind = .openBracket → RecognizesList c s) : RecognizesValue c t comments s := by
  intro conf
  rw [readValue]
  simp only []
  split
  · next literal kind =>
    rw [kind]
    refine .pure ⟨[], .nothing s, ?_, _, .literal literal⟩
    rw [isPiece_withComments]
    cases literal <;> rfl
  · next text kind =>
    rw [kind]
    exact .pure ⟨[], .nothing s, isPiece_withComments _ _, _, .bare text⟩
  · next optional expression kind =>
    rw [kind]
    refine Gives.bind (gives_pathOf _ _) fun path spelled => ?_
    exact .pure ⟨[], .nothing s, isPiece_withComments _ _, _, .reference optional spelled⟩
  · next kind =>
    refine Gives.bind (fields kind conf) ?_
    rintro ⟨es, r, hr⟩ ⟨_, n, body, kinds, spends, written, closes⟩
    cases closes with
    | @brace u closes r =>
      have whole := spends.trans (.one u r)
      rw [closes, List.append_assoc] at whole
      rw [kind]
      exact .pure ⟨_, whole, isPiece_withComments _ _, _, .object n written⟩
  · next kind =>
    refine Gives.bind (list kind conf) ?_
    rintro ⟨xs, r⟩ ⟨_, spends, n, rows, kinds, written, rfl⟩
    rw [kind]
    exact .pure ⟨_, spends, isPiece_withComments _ _, _, .list n written⟩
  · exact .throw

/-- **What is read is written**, whichever function of the grammar reads it. -/
theorem recognized :
    (∀ c t comments s, RecognizesValue c t comments s) ∧
    (∀ c s, RecognizesList c s) ∧
    (∀ c s, RecognizesItems c s) ∧
    (∀ c comments s, RecognizesJoined c comments s) ∧
    (∀ c first s, RecognizesPieces c first s) ∧
    (∀ c braced f s, RecognizesFields c braced f s) ∧
    (∀ c f t s, RecognizesField c f t s) ∧
    (∀ c comments s, RecognizesFieldValue c comments s) := by
  refine readValue.mutual_induct _ _ _ _ _ _ _ _ ?literal ?bare ?substitution ?brace ?bracket ?other
    ?list ?items ?joined ?noPieces ?pieces ?lastPiece ?fields ?field ?fieldValue
  case literal =>
    intro c t comments s literal kind
    exact recognizes_readValue (by rw [kind]; rintro ⟨⟩) (by rw [kind]; rintro ⟨⟩)
  case bare =>
    intro c t comments s text kind
    exact recognizes_readValue (by rw [kind]; rintro ⟨⟩) (by rw [kind]; rintro ⟨⟩)
  case substitution =>
    intro c t comments s optional expression kind
    exact recognizes_readValue (by rw [kind]; rintro ⟨⟩) (by rw [kind]; rintro ⟨⟩)
  case brace =>
    intro c t comments s kind fields
    exact recognizes_readValue (fun _ => fields) (by rw [kind]; rintro ⟨⟩)
  case bracket =>
    intro c t comments s kind list
    exact recognizes_readValue (by rw [kind]; rintro ⟨⟩) (fun _ => list)
  case other =>
    intro c t comments s _ _ _ brace bracket
    exact recognizes_readValue (fun kind => absurd kind brace) (fun kind => absurd kind bracket)
  case list =>
    intro c s joined items value _
    exact recognizes_readList joined items fun t rest lt => value s (Nat.le_refl _) [] t rest lt
  case items =>
    intro c s joined items value _
    exact recognizes_readItems joined (fun r lt => items _ lt _ (Nat.le_refl _)) fun t rest lt =>
      value (t :: rest) lt (t :: rest) (Nat.le_refl _) [] t rest (Nat.le_refl _)
  case joined => exact fun c comments s pieces => recognizes_readJoined pieces
  case noPieces =>
    intro c first conf
    rw [readPieces]
    exact .pure ⟨[], .nothing [], List.forall_mem_nil _, .inl ⟨rfl, rfl⟩⟩
  case pieces =>
    intro c first t rest _ u value pieces
    exact recognizes_readPieces_cons (fun _ => value) fun _ => pieces
  case lastPiece =>
    intro c first t rest last
    exact recognizes_readPieces_cons (fun continues => absurd continues last)
      fun continues => absurd continues last
  case fields =>
    intro c braced f s fields field
    exact recognizes_readFields
      (fun g t rest q p hr hq hp => fields [] t rest hr g q hq p hp) fun t rest lt => field [] t rest lt
  case field =>
    intro c f t s value fieldValue
    exact recognizes_readField (fun key u rest lt => value key s (Nat.le_refl _) [] u rest lt)
      fun key u rest lt => fieldValue key s (Nat.le_refl _) [] u rest lt u.kind
  case fieldValue =>
    intro c comments s joined value
    exact recognizes_readFieldValue joined fun t rest lt => value s (Nat.le_refl _) [] t rest lt

/-! ### Documents -/

/-- **Each document that is read is written as a phrase.** -/
theorem exists_written (conf : c.InConf) (s : List Item) :
    Gives (readRoot c s) fun _ => ∃ script : Script, script.Written (s.map Item.kind) := by
  rintro m v m' run
  by_cases braceless : ∀ t ∈ (s.dropWhile Item.isNewline).head?, t.kind.opensContainer = false
  · obtain ⟨o, es, k, -, read⟩ := fieldsRead_of_readRoot conf.syn braceless run
    obtain ⟨le, fields⟩ := read.run conf
    obtain ⟨u, n, body, kinds, spends, written, closes⟩ :=
      recognized.2.2.2.2.2.1 c false {} s conf _ _ _ fields
    cases closes
    exact ⟨.body body, spends.map_eq ▸ .body n written⟩
  · simp only [not_forall, Bool.not_eq_false] at braceless
    obtain ⟨t, front, opens⟩ := braceless
    unfold readRoot at run
    obtain ⟨⟨r, le⟩, m₁, skips, run⟩ := exists_run_of_bind run
    obtain ⟨-, -, behind, -⟩ := skipNewlines_of_run skips
    obtain ⟨n, spends⟩ := Spends.lineEnds s
    rw [behind] at front spends
    cases r with
    | nil => cases front
    | cons u rest =>
      cases front
      simp only [opens, if_true] at run
      obtain ⟨⟨w, q, hq⟩, m₂, value, run⟩ := exists_run_of_bind run
      obtain ⟨kinds, spends', -, term, written⟩ := recognized.1 c t [] rest conf _ _ _ value
      simp only [pure_bind] at run
      obtain ⟨⟨p, hp⟩, m₃, skips, run⟩ := exists_run_of_bind run
      obtain ⟨-, -, left, -⟩ := skipNewlines_of_run skips
      cases p with
      | cons => cases run
      | nil =>
        obtain ⟨k, spends''⟩ := Spends.lineEnds q
        rw [left] at spends''
        have whole := (spends.trans (spends'.cons.trans spends'')).map_eq
        exact whole ▸ written.exists_script opens n k

/-- A text that is parsed is written as a phrase. -/
theorem exists_written_of_parseText {files : FileTree} {o : ParseOptions}
    (conf : o.syn.getD .conf = .conf) {text : String} {v : Value} {m m' : List IncludeRecord}
    (parsed : (parseText files o text).run.run m = (.ok v, m')) :
    ∃ script : Script, script.Written ((itemsOf text).map Item.kind) := by
  obtain ⟨origin, answer, eq⟩ := exists_parseText_eq files conf
  rw [eq] at parsed
  obtain ⟨w, m₁, read, -⟩ := exists_run_of_bind parsed
  exact exists_written ⟨rfl, kind_stopOf _ _⟩ _ m w m₁ read

end Document

end Hocon
