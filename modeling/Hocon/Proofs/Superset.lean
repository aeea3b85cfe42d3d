import Hocon.Proofs.Rendering
import Hocon.Proofs.Reading
import Mathlib.Data.List.DropRight
import Mathlib.Tactic.SplitIfs

/-!
# JSON is HOCON

What is read as JSON is read as HOCON too, and as the same tree.  The two readers part in many
places, but never on a text that is JSON.  Its tokens are none that JSON refuses
(`TokenKind.isStrict`), and without those the two lexers agree, comments or not
(`tokensFrom_strict`).

On common items each function of the grammar is compared with itself (`mirrored`).  HOCON joins
neighbours where JSON reads one value.  That there is only one shows in what JSON goes on with
(`Ends`), which is known only later; so `Mirrors` compares two computations where the first one
can be gone on from.
-/

namespace Hocon

/-! ### Tokens -/

/-- Whether JSON has such a token. -/
def TokenKind.isStrict : TokenKind → Bool
  | bare _ => false
  | substitution _ _ => false
  | problem _ => false
  | _ => true

namespace Scan

/-- No keyword has a slash in it. -/
theorem keyword?_of_slash {text : List Char} (slash : '/' ∈ text) : keyword? text = none := by
  have differs (word : List Char) (h : '/' ∉ word) : text ≠ word := by
    rintro rfl
    exact h slash
  rw [keyword?, if_neg (differs _ (by decide)), if_neg (differs _ (by decide)),
    if_neg (differs _ (by decide))]

/-- A word with a slash in it is bare text. -/
theorem isStrict_scanBare_of_slash {comments : Bool} {taken : List Char} (slash : '/' ∈ taken)
    (cs : List Char) : (scanBare comments taken cs).1.isStrict = false := by
  induction cs generalizing taken with
  | nil => rfl
  | cons c cs ih =>
    have slash : '/' ∈ c :: taken := .tail c slash
    rw [scanBare, keyword?_of_slash (List.mem_reverse.2 slash)]
    split
    · rfl
    · exact ih slash

theorem opensComment_false (cs : List Char) : opensComment false cs = false := by
  unfold opensComment
  split <;> rfl

/-- A keyword ends before any comment. -/
theorem scanBare_strict {taken cs : List Char}
    (strict : (scanBare false taken cs).1.isStrict = true) :
    scanBare true taken cs = scanBare false taken cs := by
  induction cs generalizing taken with
  | nil => rfl
  | cons c cs ih =>
    rw [scanBare, opensComment_false, Bool.or_false] at strict
    rw [scanBare, scanBare, opensComment_false, Bool.or_false]
    by_cases ends : (isReserved c || Text.isBlank c) = true
    · rw [ends, Bool.true_or, if_pos rfl, if_pos rfl]
    rw [if_neg ends] at strict
    -- a slash that opens a comment would have become part of a word that is no keyword
    have closed : opensComment true (c :: cs) = false := by
      unfold opensComment
      split
      · next h =>
        cases h
        exact absurd rfl ends
      · next h =>
        cases h
        rw [keyword?_of_slash (by simp), isStrict_scanBare_of_slash (by simp)] at strict
        cases strict
      · rfl
    rw [closed, Bool.or_false, if_neg ends, if_neg ends]
    split
    · rfl
    · next h =>
      rw [h] at strict
      exact ih strict

/-- A token that JSON has is the same token where comments are allowed. -/
theorem scanFlat_strict {first : Char} {cs : List Char}
    (strict : (scanFlat false first cs).1.isStrict = true) :
    scanFlat true first cs = scanFlat false first cs := by
  by_cases opens : opensComment true (first :: cs) = true
  · -- what opens a comment is refused, or starts a word with a slash in it
    unfold opensComment at opens
    split at opens
    · next h =>
      cases h
      have refused : scanFlat false '#' cs = (.problem (.reserved '#'), cs) := rfl
      rw [refused] at strict
      cases strict
    · next h =>
      cases h
      have word (rest : List Char) :
          scanFlat false '/' ('/' :: rest) = scanBare false ['/'] ('/' :: rest) := rfl
      rw [word, isStrict_scanBare_of_slash (by simp)] at strict
      cases strict
    · cases opens
  · have closed : opensComment true (first :: cs) = false := by simpa using opens
    unfold scanFlat at strict ⊢
    simp only [opensComment_false, closed, Bool.false_eq_true, if_false] at strict ⊢
    cases hp : punctuation? first with
    | some kind => rfl
    | none =>
      -- the other tokens do not depend on comments
      simp only [hp] at strict ⊢
      split_ifs at strict ⊢
      all_goals first | rfl | exact scanBare_strict strict

end Scan

/-- Substitutions and problems apart, the lexer pulls the same tokens with comments and without. -/
theorem pullToken_strict {c : Cursor} (h : c.rest ≠ [])
    (strict : (pullToken false c h).val.1.kind.isStrict = true) :
    pullToken true c h = pullToken false c h := by
  obtain ⟨cs, place, line⟩ := c
  cases cs with
  | nil => exact absurd rfl h
  | cons first cs =>
    rw [pullToken] at strict ⊢
    rw [pullToken]
    split at strict
    · split at strict <;> cases strict
    · next none =>
      have same : Scan.scanFlat true first cs = Scan.scanFlat false first cs :=
        Scan.scanFlat_strict strict
      exact Subtype.ext (congrArg (fun r => Cursor.token _ r.1 r.2) same)

/-- **The lexers of JSON and HOCON agree** on texts of which JSON has all tokens. -/
theorem tokensFrom_strict {c : Cursor} {after : Bool}
    (strict : ∀ t ∈ tokensFrom false c after, t.kind.isStrict = true) :
    tokensFrom true c after = tokensFrom false c after := by
  fun_induction tokensFrom false c after with
  | case1 c after b le h => rw [tokensFrom, dif_pos h]
  | case2 c after b le h t next lt hp shorter ih =>
    obtain ⟨ht, hts⟩ := List.forall_mem_cons.1 (List.forall_mem_append.1 strict).2
    have same : pullToken true b h = ⟨(t, next), lt⟩ := by
      rw [← hp]
      exact pullToken_strict h (by rw [hp]; exact ht)
    rw [tokensFrom, dif_neg h]
    show c.gapToken b after (pullToken true b h).val.1.kind.isSimpleValue
      ++ (pullToken true b h).val.1 :: tokensFrom true (pullToken true b h).val.2
        (pullToken true b h).val.1.kind.isSimpleValue = _
    rw [same, ih hts]

/-- A text of which JSON has all items has the same tokens in HOCON. -/
theorem Token.ofText_strict {text : List Char}
    (strict : ∀ t ∈ Item.ofTokens (Token.ofText .json text), t.kind.isStrict = true) :
    Token.ofText .conf text = Token.ofText .json text := by
  have kinds : ∀ k ∈ itemKinds (Token.ofText .json text), k.isStrict = true := by
    rw [← kinds_ofTokens]
    exact List.forall_mem_map.2 strict
  have tokens : ∀ t ∈ tokensFrom false (.ofText text) false, t.kind.isStrict = true := by
    intro t ht
    -- what is no item is no problem either
    by_cases item : t.kind.isItem = true
    · exact kinds _ (List.mem_filter.2 ⟨List.mem_map.2 ⟨t, .tail _ ht, rfl⟩, item⟩)
    · cases hk : t.kind <;> first | rfl | (rw [hk] at item; exact absurd rfl item)
  exact congrArg (_ :: ·) (tokensFrom_strict tokens)

namespace Document

/-! ### Comparing two computations -/

/-- Where `x` gives a result that can be gone on from, `y` gives one that goes with it. -/
def Mirrors {α β : Type} (ends : α → Prop) (R : α → β → Prop) (x : Loading α) (y : Loading β) :
    Prop :=
  ∀ m a m', x.run.run m = (.ok a, m') → ends a → ∃ b, R a b ∧ y.run.run m = (.ok b, m')

namespace Mirrors

variable {α β γ δ : Type} {ends : α → Prop} {ends' : γ → Prop} {R : α → β → Prop}
  {R' : γ → δ → Prop} {x : Loading α} {y : Loading β} {f : α → Loading γ} {g : β → Loading δ}

protected theorem pure {a : α} {b : β} (h : R a b) : Mirrors ends R (pure a) (pure b) := by
  rintro m _ _ ⟨⟩ _
  exact ⟨b, h, rfl⟩

protected theorem throw {e : Error} : Mirrors ends R (throw e) y := by
  rintro m _ _ ⟨⟩

protected theorem of_fails (h : Fails x) : Mirrors ends R x y :=
  fun m a m' run => absurd run (h m a m')

protected theorem mono {R₁ : α → β → Prop} {ends₁ : α → Prop} (h : Mirrors ends R x y)
    (hends : ∀ a, ends₁ a → ends a) (hR : ∀ a b, ends₁ a → R a b → R₁ a b) :
    Mirrors ends₁ R₁ x y := by
  intro m a m' run allowed
  obtain ⟨b, hb, run'⟩ := h m a m' run (hends a allowed)
  exact ⟨b, hR a b allowed hb, run'⟩

/-- What is not gone on from need not be looked at. -/
theorem bind_of_ends (h : Mirrors ends R x y)
    (next : ∀ a b, ends a → R a b → Mirrors ends' R' (f a) (g b))
    (back : ∀ a m c m', (f a).run.run m = (.ok c, m') → ends' c → ends a) :
    Mirrors ends' R' (x >>= f) (y >>= g) := by
  intro m c m'' run allowed
  simp only [ExceptT.run_bind, StateT.run_bind] at run ⊢
  rcases hx : x.run.run m with ⟨e | a, m'⟩ <;> rw [hx] at run
  · cases run
  · have run : (f a).run.run m' = (.ok c, m'') := run
    have can : ends a := back a m' c m'' run allowed
    obtain ⟨b, hb, same⟩ := h m a m' hx can
    rw [same]
    exact next a b can hb m' c m'' run allowed

theorem bind_of_fails (h : Mirrors ends R x y)
    (next : ∀ a b, ends a → R a b → Mirrors ends' R' (f a) (g b))
    (fails : ∀ a, ¬ ends a → Fails (f a)) : Mirrors ends' R' (x >>= f) (y >>= g) :=
  h.bind_of_ends next fun a m c m' run _ => by_contra fun no => fails a no m c m' run

protected theorem bind (h : Mirrors (fun _ => True) R x y)
    (next : ∀ a b, R a b → Mirrors ends' R' (f a) (g b)) : Mirrors ends' R' (x >>= f) (y >>= g) :=
  h.bind_of_ends (fun a b _ => next a b) fun _ _ _ _ _ _ => trivial

end Mirrors

/-! ### Items -/

/-- `r` is what is left of `s` behind items that JSON has. -/
def Strictly (s r : List Item) : Prop := ∃ read, s = read ++ r ∧ ∀ t ∈ read, t.kind.isStrict = true

theorem Strictly.refl (s : List Item) : Strictly s s := ⟨[], rfl, nofun⟩

theorem Strictly.trans {s r q : List Item} (h : Strictly s r) (h' : Strictly r q) :
    Strictly s q := by
  obtain ⟨read, rfl, strict⟩ := h
  obtain ⟨read', rfl, strict'⟩ := h'
  exact ⟨read ++ read', (List.append_assoc ..).symm, List.forall_mem_append.2 ⟨strict, strict'⟩⟩

theorem Strictly.tail {t : Item} {rest : List Item} (ht : t.kind.isStrict = true) :
    Strictly (t :: rest) rest := ⟨[t], rfl, List.forall_mem_singleton.2 ht⟩

theorem Strictly.dropWhile (s : List Item) : Strictly s (s.dropWhile Item.isNewline) := by
  refine ⟨s.takeWhile Item.isNewline, List.takeWhile_append_dropWhile.symm, fun t ht => ?_⟩
  have newline : t.isNewline = true := List.all_eq_true.1 List.all_takeWhile t ht
  unfold Item.isNewline at newline
  split at newline
  · next kind => rw [kind]; rfl
  · cases newline

/-- The front item is one that JSON has. -/
abbrev StrictFront (s : List Item) : Prop := ∀ t ∈ s.head?, t.kind.isStrict = true

/-- A place in a JSON text. -/
structure Context.Strict (c : Context) : Prop where
  syn : c.syn = .json
  stop : c.stop.kind = .stop

/-- The same place in a text that is read as HOCON. -/
abbrev Context.asConf (c : Context) : Context := { c with syn := .conf }

variable {c : Context}

theorem Context.Strict.asConf (hc : c.Strict) : c.asConf.InConf := ⟨rfl, hc.stop⟩

/-- JSON refuses what it does not have. -/
theorem isStrict_of_refusal? (hc : c.Strict) {t : Item} (h : c.refusal? t = none) :
    t.kind.isStrict = true := by
  unfold Context.refusal? at h
  rw [hc.syn] at h
  split at h
  · cases h
  · cases h
  · cases h
  · next problem bare substitution =>
    cases hk : t.kind with
    | bare text => exact absurd rfl (bare text hk)
    | substitution optional expression => exact absurd rfl (substitution _ _ hk)
    | problem p => exact absurd hk (problem p)
    | _ => rfl

/-- What JSON comes to behind line ends is something that it has. -/
theorem Mirrors.skip {α β : Type} {ends : α → Prop} {R : α → β → Prop} (hc : c.Strict)
    {s : List Item} {f : Left s → Loading α} {y : Loading β}
    (next : ∀ r le, s.dropWhile Item.isNewline = r → StrictFront r → Mirrors ends R (f ⟨r, le⟩) y) :
    Mirrors ends R (skipNewlines c s >>= f) y := by
  unfold skipNewlines
  simp only [bind_assoc, pure_bind]
  cases refused : c.refusal? (c.front (s.dropWhile Item.isNewline)) with
  | some e =>
    rw [checkFront, refused]
    exact .throw
  | none =>
    rw [checkFront, refused]
    refine next _ _ rfl fun t ht => ?_
    have front : c.front (s.dropWhile Item.isNewline) = t := by
      cases hs : s.dropWhile Item.isNewline with
      | nil => rw [hs] at ht; cases ht
      | cons u rest => rw [hs] at ht; cases ht; rfl
    exact isStrict_of_refusal? hc (front ▸ refused)

/-- JSON skips line ends twice where HOCON looks for neighbours in between. -/
theorem Mirrors.skip_skip {α β : Type} {ends : α → Prop} {R : α → β → Prop} (hc : c.Strict)
    {s : List Item} {f : (r : Left s) → Left r.val → Loading α} {y : Loading β}
    (next : ∀ r le le', s.dropWhile Item.isNewline = r → StrictFront r →
      Mirrors ends R (f ⟨r, le⟩ ⟨r, le'⟩) y) :
    Mirrors ends R (skipNewlines c s >>= fun r => skipNewlines c r >>= f r) y := by
  refine .skip hc fun r le drop front => .skip hc fun q le' drop' _ => ?_
  have same : q = r := by
    have again : r.dropWhile Item.isNewline = r := by
      rw [← drop]
      exact List.dropWhile_idempotent _ _
    exact drop'.symm.trans again
  subst same
  exact next q le le' drop front

/-- HOCON skips what JSON skips. -/
theorem skipNewlines_of_strictFront (hc : c.InConf) {s r : List Item}
    (drop : s.dropWhile Item.isNewline = r) (front : StrictFront r) :
    ∃ le, skipNewlines c s = pure ⟨r, le⟩ := by
  subst drop
  have passes : checkFront c (s.dropWhile Item.isNewline) = pure () := by
    refine checkFront_eq hc fun t ht p kind => ?_
    have strict := front t ht
    rw [kind] at strict
    cases strict
  refine ⟨(List.dropWhile_suffix _).length_le, ?_⟩
  unfold skipNewlines
  simp only [passes, pure_bind]

theorem exists_lineEnds {s r : List Item} (drop : s.dropWhile Item.isNewline = r) :
    ∃ nls, s = nls ++ r ∧ LineEnds nls := by
  subst drop
  exact ⟨s.takeWhile Item.isNewline, List.takeWhile_append_dropWhile.symm,
    List.all_eq_true.1 List.all_takeWhile⟩

theorem Strictly.drop {s r : List Item} (drop : s.dropWhile Item.isNewline = r) : Strictly s r := by
  subst drop
  exact .dropWhile s

/-! ### Separators -/

/-- The same separator, or a line end that only HOCON takes for one. -/
def SameSeparation {s : List Item} : Separation s → Separation s → Prop
  | .found r, .found q => q.val = r.val ∧ Strictly s r.val
  | .found _, .missing _ => False
  | .missing r, .found q => q.val = r.val ∧ Strictly s r.val
  | .missing r, .missing q => q.val = r.val ∧ Strictly s r.val

theorem mirrors_readSeparator (hc : c.Strict) (s : List Item) :
    Mirrors (fun _ => True) SameSeparation (readSeparator c s) (readSeparator c.asConf s) := by
  unfold readSeparator
  refine .skip hc fun r le drop front => ?_
  obtain ⟨le', skip⟩ := skipNewlines_of_strictFront hc.asConf drop front
  have other : SameSeparation
      (if h : c.syn ≠ .json ∧ r.length < s.length then .found ⟨r, h.2⟩ else .missing ⟨r, le⟩)
      (if h : DocumentSyntax.conf ≠ .json ∧ r.length < s.length then .found ⟨r, h.2⟩
        else .missing ⟨r, le'⟩) := by
    rw [dif_neg fun h => h.1 hc.syn]
    split <;> exact ⟨rfl, .drop drop⟩
  rw [skip]
  simp only [pure_bind]
  cases r with
  | nil => exact .pure other
  | cons t rest =>
    simp only []
    split
    · exact .pure ⟨rfl, (Strictly.drop drop).trans (.tail (front t rfl))⟩
    · exact .pure other

/-! ### Single values -/

/-- The same was read, up to the same items, and only items that JSON has. -/
def SameRead {α : Type} {s s' : List Item} (a : α × Left s) (b : α × Left s') : Prop :=
  b.1 = a.1 ∧ b.2.val = a.2.val ∧ Strictly s a.2.val

/-- Behind a value come the comments above it. -/
theorem readValue_comments (c : Context) (t : Item) (comments : List String) (s : List Item) :
    readValue c t comments s = readValue c { t with comments := [] } [] s >>= fun r =>
      pure (withComments r.1 (comments ++ t.comments), r.2) := by
  obtain ⟨kind, span, line, above⟩ := t
  rw [readValue, readValue]
  cases kind <;> simp only [bind_assoc, pure_bind, List.nil_append] <;> rfl

/-- JSON reads no value where none opens. -/
theorem fails_readValue {t : Item} (strict : t.kind.isStrict = true)
    (shut : t.opensValue = false) (comments : List String) (s : List Item) :
    Fails (readValue c t comments s) := by
  obtain ⟨kind, span, line, above⟩ := t
  rw [readValue]
  cases kind with
  | value | openBrace | openBracket => cases shut
  | bare | substitution | problem => cases strict
  | _ => exact Fails.throw

/-- **Where one value stands alone**, HOCON reads it as one that is joined with nothing. -/
theorem mirrors_readJoined (hc : c.InConf) {json : Context} {s rest : List Item} {t : Item}
    {comments : List String} (drop : s.dropWhile Item.isNewline = t :: rest)
    (strict : t.kind.isStrict = true) (opens : t.opensValue = true)
    (value : Mirrors (fun _ => True) SameRead (readValue json t comments rest)
      (readValue c t comments rest)) :
    Mirrors (fun a => Complete a.2.val)
      (fun (a : Value × Left rest) (b : Option Value × Left s) =>
        b.1 = some a.1 ∧ b.2.val = a.2.val ∧ Strictly s a.2.val)
      (readValue json t comments rest) (readJoined c comments s) := by
  intro m ⟨v, r, hr⟩ m' run complete
  obtain ⟨⟨v', r', hr'⟩, ⟨same, left, read⟩, run⟩ := value m _ m' run trivial
  cases same
  cases left
  have front : StrictFront (t :: rest) := by
    rintro u ⟨⟩
    exact strict
  obtain ⟨le, skip⟩ := skipNewlines_of_strictFront hc drop front
  -- the value by itself, without the comments above it
  rw [readValue_comments] at run
  simp only [ExceptT.run_bind, StateT.run_bind] at run
  rcases bare : (readValue c { t with comments := [] } [] rest).run.run m
    with ⟨e | ⟨w, q, hq⟩, n⟩ <;> rw [bare] at run
  · cases run
  cases run
  have ends : checkFront c r = pure () := by
    refine checkFront_eq hc fun u hu p kind => ?_
    have ends := complete u hu
    rw [kind] at ends
    cases ends
  have none : ∃ le', readPieces c false r = pure ([], ⟨r, le'⟩) := by
    cases r with
    | nil => exact ⟨Nat.le_refl _, by rw [readPieces]⟩
    | cons u r =>
      have stops := continuesValue_of_endsValue (complete u rfl)
      exact ⟨Nat.le_refl _, by rw [readPieces, if_neg (by rw [stops]; decide)]⟩
  obtain ⟨le', none⟩ := none
  have continues : t.continuesValue = true := by
    obtain ⟨kind, span, line, above⟩ := t
    cases kind <;> first | rfl | cases opens
  have pieces : (readPieces c true (t :: rest)).run.run m
      = (.ok ([w], ⟨r, Nat.le_succ_of_le hr⟩), n) := by
    rw [readPieces, if_pos continues]
    simp only [if_true, ExceptT.run_bind, StateT.run_bind, bare]
    show (checkFront c r >>= fun _ => readPieces c false r >>= _).run.run n = _
    rw [ends, none]
    rfl
  have conf : c.syn ≠ .json := by rw [hc.syn]; decide
  have fewer : r.length ≤ s.length := by
    have := (List.dropWhile_suffix (l := s) Item.isNewline).length_le
    rw [drop, List.length_cons] at this
    omega
  refine ⟨(some (withComments w (comments ++ t.comments)), ⟨r, fewer⟩), ⟨rfl, rfl, ?_⟩, ?_⟩
  · exact (Strictly.drop drop).trans ((Strictly.tail strict).trans read)
  · rw [readJoined, skip]
    simp only [pure_bind, if_neg conf]
    simp only [ExceptT.run_bind, StateT.run_bind, pieces]
    rfl

/-- JSON joins nothing. -/
theorem readJoined_json (hc : c.Strict) (comments : List String) (s : List Item) :
    readJoined c comments s = skipNewlines c s >>= fun r => pure (none, r) := by
  rw [readJoined]
  simp only [if_pos hc.syn]

/-! ### The grammar -/

/-- What reading a value as JSON tells of HOCON. -/
def MirrorsValue (c : Context) (t : Item) (comments : List String) (s : List Item) : Prop :=
  c.Strict → Mirrors (fun _ => True) SameRead (readValue c t comments s)
    (readValue c.asConf t comments s)

/-- What reading a list as JSON tells of HOCON. -/
def MirrorsList (c : Context) (s : List Item) : Prop :=
  c.Strict → Mirrors (fun _ => True) SameRead (readList c s) (readList c.asConf s)

/-- What reading further items of a list as JSON tells of HOCON. -/
def MirrorsItems (c : Context) (s : List Item) : Prop :=
  c.Strict → Mirrors (fun _ => True) SameRead (readItems c s) (readItems c.asConf s)

/-- What reading a field's value as JSON tells of HOCON, if it is complete. -/
def MirrorsFieldValue (c : Context) (comments : List String) (s : List Item) : Prop :=
  c.Strict → Mirrors (fun a => Complete a.2.val) SameRead (readFieldValue c comments s)
    (readFieldValue c.asConf comments s)

/-- The same fields and the same items left. -/
def SameFields {s s' : List Item} (a : Fields × Left s) (b : Fields × Left s') : Prop :=
  b.1.entries = a.1.entries ∧ b.2.val = a.2.val ∧ Strictly s a.2.val

/-- What reading a field as JSON tells of HOCON, if its value is complete. -/
def MirrorsField (c : Context) (f : Fields) (t : Item) (s : List Item) : Prop :=
  c.Strict → ∀ f' : Fields, f'.entries = f.entries → Mirrors (fun a => Complete a.2.val) SameFields
    (readField c f t s) (readField c.asConf f' t s)

/-- What reading fields as JSON tells of HOCON. -/
def MirrorsFields (c : Context) (braced : Bool) (f : Fields) (s : List Item) : Prop :=
  c.Strict → ∀ f' : Fields, f'.entries = f.entries → Mirrors (fun _ => True) SameRead
    (readFields c braced f s) (readFields c.asConf braced f' s)

/-- Behind a value that is not complete, JSON finds no separator but something else. -/
theorem readSeparator_of_not_complete (hc : c.Strict) {s : List Item} (h : ¬ Complete s)
    {m m' : List IncludeRecord} {a : Separation s}
    (run : (readSeparator c s).run.run m = (.ok a, m')) :
    ∃ t rest le, a = .missing ⟨t :: rest, le⟩ ∧ endsValue t.kind = false := by
  cases s with
  | nil => exact absurd nofun h
  | cons t rest =>
    have shut : endsValue t.kind = false := by
      refine Bool.eq_false_iff.2 fun ends => h ?_
      rintro u ⟨⟩
      exact ends
    have stays : (t :: rest).dropWhile Item.isNewline = t :: rest := by
      have solid : t.isNewline = false := by
        unfold Item.isNewline
        split
        · next kind => rw [kind] at shut; cases shut
        · rfl
      rw [List.dropWhile_cons, solid]
      rfl
    simp only [readSeparator, skipNewlines, stays, bind_assoc, pure_bind, hc.syn, ne_eq,
      not_true_eq_false, false_and, dif_neg, not_false_eq_true] at run
    cases refused : c.refusal? (c.front (t :: rest)) with
    | some e =>
      rw [checkFront, refused] at run
      cases run
    | none =>
      rw [checkFront, refused] at run
      obtain ⟨kind, span, line, above⟩ := t
      cases kind with
      | comma => cases shut
      | _ =>
        cases run
        exact ⟨_, _, _, rfl, shut⟩

/-- Where JSON goes on with further items, a value is complete. -/
theorem fails_readItems (hc : c.Strict) {s : List Item} (h : ¬ Complete s) :
    Fails (readItems c s) := by
  intro m a m' run
  rw [readItems] at run
  simp only [ExceptT.run_bind, StateT.run_bind] at run
  rcases hs : (readSeparator c s).run.run m with ⟨e | separation, n⟩ <;> rw [hs] at run
  · cases run
  · obtain ⟨t, rest, le, rfl, shut⟩ := readSeparator_of_not_complete hc h hs
    obtain ⟨kind, span, line, above⟩ := t
    cases kind with
    | closeBracket => cases shut
    | _ => cases run

/-- Behind its last item, HOCON ends a list where JSON does. -/
theorem readJoined_closing (hc : c.InConf) {s rest : List Item} {t : Item}
    (drop : s.dropWhile Item.isNewline = t :: rest) (kind : t.kind = .closeBracket) :
    (∃ le, readJoined c [] s = pure (none, ⟨t :: rest, le⟩))
      ∧ ∃ le, skipNewlines c (t :: rest) = pure ⟨t :: rest, le⟩ := by
  obtain ⟨nls, rfl, ends⟩ := exists_lineEnds drop
  exact ⟨readJoined_none hc ends kind [],
    skipNewlines_of_firm hc (.cons (by rw [kind]; rfl) rest)⟩

theorem mirrors_readList {s : List Item}
    (items : ∀ r : List Item, r.length ≤ s.length → MirrorsItems c r)
    (value : ∀ (t : Item) (rest : List Item), rest.length < s.length → MirrorsValue c t [] rest) :
    MirrorsList c s := by
  intro hc
  rw [readList, readList, readJoined_json hc]
  simp only [bind_assoc, pure_bind]
  refine .skip_skip hc fun r le le' drop front => ?_
  cases r with
  | nil => exact .throw
  | cons t rest =>
    have strict : t.kind.isStrict = true := front t rfl
    simp only []
    split
    · next kind =>
      obtain ⟨⟨_, joined⟩, _, skip⟩ := readJoined_closing hc.asConf drop kind
      simp only [joined, pure_bind, skip, kind]
      exact .pure ⟨rfl, rfl, (Strictly.drop drop).trans (.tail strict)⟩
    · split
      · next opens =>
        have one : Mirrors _ _ (readValue c t [] rest) (readJoined c.asConf [] s) :=
          mirrors_readJoined hc.asConf drop strict opens (value t rest le hc)
        refine one.bind_of_fails ?_ fun a no => (fails_readItems hc no).bind_left _
        rintro ⟨v, p, hp⟩ ⟨joined, p', hp'⟩ _ ⟨same, left, read⟩
        change joined = some v at same
        change p' = p at left
        subst same left
        refine (items p' hp' hc).bind ?_
        rintro ⟨vs, q, hq⟩ ⟨vs', q', hq'⟩ ⟨same, left, read'⟩
        change vs' = vs at same
        change q' = q at left
        subst same left
        exact .pure ⟨rfl, rfl, read.trans read'⟩
      · exact .throw

theorem mirrors_readItems {s : List Item}
    (items : ∀ r : List Item, r.length < s.length → MirrorsItems c r)
    (value : ∀ (t : Item) (rest : List Item), (t :: rest).length < s.length →
      MirrorsValue c t [] rest) : MirrorsItems c s := by
  intro hc
  rw [readItems, readItems]
  refine (mirrors_readSeparator hc s).bind fun separation separation' same => ?_
  cases separation with
  | missing r =>
    -- without a separator only the closing bracket may follow
    obtain ⟨r, hr⟩ := r
    cases r with
    | nil => exact .throw
    | cons t rest =>
      simp only []
      split
      · next kind =>
        have closed : Strictly s (t :: rest) → Strictly s rest :=
          fun read => read.trans (.tail (by rw [kind]; rfl))
        cases separation' with
        | missing q =>
          obtain ⟨q, hq⟩ := q
          obtain ⟨left, read⟩ := same
          change q = t :: rest at left
          subst left
          simp only [kind]
          exact .pure ⟨rfl, rfl, closed read⟩
        | found q =>
          obtain ⟨q, hq⟩ := q
          obtain ⟨left, read⟩ := same
          change q = t :: rest at left
          subst left
          have drop : (t :: rest).dropWhile Item.isNewline = t :: rest := by
            rw [List.dropWhile_cons, Item.isNewline, kind]
            rfl
          obtain ⟨⟨_, joined⟩, _, skip⟩ := readJoined_closing hc.asConf drop kind
          have shut : t.opensValue = false := by rw [Item.opensValue, kind]
          simp only [joined, pure_bind, skip, shut, Bool.false_eq_true, if_false, kind]
          exact .pure ⟨rfl, rfl, closed read⟩
      · exact .throw
  | found r =>
    obtain ⟨r, hr⟩ := r
    cases separation' with
    | missing => exact same.elim
    | found q =>
      obtain ⟨q, hq⟩ := q
      obtain ⟨left, read⟩ := same
      change q = r at left
      subst left
      simp only [readJoined_json hc, bind_assoc, pure_bind]
      refine .skip_skip hc fun p le le' drop front => ?_
      cases p with
      | nil => exact .throw
      | cons t rest =>
        have strict : t.kind.isStrict = true := front t rfl
        simp only []
        split
        · next opens =>
          have lt : (t :: rest).length < s.length := Nat.lt_of_le_of_lt le hq
          have one : Mirrors _ _ (readValue c t [] rest) (readJoined c.asConf [] q) :=
            mirrors_readJoined hc.asConf drop strict opens (value t rest lt hc)
          refine one.bind_of_fails ?_ fun a no => (fails_readItems hc no).bind_left _
          rintro ⟨v, p, hp⟩ ⟨joined, p', hp'⟩ _ ⟨same, left, read'⟩
          change joined = some v at same
          change p' = p at left
          subst same left
          refine (items p' (Nat.lt_of_le_of_lt hp' hq) hc).bind ?_
          rintro ⟨vs, q, hq⟩ ⟨vs', q', hq'⟩ ⟨same, left, read''⟩
          change vs' = vs at same
          change q' = q at left
          subst same left
          exact .pure ⟨rfl, rfl, read.trans (read'.trans read'')⟩
        · split
          · next syn => exact absurd (hc.syn.symm.trans syn) (by decide)
          · exact .throw

theorem mirrors_readFieldValue {comments : List String} {s : List Item}
    (value : ∀ (t : Item) (rest : List Item), rest.length < s.length →
      MirrorsValue c t comments rest) : MirrorsFieldValue c comments s := by
  intro hc
  rw [readFieldValue, readFieldValue, readJoined_json hc]
  simp only [bind_assoc, pure_bind]
  refine .skip_skip hc fun r le le' drop front => ?_
  cases r with
  | nil => exact .throw
  | cons t rest =>
    have strict : t.kind.isStrict = true := front t rfl
    simp only []
    cases opens : t.opensValue with
    | false => exact .of_fails ((fails_readValue strict opens comments rest).bind_left _)
    | true =>
      have one : Mirrors _ _ (readValue c t comments rest) (readJoined c.asConf comments s) :=
        mirrors_readJoined hc.asConf drop strict opens (value t rest le hc)
      refine one.bind_of_ends ?_ ?_
      · rintro ⟨v, p, hp⟩ ⟨joined, p', hp'⟩ _ ⟨same, left, read⟩
        change joined = some v at same
        change p' = p at left
        subst same left
        exact .pure ⟨rfl, rfl, read⟩
      · rintro a m _ m' ⟨⟩ complete
        exact complete

/-- JSON reads a key as HOCON does where the key ends. -/
theorem putField_asConf (hc : c.Strict) {fs gs : Entries Value} {t : Item} {key : String}
    {v : Value} (h : putField c fs t (.ofKey key) v = .ok gs) :
    putField c.asConf fs t (.ofKey key) v = .ok gs := by
  unfold putField at h ⊢
  split at h
  · exact h
  · rw [if_pos ⟨hc.syn, rfl⟩] at h
    cases h

/-- In front of a colon, line ends apart, a key ends. -/
theorem front_of_colon {s rest : List Item} {u : Item}
    (drop : s.dropWhile Item.isNewline = u :: rest) (colon : u.kind = .colon) :
    ∀ w ∈ s.head?, w.isKeyPiece = false ∧ ∀ p, w.kind ≠ .problem p := by
  obtain ⟨nls, rfl, ends⟩ := exists_lineEnds drop
  intro w hw
  have kind : w.kind = .newline ∨ w.kind = .colon := by
    cases nls with
    | nil =>
      cases hw
      exact .inr colon
    | cons n nls =>
      cases hw
      have newline := ends w List.mem_cons_self
      unfold Item.isNewline at newline
      split at newline
      · exact .inl ‹_›
      · cases newline
  obtain kind | kind := kind <;> rw [Item.isKeyPiece, kind] <;> exact ⟨rfl, by rintro _ ⟨⟩⟩

theorem mirrors_readField {f : Fields} {t : Item} {s : List Item}
    (fieldValue : ∀ (key : Path) (u : Item) (rest : List Item), rest.length < s.length →
      MirrorsFieldValue { c.enter key with afterEquals := c.afterEquals || u.kind.isEquals }
        (t.comments ++ u.comments) rest) : MirrorsField c f t s := by
  intro hc f' entries
  rw [readField, readField, readKey, if_pos hc.syn]
  split
  · next key kind =>
    simp only [pure_bind]
    refine .skip hc fun r le drop front => ?_
    cases r with
    | nil => exact .throw
    | cons u rest =>
      simp only []
      split
      · next syn => exact absurd (hc.syn.symm.trans syn) (by decide)
      · split
        · next separator =>
          have colon : u.kind = .colon := by
            unfold isKeySeparator at separator
            rw [hc.syn] at separator
            split at separator
            · assumption
            all_goals exact absurd separator (by decide)
          have separator' : isKeySeparator c.asConf u = true := by rw [isKeySeparator, colon]
          have spelled : SpellsKey key t.kind := kind ▸ spellsKey_quoted key
          obtain ⟨_, named⟩ := readKey_alone hc.asConf spelled (front_of_colon drop colon)
          obtain ⟨_, skip⟩ := skipNewlines_of_strictFront hc.asConf drop front
          have inner := fieldValue (.ofKey key) u rest le ⟨hc.syn, hc.stop⟩
          simp only [named, skip, pure_bind, colon, separator', if_true, entries,
            TokenKind.isPlusEquals, Bool.false_eq_true, if_false] at inner ⊢
          refine inner.bind_of_ends ?_ ?_
          · rintro ⟨v, p, hp⟩ ⟨v', p', hp'⟩ _ ⟨same, left, read⟩
            change v' = v at same
            change p' = p at left
            subst same left
            intro m a m' run _
            cases put : putField c f.entries t (.ofKey key) v' with
            | error e =>
              rw [put] at run
              cases run
            | ok gs =>
              rw [put] at run
              cases run
              rw [putField_asConf hc put]
              refine ⟨_, ?_, rfl⟩
              exact ⟨rfl, rfl, (Strictly.drop drop).trans ((Strictly.tail (front u rfl)).trans read)⟩
          · rintro ⟨v, p, hp⟩ m a m' run complete
            cases put : putField c f.entries t (.ofKey key) v with
            | error e =>
              rw [put] at run
              cases run
            | ok gs =>
              rw [put] at run
              cases run
              exact complete
        · exact .throw
  · exact .throw

theorem mirrors_readFields {braced : Bool} {f : Fields} {s : List Item}
    (fields : ∀ (g : Fields) (t : Item) (rest q p : List Item), (t :: rest).length ≤ s.length →
      q.length ≤ rest.length → p.length < q.length →
      MirrorsFields c braced { g with afterSeparator := true } p)
    (field : ∀ (t : Item) (rest : List Item), rest.length < s.length → MirrorsField c f t rest) :
    MirrorsFields c braced f s := by
  intro hc f' entries
  rw [readFields, readFields]
  refine .skip hc fun r le drop front => ?_
  obtain ⟨_, skip⟩ := skipNewlines_of_strictFront hc.asConf drop front
  simp only [skip, pure_bind]
  cases r with
  | nil =>
    simp only []
    split
    · exact .throw
    · exact .pure ⟨entries, rfl, .drop drop⟩
  | cons t rest =>
    have strict : t.kind.isStrict = true := front t rfl
    simp only []
    split
    · next kind =>
      split
      · exact .throw
      · split
        · exact .throw
        · simp only [reduceCtorEq, false_and, if_false, entries]
          exact .pure ⟨rfl, rfl, (Strictly.drop drop).trans (.tail strict)⟩
    · have json : (t.kind.isInclude && c.syn != .json) = false := by
        rw [hc.syn, Bool.and_comm]
        rfl
      have conf : (t.kind.isInclude && DocumentSyntax.conf != .json) = false := by
        have : t.kind.isInclude = false := by
          cases hk : t.kind <;> rw [hk] at strict <;> first | rfl | cases strict
        rw [this]
        rfl
      simp only [json, conf, Bool.false_eq_true, if_false]
      refine (field t rest le hc f' entries).bind_of_fails ?_ ?_
      · rintro ⟨g, q, hq⟩ ⟨g', q', hq'⟩ _ ⟨entries, left, read⟩
        change g'.entries = g.entries at entries
        change q' = q at left
        subst left
        have read : Strictly s q' := (Strictly.drop drop).trans ((Strictly.tail strict).trans read)
        refine (mirrors_readSeparator hc q').bind fun separation separation' same => ?_
        cases separation with
        | found p =>
          obtain ⟨p, hp⟩ := p
          cases separation' with
          | missing => exact same.elim
          | found p' =>
            obtain ⟨p', hp'⟩ := p'
            obtain ⟨left, read'⟩ := same
            change p' = p at left
            subst left
            refine (fields g t rest q' p' le hq' hp' hc { g' with afterSeparator := true }
              entries).bind ?_
            rintro ⟨es, r, hr⟩ ⟨es', r', hr'⟩ ⟨same, left, read''⟩
            change es' = es at same
            change r' = r at left
            subst same left
            exact .pure ⟨rfl, rfl, read.trans (read'.trans read'')⟩
        | missing p =>
          obtain ⟨p, hp⟩ := p
          -- behind a line end HOCON looks for another field, and finds the end too
          have closing {u r : List Item} (closes : Closes braced u r) :
              ∃ le, readFields c.asConf braced { g' with afterSeparator := true } u
                = pure (g.entries, ⟨r, le⟩) := by
            rw [← entries]
            exact readFields_closing hc.asConf lineEnds_nil closes { g' with afterSeparator := true }
          cases p with
          | nil =>
            simp only []
            split
            · exact .throw
            · next root =>
              cases (Bool.eq_false_iff.2 root)
              cases separation' with
              | missing p' =>
                obtain ⟨p', hp'⟩ := p'
                obtain ⟨left, read'⟩ := same
                change p' = [] at left
                subst left
                exact .pure ⟨entries, rfl, read.trans read'⟩
              | found p' =>
                obtain ⟨p', hp'⟩ := p'
                obtain ⟨left, read'⟩ := same
                change p' = [] at left
                subst left
                obtain ⟨_, closed⟩ := closing .stop
                simp only [closed, pure_bind]
                exact .pure ⟨rfl, rfl, read.trans read'⟩
          | cons u rest' =>
            simp only []
            split
            · next kind =>
              split
              · next brace =>
                cases brace
                have read' : Strictly q' (u :: rest') → Strictly s rest' := fun read' =>
                  read.trans (read'.trans (.tail (by rw [kind]; rfl)))
                cases separation' with
                | missing p' =>
                  obtain ⟨p', hp'⟩ := p'
                  obtain ⟨left, between⟩ := same
                  change p' = u :: rest' at left
                  subst left
                  simp only [kind]
                  exact .pure ⟨entries, rfl, read' between⟩
                | found p' =>
                  obtain ⟨p', hp'⟩ := p'
                  obtain ⟨left, between⟩ := same
                  change p' = u :: rest' at left
                  subst left
                  obtain ⟨_, closed⟩ := closing (.brace kind rest')
                  simp only [closed, pure_bind]
                  exact .pure ⟨rfl, rfl, read' between⟩
              · exact .throw
            · exact .throw
      · intro a no
        refine fun m b m' run => ?_
        simp only [ExceptT.run_bind, StateT.run_bind] at run
        rcases hs : (readSeparator c a.2.val).run.run m with ⟨e | separation, n⟩ <;> rw [hs] at run
        · cases run
        · obtain ⟨t, rest, le, rfl, shut⟩ := readSeparator_of_not_complete hc no hs
          obtain ⟨kind, span, line, above⟩ := t
          cases kind with
          | closeBrace => cases shut
          | _ => cases run

theorem mirrors_readValue {t : Item} {comments : List String} {s : List Item}
    (fields : t.kind = .openBrace → MirrorsFields c true {} s)
    (list : t.kind = .openBracket → MirrorsList c s) : MirrorsValue c t comments s := by
  intro hc
  rw [readValue, readValue]
  simp only []
  split
  · exact .pure ⟨rfl, rfl, .refl s⟩
  · exact .pure ⟨rfl, rfl, .refl s⟩
  · intro m a m' run _
    refine ⟨a, ?_, run⟩
    cases path : pathOf (c.originAt t.line) _ with
    | error e => rw [path] at run; cases run
    | ok path' =>
      rw [path] at run
      cases run
      exact ⟨rfl, rfl, .refl s⟩
  · next kind =>
    refine (fields kind hc {} rfl).bind fun ⟨fs, r, hr⟩ ⟨fs', r', hr'⟩ ⟨same, left, read⟩ => ?_
    change fs' = fs at same
    change r' = r at left
    subst same left
    exact .pure ⟨rfl, rfl, read⟩
  · next kind =>
    refine (list kind hc).bind fun ⟨xs, r, hr⟩ ⟨xs', r', hr'⟩ ⟨same, left, read⟩ => ?_
    change xs' = xs at same
    change r' = r at left
    subst same left
    exact .pure ⟨rfl, rfl, read⟩
  · exact .throw

/-- **The grammar of values** reads as HOCON what it reads as JSON. -/
theorem mirrored (c : Context) (t : Item) (comments : List String) (s : List Item) :
    MirrorsValue c t comments s := by
  refine readValue.induct MirrorsValue MirrorsList MirrorsItems (fun _ _ _ => True)
    (fun _ _ _ => True) MirrorsFields MirrorsField MirrorsFieldValue ?literal ?bare ?substitution
    ?brace ?bracket ?other ?list ?items ?joined ?noPieces ?pieces ?lastPiece ?fields ?field
    ?fieldValue c t comments s
  case literal =>
    intro c t comments s literal kind
    exact mirrors_readValue (by rw [kind]; rintro ⟨⟩) (by rw [kind]; rintro ⟨⟩)
  case bare =>
    intro c t comments s text kind
    exact mirrors_readValue (by rw [kind]; rintro ⟨⟩) (by rw [kind]; rintro ⟨⟩)
  case substitution =>
    intro c t comments s optional expression kind
    exact mirrors_readValue (by rw [kind]; rintro ⟨⟩) (by rw [kind]; rintro ⟨⟩)
  case brace =>
    intro c t comments s kind fields
    exact mirrors_readValue (fun _ => fields) (by rw [kind]; rintro ⟨⟩)
  case bracket =>
    intro c t comments s kind list
    exact mirrors_readValue (by rw [kind]; rintro ⟨⟩) (fun _ => list)
  case other =>
    intro c t comments s _ _ _ brace bracket
    exact mirrors_readValue (fun kind => absurd kind brace) (fun kind => absurd kind bracket)
  case list =>
    intro c s _ items value _
    exact mirrors_readList items fun t rest lt => value s (Nat.le_refl _) [] t rest lt
  case items =>
    intro c s _ items value _
    exact mirrors_readItems (fun r lt => items _ lt _ (Nat.le_refl _)) fun t rest lt =>
      value (t :: rest) lt (t :: rest) (Nat.le_refl _) [] t rest (Nat.le_refl _)
  case joined => exact fun _ _ _ _ => trivial
  case noPieces => exact fun _ _ => trivial
  case pieces => exact fun _ _ _ _ _ _ _ => trivial
  case lastPiece => exact fun _ _ _ _ _ => trivial
  case fields =>
    intro c braced f s fields field
    exact mirrors_readFields (fun g t rest q p hr hq hp => fields [] t rest hr g q hq p hp)
      fun t rest lt => field [] t rest lt
  case field =>
    intro c f t s _ fieldValue
    exact mirrors_readField fun key u rest lt => fieldValue key s (Nat.le_refl _) [] u rest lt u.kind
  case fieldValue =>
    intro c comments s _ value
    exact mirrors_readFieldValue fun t rest lt => value s (Nat.le_refl _) [] t rest lt

/-! ### Whole texts -/

/-- A whole JSON document has nothing that JSON has not, and HOCON reads it as the same tree. -/
theorem mirrors_readRoot (hc : c.Strict) (s : List Item) :
    Mirrors (fun _ => True) (fun v w => w = v ∧ ∀ t ∈ s, t.kind.isStrict = true) (readRoot c s)
      (readRoot c.asConf s) := by
  unfold readRoot
  refine .skip hc fun r le drop front => ?_
  obtain ⟨_, skip⟩ := skipNewlines_of_strictFront hc.asConf drop front
  simp only [skip, pure_bind]
  cases r with
  | nil =>
    simp only [if_pos hc.syn]
    exact .of_fails (Fails.bind_left .throw _)
  | cons t rest =>
    have strict : t.kind.isStrict = true := front t rfl
    simp only [if_pos hc.syn]
    split
    · refine (mirrored c t [] rest hc).bind ?_
      rintro ⟨v, q, hq⟩ ⟨v', q', hq'⟩ ⟨same, left, read⟩
      change v' = v at same
      change q' = q at left
      subst same left
      refine .skip hc fun p le drop' front' => ?_
      obtain ⟨_, skip'⟩ := skipNewlines_of_strictFront hc.asConf drop' front'
      simp only [skip', pure_bind]
      cases p with
      | nil =>
        obtain ⟨read, whole, all⟩ := (Strictly.drop drop).trans
          ((Strictly.tail strict).trans (read.trans (.drop drop')))
        rw [List.append_nil] at whole
        exact .pure ⟨rfl, whole ▸ all⟩
      | cons u p => exact .throw
    · exact .of_fails (Fails.bind_left .throw _)

/-- A text that is read as JSON is read as HOCON, and gives the same tree. -/
theorem mirrors_read (origin : Origin) (answer : IncludeRequest → Loading Value) (text : String) :
    Mirrors (fun _ => True) (fun v w => w = v) (read .json origin answer text)
      (read .conf origin answer text) := by
  intro m v m' run _
  have hc : Context.Strict { syn := .json, origin, answer, keys := [], afterEquals := false
                             stop := .stopOf (Token.ofText .json text.toList) } :=
    ⟨rfl, kind_stopOf _ _⟩
  obtain ⟨w, ⟨same, strict⟩, run'⟩ := mirrors_readRoot hc _ m v m' run trivial
  have tokens : Token.ofText .conf text.toList = Token.ofText .json text.toList :=
    Token.ofText_strict strict
  refine ⟨w, same, ?_⟩
  rw [read, tokens]
  exact run'

end Document

/-- A text is parsed by reading it, in JSON and HOCON with the same origin and the same answers. -/
theorem parseText_eq_read (files : FileTree) (o : ParseOptions) (text : String) :
    ∃ origin answer, ∀ syn, syn ≠ .properties → parseText files { o with syn := some syn } text =
      Document.read syn origin answer text >>= fun v => Document.checkRoot origin v := by
  have depth : (Document.ofText text).chain.length < Document.maxIncludeDepth := Nat.zero_lt_succ _
  refine ⟨(Document.ofText text).originFor o, ?_, fun syn h => ?_⟩
  rotate_left
  · rw [parseText, Document.load, dif_pos depth]
    cases syn with
    | properties => exact absurd rfl h
    | _ => rfl

/-- **HOCON is a superset of JSON.**  A text that is parsed as JSON is parsed as HOCON too, and
as the same tree: every key, text, number and origin of it. -/
theorem parseText_conf_of_json {files : FileTree} {o : ParseOptions} {text : String} {v : Value}
    {m m' : List IncludeRecord}
    (json : (parseText files { o with syn := some .json } text).run.run m = (.ok v, m')) :
    (parseText files { o with syn := some .conf } text).run.run m = (.ok v, m') := by
  obtain ⟨origin, answer, eq⟩ := parseText_eq_read files o text
  rw [eq .json (by decide)] at json
  rw [eq .conf (by decide)]
  simp only [ExceptT.run_bind, StateT.run_bind] at json ⊢
  rcases read : (Document.read .json origin answer text).run.run m with ⟨e | w, n⟩ <;>
    rw [read] at json
  · cases json
  · obtain ⟨_, rfl, same⟩ := Document.mirrors_read origin answer text m w n read trivial
    rw [same]
    exact json

/-- Line ends around every sign, a key with a period in it and one without characters. -/
theorem parseText_conf_of_json_example :
    let text := "\n\x7b \"a\" :\n [1, -2.50e1 , \x7b\x7d\n, \"x\\u0041\" ] ,\n\"b.c\"\n: \x7b \"\" : null \x7d\n\x7d"
    ∃ v, (parseText {} { syn := some .json } text).run.run [] = (.ok v, [])
      ∧ (parseText {} { syn := some .conf } text).run.run [] = (.ok v, []) := by
  intro text
  have read : ((parseText {} { syn := some .json } text).run.run []).1.toOption.isSome
      && ((parseText {} { syn := some .json } text).run.run []).2.isEmpty := by
    rw [parseText, Document.load, dif_pos (by decide)]
    decide +kernel
  rcases h : (parseText {} { syn := some .json } text).run.run [] with ⟨e | v, m⟩
  · rw [h] at read
    cases read
  · rw [h] at read
    cases List.isEmpty_iff.1 read
    exact ⟨v, rfl, @parseText_conf_of_json {} {} text v [] [] h⟩

end Hocon
