import Hocon.Proofs.Copies

/-!
# The same items elsewhere

What a text is read to does not depend on where it stands.  Items of the same kinds, in another
document and with a line end and more behind them, are read to copies of the same trees, and what
is behind is left (`Document.followed`).  That needs that nothing in the text refers to anything;
for a reference is looked up by its place, and an included document comes from elsewhere.

Each function of the grammar is compared with itself.  Only that a text ends where its items end
tells the two readings apart.  What reads on there fails in the one place and may go on in the
other, so what is known is what the first reading foretells of the second (`Foretells`).
-/

namespace Hocon

/-- Whether the token makes a reference. -/
def TokenKind.refers : TokenKind → Bool
  | substitution _ _ => true
  | plusEquals => true
  | _ => false

namespace Document

open Value

/-! ### Readings that foretell others -/

/-- Where `x` gives a result, `y` gives one that goes with it, whatever includes there were
before, and adds none. -/
def Foretells {α β : Type} (R : α → β → Prop) (x : Loading α) (y : Loading β) : Prop :=
  ∀ m a m', x.run.run m = (.ok a, m') → ∃ b, R a b ∧ ∀ n, y.run.run n = (.ok b, n)

namespace Foretells

variable {α β γ δ : Type} {R : α → β → Prop} {S : γ → δ → Prop} {x : Loading α} {y : Loading β}

protected theorem pure {a : α} {b : β} (h : R a b) : Foretells R (pure a) (pure b) := by
  rintro m _ _ ⟨⟩
  exact ⟨b, h, fun _ => rfl⟩

protected theorem throw {e : Error} : Foretells R (throw e) y := by
  rintro m _ _ ⟨⟩

theorem of_fails (h : Fails x) : Foretells R x y := fun m a m' run => absurd run (h m a m')

theorem of_ok {e : Except Error α} {e' : Except Error β}
    (h : ∀ a, e = .ok a → ∃ b, e' = .ok b ∧ R a b) : Foretells R (liftM e) (liftM e') := by
  intro m a m' run
  cases e with
  | error => cases run
  | ok a =>
    cases run
    obtain ⟨b, rfl, related⟩ := h a rfl
    exact ⟨b, related, fun _ => rfl⟩

protected theorem bind {f : α → Loading γ} {g : β → Loading δ} (h : Foretells R x y)
    (next : ∀ a b, R a b → Foretells S (f a) (g b)) : Foretells S (x >>= f) (y >>= g) := by
  intro m c m'' run
  simp only [ExceptT.run_bind, StateT.run_bind] at run
  rcases hx : x.run.run m with ⟨e | a, m'⟩ <;> rw [hx] at run
  · cases run
  · obtain ⟨b, related, hy⟩ := h m a m' hx
    obtain ⟨d, related', hg⟩ := next a b related m' c m'' run
    refine ⟨d, related', fun n => ?_⟩
    simp only [ExceptT.run_bind, StateT.run_bind, hy n]
    exact hg n

end Foretells

/-! ### Items -/

/-- The item is no problem. -/
abbrev Clean (t : Item) : Prop := ∀ p, t.kind ≠ .problem p

/-- `r` is what is left of `s` behind items that are no problems. -/
def Past (s r : List Item) : Prop := ∃ read, s = read ++ r ∧ ∀ t ∈ read, Clean t

namespace Past

variable {s r q : List Item}

theorem refl (s : List Item) : Past s s := ⟨[], rfl, nofun⟩

theorem trans (h : Past s r) (h' : Past r q) : Past s q := by
  obtain ⟨read, rfl, clean⟩ := h
  obtain ⟨read', rfl, clean'⟩ := h'
  exact ⟨read ++ read', (List.append_assoc ..).symm, List.forall_mem_append.2 ⟨clean, clean'⟩⟩

theorem tail {t : Item} (ht : Clean t) (s : List Item) : Past (t :: s) s :=
  ⟨[t], rfl, List.forall_mem_singleton.2 ht⟩

theorem dropWhile {p : Item → Bool} (h : ∀ t, p t = true → Clean t) (s : List Item) :
    Past s (s.dropWhile p) :=
  ⟨s.takeWhile p, List.takeWhile_append_dropWhile.symm, fun t ht =>
    h t (List.all_eq_true.1 List.all_takeWhile t ht)⟩

end Past

theorem clean_of_isNewline {t : Item} (h : t.isNewline = true) : Clean t := by
  intro p kind
  rw [Item.isNewline, kind] at h
  cases h

theorem clean_of_isKeyPiece {t : Item} (h : t.isKeyPiece = true) : Clean t := by
  intro p kind
  rw [Item.isKeyPiece, kind] at h
  cases h

theorem clean_of_continuesValue {t : Item} (h : t.continuesValue = true) : Clean t := by
  intro p kind
  rw [Item.continuesValue, kind] at h
  cases h

/-- `s'` has the kinds of items that `s` has, none of which refers to anything, and `w` behind. -/
inductive Ahead (w : List Item) : List Item → List Item → Prop
  | done : Ahead w [] w
  | item {t t' : Item} {s s' : List Item} (kind : t'.kind = t.kind)
      (plain : t.kind.refers = false) (rest : Ahead w s s') : Ahead w (t :: s) (t' :: s')

/-- Nothing is there, or a line end is the first of it. -/
abbrev Breaks (w : List Item) : Prop := ∀ t ∈ w.head?, t.kind = .newline

variable {w s s' r r' : List Item}

namespace Ahead

theorem length (h : Ahead w s s') : s'.length = s.length + w.length := by
  induction h with
  | done => exact (Nat.zero_add _).symm
  | item _ _ _ ih =>
    rw [List.length_cons, List.length_cons, ih]
    omega

/-- What is left behind some of the items, or all items are gone. -/
theorem dropWhile {p : Item → Bool} (same : ∀ t t' : Item, t'.kind = t.kind → p t' = p t)
    (h : Ahead w s s') :
    s.dropWhile p = [] ∧ s'.dropWhile p = w.dropWhile p
      ∨ s.dropWhile p ≠ [] ∧ Ahead w (s.dropWhile p) (s'.dropWhile p) := by
  induction h with
  | done => exact .inl ⟨rfl, rfl⟩
  | @item t t' s s' kind plain rest ih =>
    rw [List.dropWhile_cons, List.dropWhile_cons, same t t' kind]
    split
    · exact ih
    · exact .inr ⟨List.cons_ne_nil _ _, .item kind plain rest⟩

/-- Nothing behind the items is passed. -/
theorem dropWhile_of_breaks {p : Item → Bool}
    (same : ∀ t t' : Item, t'.kind = t.kind → p t' = p t)
    (stops : ∀ t ∈ w.head?, p t = false) (h : Ahead w s s') :
    Ahead w (s.dropWhile p) (s'.dropWhile p) := by
  obtain ⟨left, right⟩ | ⟨-, ahead⟩ := h.dropWhile same
  · have whole : w.dropWhile p = w := by
      cases w with
      | nil => rfl
      | cons t w => rw [List.dropWhile_cons, stops t rfl]; rfl
    rw [left, right, whole]
    exact .done
  · exact ahead

theorem takeWhile_kinds {p : Item → Bool} (same : ∀ t t' : Item, t'.kind = t.kind → p t' = p t)
    (stops : ∀ t ∈ w.head?, p t = false) (h : Ahead w s s') :
    (s'.takeWhile p).map Item.kind = (s.takeWhile p).map Item.kind := by
  induction h with
  | done =>
    cases w with
    | nil => rfl
    | cons t w => rw [List.takeWhile_cons, stops t rfl]; rfl
  | @item t t' s s' kind plain rest ih =>
    rw [List.takeWhile_cons, List.takeWhile_cons, same t t' kind]
    split
    · rw [List.map_cons, List.map_cons, kind, ih]
    · rfl

end Ahead

theorem isNewline_congr (t t' : Item) (kind : t'.kind = t.kind) : t'.isNewline = t.isNewline := by
  rw [Item.isNewline, Item.isNewline, kind]

theorem isKeyPiece_congr (t t' : Item) (kind : t'.kind = t.kind) :
    t'.isKeyPiece = t.isKeyPiece := by
  rw [Item.isKeyPiece, Item.isKeyPiece, kind]

/-- What is left of `s`, and of what has the same items and more. -/
structure Reaches (w s r r' : List Item) : Prop where
  past : Past s r
  ahead : Ahead w r r'

theorem Reaches.after (h : Past s r) {q q' : List Item} (reaches : Reaches w r q q') :
    Reaches w s q q' := ⟨h.trans reaches.past, reaches.ahead⟩

/-- Both come to items of the same kind, which are no problems. -/
structure Meets (w s : List Item) (t : Item) (rest : List Item) (t' : Item) (rest' : List Item) :
    Prop where
  kind : t'.kind = t.kind
  plain : t.kind.refers = false
  clean : Clean t
  past : Past s (t :: rest)
  ahead : Ahead w rest rest'

namespace Meets

variable {t t' : Item} {rest rest' : List Item}

theorem here (h : Meets w s t rest t' rest') : Reaches w s (t :: rest) (t' :: rest') :=
  ⟨h.past, .item h.kind h.plain h.ahead⟩

theorem behind (h : Meets w s t rest t' rest') : Past s rest := h.past.trans (.tail h.clean rest)

end Meets

/-! ### Moving on -/

/-- Two places in HOCON documents, in the first of which nothing is included. -/
structure Context.Beside (c c' : Context) : Prop where
  left : c.InConf
  right : c'.InConf
  refused : ∀ r, Fails (c.answer r)

variable {c c' : Context}

/-- What is let pass is no problem. -/
theorem clean_of_refusal? {t : Item} (h : c.refusal? t = none) : Clean t := by
  intro p kind
  rw [Context.refusal?, kind] at h
  cases h

/-- What is let pass at the front here is let pass there. -/
theorem Foretells.check {α β : Type} {R : α → β → Prop} {x : Loading α} {y : Loading β}
    (beside : c.Beside c') (breaks : Breaks w) (ahead : Ahead w r r')
    (next : (∀ t ∈ r.head?, Clean t) → Foretells R x y) :
    Foretells R (checkFront c r >>= fun _ => x) (checkFront c' r' >>= fun _ => y) := by
  cases refused : c.refusal? (c.front r) with
  | some e =>
    rw [checkFront, refused]
    exact .throw
  | none =>
    have clean : ∀ t ∈ r.head?, Clean t := by
      intro t front
      cases r with
      | nil => cases front
      | cons u r =>
        cases front
        exact clean_of_refusal? refused
    have passes : checkFront c' r' = pure () := by
      refine checkFront_eq beside.right fun u front p kind => ?_
      cases ahead with
      | done =>
        rw [breaks u front] at kind
        cases kind
      | item same _ _ =>
        cases front
        exact clean _ rfl p (same ▸ kind)
    rw [checkFront, refused, passes]
    exact next clean

theorem skipNewlines_eq_check (c : Context) {s r : List Item}
    (drop : s.dropWhile Item.isNewline = r) :
    ∃ le, skipNewlines c s = checkFront c r >>= fun _ => pure ⟨r, le⟩ := by
  subst drop
  exact ⟨(List.dropWhile_suffix _).length_le, rfl⟩

/-- Both skip line ends, up to an item in the text; reading on at its end fails. -/
theorem Foretells.skip {α β : Type} {R : α → β → Prop} (beside : c.Beside c')
    (breaks : Breaks w) (ahead : Ahead w s s') {f : Left s → Loading α} {g : Left s' → Loading β}
    (stop : s.dropWhile Item.isNewline = [] → ∀ le, Fails (f ⟨[], le⟩))
    (next : ∀ t rest t' rest' le le', Meets w s t rest t' rest' →
      Foretells R (f ⟨t :: rest, le⟩) (g ⟨t' :: rest', le'⟩)) :
    Foretells R (skipNewlines c s >>= f) (skipNewlines c' s' >>= g) := by
  have past : Past s (s.dropWhile Item.isNewline) := .dropWhile (fun _ => clean_of_isNewline) s
  have ahead := ahead.dropWhile isNewline_congr
  generalize left : s.dropWhile Item.isNewline = r at past ahead
  generalize right : s'.dropWhile Item.isNewline = r' at ahead
  obtain ⟨le, skip⟩ := skipNewlines_eq_check c left
  obtain ⟨le', skip'⟩ := skipNewlines_eq_check c' right
  rw [skip, skip']
  simp only [bind_assoc, pure_bind]
  obtain ⟨rfl, -⟩ | ⟨present, ahead⟩ := ahead
  · exact .of_fails (.bind fun _ => stop left le)
  · refine .check beside breaks ahead fun clean => ?_
    cases ahead with
    | done => exact absurd rfl present
    | item kind plain ahead => exact next _ _ _ _ le le' ⟨kind, plain, clean _ rfl, past, ahead⟩

/-- The same separator, or none in front of an item. -/
def Together (w : List Item) : Separation s → Separation s' → Prop
  | .found r, .found r' => Reaches w s r.val r'.val
  | .missing r, .missing r' => r.val ≠ [] ∧ Reaches w s r.val r'.val
  | _, _ => False

theorem foretells_readSeparator (beside : c.Beside c') (breaks : Breaks w) (ahead : Ahead w s s')
    (present : s.dropWhile Item.isNewline ≠ []) :
    Foretells (Together w) (readSeparator c s) (readSeparator c' s') := by
  unfold readSeparator
  refine .skip beside breaks ahead (fun blank => absurd blank present) ?_
  intro t rest t' rest' le le' meets
  have longer : (t :: rest).length < s.length ↔ (t' :: rest').length < s'.length := by
    have whole := ahead.length
    have left := meets.here.ahead.length
    omega
  have other : Together w
      (if h : c.syn ≠ .json ∧ (t :: rest).length < s.length then .found ⟨t :: rest, h.2⟩
        else .missing ⟨t :: rest, le⟩)
      (if h : c'.syn ≠ .json ∧ (t' :: rest').length < s'.length then .found ⟨t' :: rest', h.2⟩
        else .missing ⟨t' :: rest', le'⟩) := by
    by_cases lt : (t :: rest).length < s.length
    · rw [dif_pos ⟨by rw [beside.left.syn]; decide, lt⟩,
        dif_pos ⟨by rw [beside.right.syn]; decide, longer.1 lt⟩]
      exact meets.here
    · rw [dif_neg fun h => lt h.2, dif_neg fun h => lt (longer.2 h.2)]
      exact ⟨List.cons_ne_nil _ _, meets.here⟩
  simp only [meets.kind]
  split
  · exact .pure ⟨meets.behind, meets.ahead⟩
  · exact .pure other

/-- Behind the last item only line ends may follow, and nothing comes of it. -/
theorem fails_separate {α : Type} {f : Separation s → Loading α}
    (blank : s.dropWhile Item.isNewline = []) (found : ∀ lt, Fails (f (.found ⟨[], lt⟩)))
    (missing : ∀ le, Fails (f (.missing ⟨[], le⟩))) : Fails (readSeparator c s >>= f) := by
  unfold readSeparator
  obtain ⟨le, skip⟩ := skipNewlines_eq_check c blank
  rw [skip]
  simp only [bind_assoc, pure_bind]
  refine .bind fun _ => ?_
  split
  · exact found _
  · exact missing _

/-- What follows a separator, if nothing comes of the end of the text. -/
theorem Foretells.separate {α β : Type} {R : α → β → Prop} (beside : c.Beside c')
    (breaks : Breaks w) (ahead : Ahead w s s') {f : Separation s → Loading α}
    {g : Separation s' → Loading β} (found : ∀ lt, Fails (f (.found ⟨[], lt⟩)))
    (missing : ∀ le, Fails (f (.missing ⟨[], le⟩)))
    (next : ∀ a b, Together w a b → Foretells R (f a) (g b)) :
    Foretells R (readSeparator c s >>= f) (readSeparator c' s' >>= g) := by
  by_cases blank : s.dropWhile Item.isNewline = []
  · exact .of_fails (fails_separate blank found missing)
  · exact (foretells_readSeparator beside breaks ahead blank).bind next

/-! ### Keys and values -/

/-- What was read goes with what was read, and so does what is left. -/
def Told {α β : Type} (w : List Item) (R : α → β → Prop) (a : α × Left s) (b : β × Left s') : Prop :=
  R a.1 b.1 ∧ Reaches w s a.2.val b.2.val

theorem foretells_readKey (beside : c.Beside c') (breaks : Breaks w) {t t' : Item}
    (kind : t'.kind = t.kind) (ahead : Ahead w s s') :
    Foretells (fun a b => Clean t ∧ Told w Eq a b) (readKey c t s) (readKey c' t' s') := by
  have stops : ∀ u ∈ w.head?, u.isKeyPiece = false := fun u hu => by
    rw [Item.isKeyPiece, breaks u hu]
  have conf {c : Context} (hc : c.InConf) : c.syn ≠ .json := by
    rw [hc.syn]
    decide
  unfold readKey
  rw [if_neg (conf beside.left), if_neg (conf beside.right), isKeyPiece_congr t t' kind]
  split
  · next piece =>
    have rest := ahead.dropWhile_of_breaks isKeyPiece_congr stops
    refine .check beside breaks rest fun _ => ?_
    have spelled : (t' :: s'.takeWhile Item.isKeyPiece).map Item.kind
        = (t :: s.takeWhile Item.isKeyPiece).map Item.kind := by
      rw [List.map_cons, List.map_cons, kind, ahead.takeWhile_kinds isKeyPiece_congr stops]
    rw [spelled]
    have named : Foretells Eq
        (liftM (pathOf (c.originAt t.line) ((t :: s.takeWhile Item.isKeyPiece).map Item.kind)))
        (liftM (pathOf (c'.originAt t'.line) ((t :: s.takeWhile Item.isKeyPiece).map Item.kind))) := by
      refine .of_ok fun key h => ?_
      unfold pathOf at h ⊢
      split at h
      · cases h
        exact ⟨_, rfl, rfl⟩
      · cases h
    refine named.bind fun key key' same => .pure ⟨clean_of_isKeyPiece piece, same, ?_, rest⟩
    exact .dropWhile (fun _ => clean_of_isKeyPiece) s
  · exact .throw

/-! ### The grammar -/

section Grammar

variable (w)

/-- What reading a value foretells. -/
def ForetellsValue (c : Context) (t : Item) (comments : List String) (s : List Item) : Prop :=
  ∀ ⦃c' t' comments' s'⦄, c.Beside c' → t'.kind = t.kind → t.kind.refers = false → Ahead w s s' →
    Foretells (Told w Copies) (readValue c t comments s) (readValue c' t' comments' s')

/-- What reading a list foretells. -/
def ForetellsList (c : Context) (s : List Item) : Prop :=
  ∀ ⦃c' s'⦄, c.Beside c' → Ahead w s s' →
    Foretells (Told w (List.Forall₂ Copies)) (readList c s) (readList c' s')

/-- What reading further items of a list foretells. -/
def ForetellsItems (c : Context) (s : List Item) : Prop :=
  ∀ ⦃c' s'⦄, c.Beside c' → Ahead w s s' →
    Foretells (Told w (List.Forall₂ Copies)) (readItems c s) (readItems c' s')

/-- What reading joined values foretells, if anything is there. -/
def ForetellsJoined (c : Context) (comments : List String) (s : List Item) : Prop :=
  ∀ ⦃c' comments' s'⦄, c.Beside c' → Ahead w s s' → s.dropWhile Item.isNewline ≠ [] →
    Foretells (Told w (Option.Rel Copies)) (readJoined c comments s) (readJoined c' comments' s')

/-- What reading neighbours foretells. -/
def ForetellsPieces (c : Context) (first : Bool) (s : List Item) : Prop :=
  ∀ ⦃c' s'⦄, c.Beside c' → Ahead w s s' →
    Foretells (Told w (List.Forall₂ Copies)) (readPieces c first s) (readPieces c' first s')

/-- What reading the fields between braces foretells. -/
def ForetellsFields (c : Context) (braced : Bool) (f : Fields) (s : List Item) : Prop :=
  braced = true → ∀ ⦃c' f' s'⦄, c.Beside c' → Ahead w s s' →
    Foretells (Told w fun es es' => Overlays f.entries es f'.entries es')
      (readFields c braced f s) (readFields c' braced f' s')

/-- What reading a field foretells. -/
def ForetellsField (c : Context) (f : Fields) (t : Item) (s : List Item) : Prop :=
  ∀ ⦃c' f' t' s'⦄, c.Beside c' → t'.kind = t.kind → Ahead w s s' →
    Foretells (Told w fun g g' => Overlays f.entries g.entries f'.entries g'.entries)
      (readField c f t s) (readField c' f' t' s')

/-- What reading a field's value foretells. -/
def ForetellsFieldValue (c : Context) (comments : List String) (s : List Item) : Prop :=
  ∀ ⦃c' comments' s'⦄, c.Beside c' → Ahead w s s' →
    Foretells (Told w Copies) (readFieldValue c comments s) (readFieldValue c' comments' s')

variable {w}

theorem foretells_readPieces_nil (breaks : Breaks w) (first : Bool) : ForetellsPieces w c first [] := by
  intro c' s' beside ahead
  cases ahead
  rw [readPieces]
  cases w with
  | nil =>
    rw [readPieces]
    exact .pure ⟨.nil, .refl _, .done⟩
  | cons t w =>
    have stops : t.continuesValue = false := by
      rw [Item.continuesValue, breaks t rfl]
      rfl
    rw [readPieces, if_neg (by rw [stops]; decide)]
    exact .pure ⟨.nil, .refl _, .done⟩

theorem foretells_readPieces_cons (breaks : Breaks w) {t : Item} {rest : List Item} {first : Bool}
    (value : t.continuesValue = true →
      ForetellsValue w c { t with comments := if first then [] else t.comments } [] rest)
    (pieces : t.continuesValue = true → ∀ r : List Item, r.length ≤ rest.length →
      ForetellsPieces w c false r) :
    ForetellsPieces w c first (t :: rest) := by
  intro c' s' beside ahead
  cases ahead with
  | @item _ t' _ rest' kind plain ahead =>
    rw [readPieces, readPieces]
    have same : t'.continuesValue = t.continuesValue := by
      rw [Item.continuesValue, Item.continuesValue, kind]
    rw [same]
    split
    · next continues =>
      have tail : Past (t :: rest) rest := .tail (clean_of_continuesValue continues) rest
      refine Foretells.bind (value continues beside kind plain ahead) ?_
      rintro ⟨v, r, hr⟩ ⟨v', r', hr'⟩ ⟨copies, reaches⟩
      refine .check beside breaks reaches.ahead fun _ => ?_
      refine Foretells.bind (pieces continues r hr beside reaches.ahead) ?_
      rintro ⟨vs, q, hq⟩ ⟨vs', q', hq'⟩ ⟨more, reaches'⟩
      exact .pure ⟨.cons copies more, (reaches'.after reaches.past).after tail⟩
    · exact .pure ⟨.nil, .refl _, .item kind plain ahead⟩

theorem foretells_readJoined (breaks : Breaks w) {comments : List String}
    (pieces : ∀ r : List Item, r.length ≤ s.length → ForetellsPieces w c true r) :
    ForetellsJoined w c comments s := by
  intro c' comments' s' beside ahead present
  have conf {c : Context} (hc : c.InConf) : c.syn ≠ .json := by
    rw [hc.syn]
    decide
  rw [readJoined, readJoined]
  refine .skip beside breaks ahead (fun blank => absurd blank present) ?_
  intro t rest t' rest' le le' meets
  simp only [if_neg (conf beside.left), if_neg (conf beside.right)]
  refine Foretells.bind (pieces _ le beside meets.here.ahead) ?_
  intro ⟨ps, q, hq⟩ ⟨ps', q', hq'⟩ ⟨copies, reaches⟩
  refine Foretells.bind (.of_ok fun u hu => Copies.concatenate copies hu) ?_
  intro u u' joined
  cases joined with
  | none => exact .pure ⟨.none, reaches.after meets.past⟩
  | some copies => exact .pure ⟨.some (copies.withComments _ _), reaches.after meets.past⟩

/-- Where only line ends are left no value is read, and nothing comes of it. -/
theorem fails_joined {α : Type} (inConf : c.InConf) (blank : s.dropWhile Item.isNewline = [])
    {comments : List String} {f : Option Value × Left s → Loading α}
    (stop : ∀ le, Fails (f (none, ⟨[], le⟩))) : Fails (readJoined c comments s >>= f) := by
  have conf : c.syn ≠ .json := by
    rw [inConf.syn]
    decide
  obtain ⟨le, skip⟩ := skipNewlines_eq_check c blank
  rw [readJoined, skip]
  simp only [bind_assoc, pure_bind, if_neg conf]
  refine .bind fun _ => ?_
  rw [readPieces]
  exact stop _

/-- What follows joined values, if nothing comes of the end of the text. -/
theorem Foretells.joined {α β : Type} {R : α → β → Prop} (beside : c.Beside c')
    (ahead : Ahead w s s') {comments comments' : List String}
    (joined : ForetellsJoined w c comments s) {f : Option Value × Left s → Loading α}
    {g : Option Value × Left s' → Loading β} (stop : ∀ le, Fails (f (none, ⟨[], le⟩)))
    (next : ∀ a b, Told w (Option.Rel Copies) a b → Foretells R (f a) (g b)) :
    Foretells R (readJoined c comments s >>= f) (readJoined c' comments' s' >>= g) := by
  by_cases blank : s.dropWhile Item.isNewline = []
  · exact .of_fails (fails_joined beside.left blank stop)
  · exact (joined beside ahead blank).bind next

/-- At the end of the text, where line ends are skipped, nothing else comes. -/
theorem fails_skip {α : Type} {f : Left ([] : List Item) → Loading α} (stop : ∀ le, Fails (f ⟨[], le⟩)) :
    Fails (skipNewlines c [] >>= f) := by
  obtain ⟨le, skip⟩ := skipNewlines_eq_check c (List.dropWhile_nil (p := Item.isNewline))
  rw [skip]
  simp only [bind_assoc, pure_bind]
  exact .bind fun _ => stop le

theorem opensValue_congr (t t' : Item) (kind : t'.kind = t.kind) : t'.opensValue = t.opensValue := by
  rw [Item.opensValue, Item.opensValue, kind]

theorem foretells_readList (breaks : Breaks w) (joined : ForetellsJoined w c [] s)
    (items : ∀ r : List Item, r.length ≤ s.length → ForetellsItems w c r)
    (value : ∀ (t : Item) (rest : List Item), rest.length < s.length →
      ForetellsValue w c t [] rest) : ForetellsList w c s := by
  intro c' s' beside ahead
  rw [readList, readList]
  refine .joined beside ahead joined (fun _ => fails_skip fun _ => .throw) ?_
  rintro ⟨u, r, hr⟩ ⟨u', r', hr'⟩ ⟨related, reaches⟩
  cases related with
  | some copies =>
    refine Foretells.bind (items r hr beside reaches.ahead) ?_
    rintro ⟨vs, q, hq⟩ ⟨vs', q', hq'⟩ ⟨more, reaches'⟩
    exact .pure ⟨.cons copies more, reaches'.after reaches.past⟩
  | none =>
    simp only []
    refine .skip beside breaks reaches.ahead (fun _ _ => .throw) ?_
    intro t rest t' rest' le le' meets
    have behind : Past s rest := reaches.past.trans meets.behind
    simp only [meets.kind]
    split
    · exact .pure ⟨.nil, behind, meets.ahead⟩
    · rw [opensValue_congr t t' meets.kind]
      split
      · refine Foretells.bind
          (value t rest (Nat.lt_of_lt_of_le le hr) beside meets.kind meets.plain meets.ahead) ?_
        rintro ⟨v, p, hp⟩ ⟨v', p', hp'⟩ ⟨copies, reaches'⟩
        have shorter : p.length ≤ s.length :=
          Nat.le_trans hp (Nat.le_of_lt (Nat.lt_of_lt_of_le le hr))
        refine Foretells.bind (items p shorter beside reaches'.ahead) ?_
        rintro ⟨vs, q, hq⟩ ⟨vs', q', hq'⟩ ⟨more, reaches''⟩
        exact .pure ⟨.cons copies more, (reaches''.after reaches'.past).after behind⟩
      · exact .throw

theorem foretells_readItems (breaks : Breaks w)
    (joined : ∀ r : List Item, r.length < s.length → ForetellsJoined w c [] r)
    (items : ∀ r : List Item, r.length < s.length → ForetellsItems w c r)
    (value : ∀ (t : Item) (rest : List Item), (t :: rest).length < s.length →
      ForetellsValue w c t [] rest) : ForetellsItems w c s := by
  intro c' s' beside ahead
  rw [readItems, readItems]
  refine .separate beside breaks ahead (fun _ => ?_) (fun _ => .throw) ?_
  · exact fails_joined beside.left List.dropWhile_nil fun _ => fails_skip fun _ => .throw
  intro separation separation' together
  cases separation with
  | missing r =>
    cases separation' with
    | found => exact together.elim
    | missing r' =>
      obtain ⟨r, hr⟩ := r
      obtain ⟨r', hr'⟩ := r'
      obtain ⟨present, past, ahead⟩ := together
      cases ahead with
      | done => exact absurd rfl present
      | @item t t' rest rest' kind plain ahead =>
        simp only [kind]
        split
        · next closes =>
          have clean : Clean t := fun p problem => by
            rw [closes] at problem
            cases problem
          exact .pure ⟨.nil, past.trans (.tail clean rest), ahead⟩
        · exact .throw
  | found r =>
    cases separation' with
    | missing => exact together.elim
    | found r' =>
      obtain ⟨r, hr⟩ := r
      obtain ⟨r', hr'⟩ := r'
      obtain ⟨past, ahead⟩ := together
      simp only []
      refine .joined beside ahead (joined r hr) (fun _ => fails_skip fun _ => .throw) ?_
      rintro ⟨u, q, hq⟩ ⟨u', q', hq'⟩ ⟨related, further⟩
      have reaches : Reaches w s q q' := further.after past
      cases related with
      | some copies =>
        refine Foretells.bind (items q (Nat.lt_of_le_of_lt hq hr) beside reaches.ahead) ?_
        rintro ⟨vs, p, hp⟩ ⟨vs', p', hp'⟩ ⟨more, reaches'⟩
        exact .pure ⟨.cons copies more, reaches'.after reaches.past⟩
      | none =>
        simp only []
        refine .skip beside breaks reaches.ahead (fun _ _ => .throw) ?_
        intro t rest t' rest' le le' meets
        simp only [opensValue_congr t t' meets.kind]
        have lt : (t :: rest).length < s.length := Nat.lt_of_le_of_lt (Nat.le_trans le hq) hr
        have behind : Past s rest := reaches.past.trans meets.behind
        split
        · refine Foretells.bind
            (value t rest lt beside meets.kind meets.plain meets.ahead) ?_
          rintro ⟨v, p, hp⟩ ⟨v', p', hp'⟩ ⟨copies, reaches'⟩
          have shorter : p.length < s.length := by
            rw [List.length_cons] at lt
            omega
          refine Foretells.bind (items p shorter beside reaches'.ahead) ?_
          rintro ⟨vs, p, hp⟩ ⟨vs', p', hp'⟩ ⟨more, reaches''⟩
          exact .pure ⟨.cons copies more, (reaches''.after reaches'.past).after behind⟩
        · simp only [meets.kind, beside.left.syn, beside.right.syn]
          split
          · exact .pure ⟨.nil, behind, meets.ahead⟩
          · exact .throw

theorem foretells_readFieldValue (breaks : Breaks w) {comments : List String}
    (joined : ForetellsJoined w c comments s)
    (value : ∀ (t : Item) (rest : List Item), rest.length < s.length →
      ForetellsValue w c t comments rest) : ForetellsFieldValue w c comments s := by
  intro c' comments' s' beside ahead
  rw [readFieldValue, readFieldValue]
  refine .joined beside ahead joined (fun _ => fails_skip fun _ => .throw) ?_
  rintro ⟨u, r, hr⟩ ⟨u', r', hr'⟩ ⟨related, reaches⟩
  cases related with
  | some copies => exact .pure ⟨copies, reaches⟩
  | none =>
    simp only []
    refine .skip beside breaks reaches.ahead (fun _ _ => .throw) ?_
    intro t rest t' rest' le le' meets
    have behind : Past s rest := reaches.past.trans meets.behind
    refine Foretells.bind
      (value t rest (Nat.lt_of_lt_of_le le hr) beside meets.kind meets.plain meets.ahead) ?_
    rintro ⟨v, p, hp⟩ ⟨v', p', hp'⟩ ⟨copies, reaches'⟩
    exact .pure ⟨copies, reaches'.after behind⟩

/-- The last step of reading a field puts copies over the fields so far. -/
theorem foretells_putField (beside : c.Beside c') (f f' : Fields) (t t' : Item) (key : Path)
    {v v' : Value} (copies : v.Copies v') (afterEquals afterEquals' : Bool) :
    Foretells (fun g g' => Overlays f.entries g.entries f'.entries g'.entries)
      (liftM (do
        let entries ← putField c f.entries t key v
        return { f with entries, lastKey := some key, lastAfterEquals := afterEquals } :
          Except Error Fields))
      (liftM (do
        let entries ← putField c' f'.entries t' key v'
        return { f' with entries, lastKey := some key, lastAfterEquals := afterEquals' } :
          Except Error Fields)) := by
  rw [putField_eq beside.left.syn, putField_eq beside.right.syn]
  exact .pure ⟨[(key.first, nest v key.rest)], [(key.first, nest v' key.rest)],
    .cons ⟨rfl, copies.nest key.rest⟩ .nil, rfl, rfl⟩

theorem isKeySeparator_congr (beside : c.Beside c') (t t' : Item) (kind : t'.kind = t.kind) :
    isKeySeparator c' t' = isKeySeparator c t := by
  rw [isKeySeparator, isKeySeparator, kind, beside.left.syn, beside.right.syn]

theorem foretells_readField (breaks : Breaks w) {f : Fields} {t : Item}
    (value : ∀ (key : Path) (u : Item) (rest : List Item), rest.length < s.length →
      ForetellsValue w (c.enter key) u t.comments rest)
    (fieldValue : ∀ (key : Path) (u : Item) (rest : List Item), rest.length < s.length →
      ForetellsFieldValue w { c.enter key with afterEquals := c.afterEquals || u.kind.isEquals }
        (t.comments ++ u.comments) rest) : ForetellsField w c f t s := by
  intro c' f' t' s' beside kind ahead
  rw [readField, readField]
  refine (foretells_readKey beside breaks kind ahead).bind ?_
  rintro ⟨key, r, hr⟩ ⟨key', r', hr'⟩ ⟨clean, same, reaches⟩
  cases (same : key = key')
  refine .skip beside breaks reaches.ahead (fun _ _ => .throw) ?_
  intro u rest u' rest' le le' meets
  have lt : rest.length < s.length := Nat.lt_of_lt_of_le le hr
  have behind : Past s rest := reaches.past.trans meets.behind
  have inner : (c.enter key).Beside (c'.enter key) :=
    ⟨⟨beside.left.syn, beside.left.stop⟩, ⟨beside.right.syn, beside.right.stop⟩, beside.refused⟩
  simp only [meets.kind, beside.left.syn, beside.right.syn]
  split
  · refine Foretells.bind (value key u rest lt inner meets.kind meets.plain meets.ahead) ?_
    rintro ⟨v, p, hp⟩ ⟨v', p', hp'⟩ ⟨copies, reaches'⟩
    refine (foretells_putField beside f f' t t' key copies _ _).bind fun g g' overlays => ?_
    exact .pure ⟨overlays, reaches'.after behind⟩
  · rw [isKeySeparator_congr beside u u' meets.kind]
    split
    · have single : u.kind.isPlusEquals = false := by
        have plain := meets.plain
        cases hu : u.kind <;> rw [hu] at plain <;> first | rfl | cases plain
      simp only [single, Bool.false_eq_true, if_false, pure_bind]
      have inner : ({ c.enter key with afterEquals := c.afterEquals || u.kind.isEquals } :
          Context).Beside { c'.enter key with afterEquals := c'.afterEquals || u.kind.isEquals } :=
        ⟨⟨beside.left.syn, beside.left.stop⟩, ⟨beside.right.syn, beside.right.stop⟩,
          beside.refused⟩
      refine Foretells.bind (fieldValue key u rest lt inner meets.ahead) ?_
      rintro ⟨v, p, hp⟩ ⟨v', p', hp'⟩ ⟨copies, reaches'⟩
      refine (foretells_putField beside f f' t t' key copies _ _).bind fun g g' overlays => ?_
      exact .pure ⟨overlays, reaches'.after behind⟩
    · exact .throw

theorem fails_readFields_nil (f : Fields) : Fails (readFields c true f []) := by
  rw [readFields]
  exact fails_skip fun _ => .throw

theorem foretells_readFields (breaks : Breaks w) {braced : Bool} {f : Fields}
    (fields : ∀ (g : Fields) (t : Item) (rest q p : List Item), (t :: rest).length ≤ s.length →
      q.length ≤ rest.length → p.length < q.length →
      ForetellsFields w c braced { g with afterSeparator := true } p)
    (field : ∀ (t : Item) (rest : List Item), rest.length < s.length → ForetellsField w c f t rest) :
    ForetellsFields w c braced f s := by
  rintro rfl c' f' s' beside ahead
  rw [readFields, readFields]
  refine .skip beside breaks ahead (fun _ _ => .throw) ?_
  intro t rest t' rest' le le' meets
  simp only [meets.kind, beside.left.syn, beside.right.syn, reduceCtorEq, false_and, if_false,
    Bool.not_true, Bool.false_eq_true]
  split
  · exact .pure ⟨.refl _ _, meets.behind, meets.ahead⟩
  · split
    · exact .of_fails ((fails_readInclude beside.refused _ t rest).bind_left _)
    · refine Foretells.bind (field t rest le beside meets.kind meets.ahead) ?_
      rintro ⟨g, q, hq⟩ ⟨g', q', hq'⟩ ⟨overlays, further⟩
      have reaches : Reaches w s q q' := further.after meets.behind
      simp only []
      refine .separate beside breaks reaches.ahead (fun _ => ?_) (fun _ => .throw) ?_
      · exact (fails_readFields_nil _).bind_left _
      intro separation separation' together
      cases separation with
      | found p =>
        cases separation' with
        | missing => exact together.elim
        | found p' =>
          obtain ⟨p, hp⟩ := p
          obtain ⟨p', hp'⟩ := p'
          simp only []
          refine Foretells.bind (fields g t rest q p le hq hp rfl beside together.ahead) ?_
          rintro ⟨es, r, hr⟩ ⟨es', r', hr'⟩ ⟨more, reaches'⟩
          exact .pure ⟨overlays.trans more, (reaches'.after together.past).after reaches.past⟩
      | missing p =>
        cases separation' with
        | found => exact together.elim
        | missing p' =>
          obtain ⟨p, hp⟩ := p
          obtain ⟨p', hp'⟩ := p'
          obtain ⟨present, past, ahead⟩ := together
          cases ahead with
          | done => exact absurd rfl present
          | @item u u' last last' kind plain ahead =>
            simp only [kind]
            split
            · next closes =>
              have clean : Clean u := fun p problem => by
                rw [closes] at problem
                cases problem
              exact .pure ⟨overlays, (reaches.past.trans past).trans (.tail clean last), ahead⟩
            · exact .throw

theorem foretells_readValue {t : Item} {comments : List String}
    (fields : t.kind = .openBrace → ForetellsFields w c true {} s)
    (list : t.kind = .openBracket → ForetellsList w c s) : ForetellsValue w c t comments s := by
  intro c' t' comments' s' beside kind plain ahead
  rw [readValue, readValue]
  simp only [kind]
  split
  · exact .pure ⟨(Copies.literal _ _ _).withComments _ _, .refl s, ahead⟩
  · exact .pure ⟨(Copies.bareText _ _ _).withComments _ _, .refl s, ahead⟩
  · next reference =>
    rw [reference] at plain
    cases plain
  · next brace =>
    refine Foretells.bind (@fields brace rfl c' {} s' beside ahead) ?_
    intro ⟨es, r, hr⟩ ⟨es', r', hr'⟩ ⟨overlays, reaches⟩
    exact .pure ⟨(overlays.ofFields _ _).withComments _ _, reaches⟩
  · next bracket =>
    refine Foretells.bind (list bracket beside ahead) ?_
    intro ⟨xs, r, hr⟩ ⟨xs', r', hr'⟩ ⟨copies, reaches⟩
    exact .pure ⟨(Copies.ofItems copies _ _).withComments _ _, reaches⟩
  · exact .throw

/-- **The grammar of fields** reads the same items elsewhere as copies. -/
theorem foretold (breaks : Breaks w) :
    (∀ c t comments s, ForetellsValue w c t comments s) ∧
    (∀ c s, ForetellsList w c s) ∧
    (∀ c s, ForetellsItems w c s) ∧
    (∀ c comments s, ForetellsJoined w c comments s) ∧
    (∀ c first s, ForetellsPieces w c first s) ∧
    (∀ c braced f s, ForetellsFields w c braced f s) ∧
    (∀ c f t s, ForetellsField w c f t s) ∧
    (∀ c comments s, ForetellsFieldValue w c comments s) := by
  refine readValue.mutual_induct _ _ _ _ _ _ _ _ ?literal ?bare ?substitution ?brace ?bracket ?other
    ?list ?items ?joined ?noPieces ?pieces ?lastPiece ?fields ?field ?fieldValue
  case literal =>
    intro c t comments s literal kind
    exact foretells_readValue (by rw [kind]; rintro ⟨⟩) (by rw [kind]; rintro ⟨⟩)
  case bare =>
    intro c t comments s text kind
    exact foretells_readValue (by rw [kind]; rintro ⟨⟩) (by rw [kind]; rintro ⟨⟩)
  case substitution =>
    intro c t comments s optional expression kind
    exact foretells_readValue (by rw [kind]; rintro ⟨⟩) (by rw [kind]; rintro ⟨⟩)
  case brace =>
    intro c t comments s kind fields
    exact foretells_readValue (fun _ => fields) (by rw [kind]; rintro ⟨⟩)
  case bracket =>
    intro c t comments s kind list
    exact foretells_readValue (by rw [kind]; rintro ⟨⟩) (fun _ => list)
  case other =>
    intro c t comments s _ _ _ brace bracket
    exact foretells_readValue (fun kind => absurd kind brace) (fun kind => absurd kind bracket)
  case list =>
    intro c s joined items value _
    exact foretells_readList breaks joined items fun t rest lt => value s (Nat.le_refl _) [] t rest lt
  case items =>
    intro c s joined items value _
    exact foretells_readItems breaks joined (fun r lt => items _ lt _ (Nat.le_refl _)) fun t rest lt =>
      value (t :: rest) lt (t :: rest) (Nat.le_refl _) [] t rest (Nat.le_refl _)
  case joined => exact fun c comments s pieces => foretells_readJoined breaks pieces
  case noPieces => exact fun c first => foretells_readPieces_nil breaks first
  case pieces =>
    intro c first t rest _ u value pieces
    exact foretells_readPieces_cons breaks (fun _ => value) fun _ => pieces
  case lastPiece =>
    intro c first t rest last
    exact foretells_readPieces_cons breaks (fun continues => absurd continues last)
      fun continues => absurd continues last
  case fields =>
    intro c braced f s fields field
    exact foretells_readFields breaks
      (fun g t rest q p hr hq hp => fields [] t rest hr g q hq p hp) fun t rest lt => field [] t rest lt
  case field =>
    intro c f t s value fieldValue
    exact foretells_readField breaks (fun key u rest lt => value key s (Nat.le_refl _) [] u rest lt)
      fun key u rest lt => fieldValue key s (Nat.le_refl _) [] u rest lt u.kind
  case fieldValue =>
    intro c comments s joined value
    exact foretells_readFieldValue breaks joined fun t rest lt => value s (Nat.le_refl _) [] t rest lt

end Grammar

end Document

end Hocon
