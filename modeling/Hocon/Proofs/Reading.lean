import Hocon.Loading
import Hocon.Proofs.Merging
import Hocon.Proofs.Tokens

/-!
# Reading a document

What is read from a text is a well formed tree without marks, if the trees that answer its include
statements are such trees; and it is the same tree if the statements are answered alike.  Both are
one fact about the grammar, `Document.read_tracks`: each function of it, where it gives a value at
all, gives a well formed one, and gives the same with other answers that track these.

A document is read alone if every include statement is refused.  Any answers track refusals, so
what is read alone is the tree that the document gives anywhere.
-/

namespace Hocon

open Value

/-! ### Trees without marks -/

/-- The references and concatenations that a text has itself are among the queries. -/
class Value.Written (query : Value → Prop) : Prop where
  reference : ∀ p target, query (reference p { target })
  concat : ∀ p ps, query (concat p ps)
  withProv : ∀ v p, query v → query (v.withProv p)

instance : Value.Written (Plain True) where
  reference _ _ := ⟨rfl, fun _ => trivial⟩
  concat _ _ := trivial
  withProv v _ hv := by cases v <;> exact hv

instance : Value.Written fun _ => True where
  reference _ _ := trivial
  concat _ _ := trivial
  withProv _ _ _ := trivial

/-- A tree as a document gives it. -/
abbrev Value.FromText (query : Value → Prop) (v : Value) : Prop :=
  v.Sound (.ofTexts query) True fun _ => none

namespace Value.FromText

variable {query : Value → Prop} {v : Value}

theorem withOrigin [written : Written query] (h : v.FromText query) {o : Origin}
    (lines : o.Commented IsLine) : (v.withOrigin o).FromText query where
  wellFormed := h.wellFormed.withOrigin written.withProv lines
  markable := by
    have parts : (v.withOrigin o).parts = v.parts := by cases v <;> rfl
    refine .fresh (by cases v <;> rfl) (fun _ => trivial) ?_
    rw [parts]
    exact h.markable.parts

theorem leaf {v : Value} (wf : v.WellFormed (.ofTexts query)) (mark : v.mark = none)
    (parts : v.parts = []) : v.FromText query where
  wellFormed := wf
  markable := .fresh mark (fun _ => trivial) (by rw [parts]; exact List.forall_mem_nil _)

theorem literalValue {o : Origin} (lines : o.Commented IsLine) {literal : Literal}
    (h : (TokenKind.value literal).Genuine) : (Document.literalValue o literal).FromText query := by
  cases literal with
  | null => exact leaf (.null lines) rfl rfl
  | bool b => exact leaf (.bool lines b) rfl rfl
  | whole n text => exact leaf (.number lines h) rfl rfl
  | double d text => exact leaf (.number lines h) rfl rfl
  | string text => exact leaf (.string lines _ _) rfl rfl

theorem bareText {o : Origin} (lines : o.Commented IsLine) (text : String) :
    (Value.bareText o text).FromText query :=
  leaf (.string lines _ _) rfl rfl

theorem ofReference [written : Written query] {o : Origin} (lines : o.Commented IsLine)
    (target : PathReference) : (Value.ofReference o target).FromText query :=
  leaf (.reference lines (written.reference _ _)) rfl rfl

theorem withComments [Written query] (h : v.FromText query) {comments : List String}
    (lines : Lines comments) : (Document.withComments v comments).FromText query := by
  unfold Document.withComments
  split
  · exact h
  · exact h.withOrigin (List.forall_mem_append.2 ⟨lines, h.wellFormed.lines⟩)

/-- Pieces beside each other give such a tree too. -/
theorem concatenate [written : Written query] {pieces : List Value}
    (h : ∀ x ∈ pieces, x.FromText query)
    (hv : Value.concatenate pieces = .ok (some v)) : v.FromText query := by
  unfold Value.concatenate at hv
  split at hv
  · cases hv
  · cases hv
  · next w hw =>
    cases hv
    exact Sound.joinClosed.joinRun h hw _ List.mem_cons_self
  · next ws _ _ hws =>
    have pieces := Sound.joinClosed.joinRun h hws
    cases hv
    have lines :
        ((Origin.mergeAll? (ws.map origin)).getD (.named "concatenation")).Commented IsLine := by
      cases ho : Origin.mergeAll? (ws.map origin) with
      | none => exact .of_nil rfl
      | some o =>
        intro t ht
        obtain ⟨o', ho', ht⟩ := Origin.mem_comments_mergeAll? ho ht
        obtain ⟨w, hw, rfl⟩ := List.mem_map.1 ho'
        exact (pieces w hw).wellFormed.lines t ht
    exact ⟨.concat lines (written.concat _ _) fun x hx => (pieces x hx).wellFormed,
      .fresh rfl (fun _ => trivial) fun x hx => (pieces x hx).markable⟩

end Value.FromText

/-- Whether this may be a value that is read for itself: it is neither joined from others nor
merged, and open to fallbacks if it is an object. -/
def Value.isPiece : Value → Bool
  | object _ closed _ => !closed
  | concat _ _ => false
  | merge _ _ _ => false
  | _ => true

@[simp] theorem Document.isPiece_withComments (v : Value) (comments : List String) :
    (withComments v comments).isPiece = v.isPiece := by
  unfold withComments
  split
  · rfl
  · cases v <;> rfl

/-- A property that the tree of a document has if the trees have it that it is put together
from. -/
class Document.Grammatical (P : Value → Prop) : Prop where
  lines {v : Value} (h : P v) : v.origin.Commented IsLine
  parts {v : Value} (h : P v) : ∀ u ∈ v.parts, P u
  literal {o : Origin} (lines : o.Commented IsLine) {literal : Literal}
    (genuine : (TokenKind.value literal).Genuine) : P (literalValue o literal)
  bare {o : Origin} (lines : o.Commented IsLine) (text : String) : P (bareText o text)
  reference {o : Origin} (lines : o.Commented IsLine) (target : PathReference) :
    P (ofReference o target)
  fields {o : Origin} (lines : o.Commented IsLine) {fs : Entries Value}
    (nodup : (Entries.keys fs).Nodup) (fields : ∀ k v, (k, v) ∈ fs → P v) : P (ofFields o fs)
  items {o : Origin} (lines : o.Commented IsLine) {xs : List Value} (items : ∀ x ∈ xs, P x) :
    P (ofItems o xs)
  concatenate {ps : List Value} (pieces : ∀ x ∈ ps, P x ∧ x.isPiece = true) {v : Value}
    (h : Value.concatenate ps = .ok (some v)) : P v
  withFallback {v w : Value} (hv : P v) (hw : P w) : P (v.withFallback w)
  withComments {v : Value} (h : P v) {comments : List String} (lines : Lines comments) :
    P (withComments v comments)

/-- A document gives well formed trees without marks. -/
instance Document.grammatical_fromText {query : Value → Prop} [Written query] :
    Grammatical (FromText query) where
  lines h := h.wellFormed.lines
  parts h := h.parts
  literal := FromText.literalValue
  bare := FromText.bareText
  reference := FromText.ofReference
  fields lines _ nodup fields := .ofFields rfl lines nodup fields
  items lines _ items := .ofItems lines items
  concatenate pieces _ h := FromText.concatenate (fun x hx => (pieces x hx).1) h
  withFallback hv hw := hv.withFallback hw
  withComments h := h.withComments

/-- Fields as a document gives them. -/
structure Document.FieldsAre (P : Value → Prop) (fs : Entries Value) : Prop where
  nodup : (Entries.keys fs).Nodup
  fields : ∀ k v, (k, v) ∈ fs → P v

namespace Document.FieldsAre

variable {P : Value → Prop}

theorem nil : FieldsAre P [] := ⟨List.nodup_nil, nofun⟩

theorem put {fs : Entries Value} (h : FieldsAre P fs) (key : String) {v : Value}
    (hv : P v) : FieldsAre P (Entries.put fs key v) := by
  have nodup := Entries.nodup_keys_put h.nodup key v
  refine ⟨nodup, fun k u hu => ?_⟩
  have hu := Entries.get?_of_mem nodup hu
  rw [Entries.get?_put] at hu
  split at hu
  · cases hu
    exact hv
  · exact h.fields k u (Entries.mem_of_get? hu)

variable [grammatical : Grammatical P]

theorem ofFields {fs : Entries Value} (h : FieldsAre P fs) {o : Origin}
    (lines : o.Commented IsLine) : P (Value.ofFields o fs) :=
  grammatical.fields lines h.nodup h.fields

theorem nest {v : Value} (h : P v) (keys : List String) : P (Document.nest v keys) := by
  unfold Document.nest
  induction keys with
  | nil => exact h
  | cons key keys ih => exact (nil.put key ih).ofFields (.of_nil rfl)

theorem putField {c : Context} {fs fs' : Entries Value} (h : FieldsAre P fs) {t : Item}
    {key : Path} {v : Value} (hv : P v) (hf : Document.putField c fs t key v = .ok fs') :
    FieldsAre P fs' := by
  have nested : P (Document.nest v key.rest) := nest hv _
  unfold Document.putField at hf
  split at hf
  · cases hf
    exact h.put _ nested
  · next earlier he =>
    split at hf
    · cases hf
    · cases hf
      exact h.put _ (grammatical.withFallback nested (h.fields _ _ (Entries.mem_of_get? he)))

end Document.FieldsAre

namespace Document

variable {P : Value → Prop}

theorem grammatical_appended [grammatical : Grammatical P] {c : Context} {key : Path}
    {v w : Value} (hv : P v) (h : appended c key v = .ok w) : P w := by
  have lines := grammatical.lines hv
  unfold appended at h
  simp only [] at h
  split at h
  · cases h
  · next w' hw =>
    cases h
    refine grammatical.concatenate (fun x hx => ?_) hw
    rcases List.mem_cons.1 hx with rfl | hx
    · exact ⟨grammatical.reference lines _, rfl⟩
    · rw [List.mem_singleton.1 hx]
      exact ⟨grammatical.items lines (List.forall_mem_singleton.2 hv), rfl⟩
  · cases h

/-! ### Reading alone and reading anywhere -/

/-- The same place in a document whose include statements are answered in another way. -/
abbrev Context.answering (c : Context) (answer : IncludeRequest → Loading Value) : Context :=
  { c with answer }

/-- What is let pass where a computation is to do the same as another. -/
inductive Leeway
  /-- That it does anything else where the other fails. -/
  | failures
  /-- That it fails because documents include each other too deeply. -/
  | depth

/-- The failure where documents include each other too deeply. -/
def IsTooDeep (e : Error) : Prop :=
  ∃ o limit chain hint place, e = .parse o (.includesTooDeep limit chain) hint place

/-- Two endings of computations are the same, and if they are results, of the property `P`; but
for what is let pass. -/
inductive Leeway.Allows {α : Type} (P : α → Prop) : Leeway →
    Except Error α × List IncludeRecord → Except Error α × List IncludeRecord → Prop
  | same {l : Leeway} {r : Except Error α × List IncludeRecord} (h : ∀ a, r.1 = .ok a → P a) :
      Allows P l r r
  | failure (e : Error) (m : List IncludeRecord) (r : Except Error α × List IncludeRecord) :
      Allows P .failures (.error e, m) r
  | tooDeep (r : Except Error α × List IncludeRecord) {e : Error} (deep : IsTooDeep e)
      (m : List IncludeRecord) : Allows P .depth r (.error e, m)

/-- `y` does the same as `x`, with results of the property `P`, but for what is let pass. -/
def Tracks {α : Type} (l : Leeway) (x y : Loading α) (P : α → Prop) : Prop :=
  ∀ m, l.Allows P (x.run.run m) (y.run.run m)

namespace Tracks

variable {α β : Type} {l : Leeway} {x y : Loading α} {P : α → Prop} {Q : β → Prop}

/-- The other computation gives the results of the one. -/
theorem eq (h : Tracks .failures x y P) {m m' : List IncludeRecord} {a : α}
    (ha : x.run.run m = (.ok a, m')) : P a ∧ y.run.run m = (.ok a, m') := by
  have := h m
  rw [ha] at this
  generalize y.run.run m = q at this ⊢
  cases this with
  | same h => exact ⟨h a rfl, rfl⟩

/-- What is said of a result. -/
theorem result (h : Tracks l x x P) {m m' : List IncludeRecord} {a : α}
    (ha : x.run.run m = (.ok a, m')) : P a := by
  have := h m
  rw [ha] at this
  cases this with
  | same h => exact h a rfl

protected theorem pure {a : α} (h : P a) : Tracks l (pure a) (pure a) P := fun m =>
  .same (r := (.ok a, m)) fun b hb => by
    cases hb
    exact h

protected theorem throw {e : Error} : Tracks l (throw e) (throw e) P := fun m =>
  .same (r := (.error e, m)) nofun

/-- A computation does the same as itself. -/
theorem of_results (h : ∀ m a m', x.run.run m = (.ok a, m') → P a) : Tracks l x x P := fun m =>
  .same fun a ha => h m a (x.run.run m).2 (Prod.ext ha rfl)

/-- A computation that does not look at includes. -/
theorem of_ok (e : Except Error α) (h : ∀ a, e = .ok a → P a) :
    Tracks l (liftM e) (liftM e) P := by
  cases e with
  | error e => exact .throw
  | ok a => exact .pure (h a rfl)

protected theorem mono {P' : α → Prop} (hx : Tracks l x y P) (h : ∀ a, P a → P' a) :
    Tracks l x y P' := by
  intro m
  generalize hp : x.run.run m = p
  generalize hq : y.run.run m = q
  have := hx m
  rw [hp, hq] at this
  cases this with
  | same all => exact .same fun a ha => h a (all a ha)
  | failure e m' => exact .failure e m' q
  | tooDeep _ deep m' => exact .tooDeep p deep m'

protected theorem bind {f g : α → Loading β} (hx : Tracks l x y P)
    (h : ∀ a, P a → Tracks l (f a) (g a) Q) : Tracks l (x >>= f) (y >>= g) Q := by
  intro m
  simp only [ExceptT.run_bind, StateT.run_bind]
  generalize hp : x.run.run m = p
  generalize hq : y.run.run m = q
  have := hx m
  rw [hp, hq] at this
  obtain ⟨r, m'⟩ := p
  cases this with
  | same all =>
    cases r with
    | error e => exact .same (r := (.error e, m')) nofun
    | ok a => exact h a (all a rfl) m'
  | failure e => exact .failure e m' _
  | tooDeep _ deep m'' => exact .tooDeep _ deep m''

end Tracks

/-- A computation that gives no result. -/
def Fails {α : Type} (x : Loading α) : Prop := ∀ m a m', x.run.run m ≠ (.ok a, m')

namespace Fails

variable {α β : Type} {x : Loading α}

protected theorem throw {e : Error} : Fails (throw e : Loading α) := nofun

theorem tracks {y : Loading α} {P : α → Prop} (h : Fails x) : Tracks .failures x y P := by
  intro m
  rcases hx : x.run.run m with ⟨e | a, m'⟩
  · exact .failure e m' _
  · exact (h m a m' hx).elim

protected theorem bind {f : α → Loading β} (h : ∀ a, Fails (f a)) :
    Fails (x >>= f) := by
  intro m b m'' hb
  simp only [ExceptT.run_bind, StateT.run_bind] at hb
  rcases hr : x.run.run m with ⟨e | a, m'⟩ <;> rw [hr] at hb
  · cases hb
  · exact h a m' b m'' hb

/-- A computation that fails and whose failure is looked at, but not mended. -/
theorem attempt {f : Except Error α → Loading β} (h : Fails x)
    (error : ∀ e, Fails (f (.error e))) :
    Fails (liftM (x.run : StateM (List IncludeRecord) (Except Error α)) >>= f) := by
  intro m b m'' hb
  rcases hr : x.run.run m with ⟨e | a, m'⟩
  · refine error e m' b m'' ?_
    rw [← hb]
    show _ = (f (x.run.run m).1).run.run (x.run.run m).2
    rw [hr]
  · exact h m a m' hr

/-- Where the first step fails, nothing follows. -/
theorem bind_left (h : Fails x) (f : α → Loading β) :
    Fails (x >>= f) := by
  intro m b m'' hb
  simp only [ExceptT.run_bind, StateT.run_bind] at hb
  rcases hr : x.run.run m with ⟨e | a, m'⟩ <;> rw [hr] at hb
  · cases hb
  · exact h m a m' hr

end Fails

/-- A computation whose outcome is looked at; a failure remains one, and one of includes that are
too deep remains what it is. -/
theorem Tracks.attempt {α β : Type} {l : Leeway} {x y : Loading α} {P : α → Prop} {Q : β → Prop}
    {f g : Except Error α → Loading β} (hx : Tracks l x y P)
    (ok : ∀ a, P a → Tracks l (f (.ok a)) (g (.ok a)) Q)
    (error : ∀ e, ∃ e', f (.error e) = throw e' ∧ g (.error e) = throw e'
      ∧ (IsTooDeep e → IsTooDeep e')) :
    Tracks l (liftM (x.run : StateM (List IncludeRecord) (Except Error α)) >>= f)
      (liftM (y.run : StateM (List IncludeRecord) (Except Error α)) >>= g) Q := by
  intro m
  show l.Allows Q ((f (x.run.run m).1).run.run (x.run.run m).2)
    ((g (y.run.run m).1).run.run (y.run.run m).2)
  generalize hp : x.run.run m = p
  generalize hq : y.run.run m = q
  have := hx m
  rw [hp, hq] at this
  obtain ⟨r, m'⟩ := p
  cases this with
  | same all =>
    cases r with
    | error e =>
      obtain ⟨e', hf, hg, -⟩ := error e
      rw [hf, hg]
      exact Tracks.throw m'
    | ok a => exact ok a (all a rfl) m'
  | failure e =>
    obtain ⟨e', hf, -, -⟩ := error e
    rw [hf]
    exact .failure e' m' _
  | @tooDeep _ e deep m'' =>
    obtain ⟨e', -, hg, still⟩ := error e
    rw [hg]
    exact .tooDeep _ (still deep) m''

/-- A place in a document where includes give well formed trees without marks, if anything, and
`answer` gives the same trees. -/
structure Context.Relies (l : Leeway) (P : Value → Prop)
    (answer : IncludeRequest → Loading Value) (c : Context) : Prop where
  tracks : ∀ request, Tracks l (c.answer request) (answer request) fun v =>
    P v ∧ ∀ place : Path, P (v.relocate place)
  lines : c.origin.Commented IsLine
  stop : Lines c.stop.comments

theorem Context.Relies.originAt {l : Leeway} {P : Value → Prop}
    {answer : IncludeRequest → Loading Value} {c : Context} (h : c.Relies l P answer) (line : Nat) :
    (c.originAt line).Commented IsLine := h.lines

/-- All items are as texts have them. -/
abbrev GenuineItems (s : List Item) : Prop := ∀ t ∈ s, t.Genuine

variable {l : Leeway} {c : Context} {answer : IncludeRequest → Loading Value}

theorem tracks_checkFront (s : List Item) :
    Tracks l (checkFront c s) (checkFront (c.answering answer) s) fun _ => True :=
  .of_results fun _ _ _ _ => trivial

theorem tracks_skipNewlines {s : List Item} (hs : GenuineItems s) :
    Tracks l (skipNewlines c s) (skipNewlines (c.answering answer) s)
      fun r => GenuineItems r.val :=
  (tracks_checkFront _).bind fun _ _ =>
    .pure fun t ht => hs t ((List.dropWhile_sublist _).subset ht)

/-- The items behind a separator, or where one is missing. -/
def Separation.GenuineRest {s : List Item} : Separation s → Prop
  | .found r => GenuineItems r.val
  | .missing r => GenuineItems r.val

theorem tracks_readSeparator {s : List Item} (hs : GenuineItems s) :
    Tracks l (readSeparator c s) (readSeparator (c.answering answer) s)
      Separation.GenuineRest := by
  unfold readSeparator
  refine (tracks_skipNewlines hs).bind fun r hr => ?_
  have other : Separation.GenuineRest (s := s)
      (if h : c.syn ≠ .json ∧ r.val.length < s.length then .found ⟨r.val, h.2⟩
        else .missing r) := by
    split <;> exact hr
  obtain ⟨r, le⟩ := r
  cases r with
  | nil => exact .pure other
  | cons t rest =>
    simp only []
    split
    · exact .pure (List.forall_mem_cons.1 hr).2
    · exact .pure other

theorem tracks_readKey {t : Item} {s : List Item} (hs : GenuineItems s) :
    Tracks l (readKey c t s) (readKey (c.answering answer) t s) fun r => GenuineItems r.2.val := by
  unfold readKey
  split
  · split
    · exact .pure hs
    · exact .throw
  · split
    · refine (tracks_checkFront _).bind fun _ _ => ?_
      refine (Tracks.of_ok (P := fun _ => True) _ fun _ _ => trivial).bind fun _ _ => ?_
      exact .pure fun t ht => hs t ((List.dropWhile_sublist _).subset ht)
    · exact .throw

/-- Putting a value over the fields so far, as reading a field does in the end. -/
theorem tracks_putField [Grammatical P] {f : Fields} (hf : FieldsAre P f.entries) {t : Item} {key : Path}
    {v : Value} (hv : P v) {g : Entries Value → Fields}
    (entries : ∀ fs, (g fs).entries = fs) :
    Tracks l (liftM do return g (← putField c f.entries t key v) : Loading Fields)
      (liftM do return g (← putField (c.answering answer) f.entries t key v) : Loading Fields)
      fun f => FieldsAre P f.entries := by
  refine .of_ok _ fun f' h => ?_
  rcases hfs : putField c f.entries t key v with e | fs <;> rw [hfs] at h <;> cases h
  show FieldsAre P (g fs).entries
  rw [entries]
  exact hf.putField hv hfs

theorem tracks_readIncludeName {words : String} {s : List Item} (hs : GenuineItems s) :
    Tracks l (readIncludeName c words s) (readIncludeName (c.answering answer) words s)
      fun r => GenuineItems r.2.val := by
  obtain ⟨n, hn⟩ : ∃ n, s.length = n := ⟨_, rfl⟩
  induction n using Nat.strongRecOn generalizing s words with
  | ind n ih =>
    rw [readIncludeName, readIncludeName]
    refine (tracks_skipNewlines hs).bind fun ⟨r, le⟩ genuine => ?_
    cases r with
    | nil => exact .throw
    | cons t rest =>
      have lt : rest.length < s.length := le
      obtain ⟨-, hrest⟩ := List.forall_mem_cons.1 genuine
      simp only []
      split
      · exact .pure hrest
      · exact (ih _ (hn ▸ lt) hrest rfl).bind fun _ spec => .pure spec
      · exact .throw

theorem tracks_readClosing {unclosed : Nat} {s : List Item} (hs : GenuineItems s) :
    Tracks l (readClosing c unclosed s) (readClosing (c.answering answer) unclosed s)
      fun r => GenuineItems r.val := by
  obtain ⟨n, hn⟩ : ∃ n, s.length = n := ⟨_, rfl⟩
  induction n using Nat.strongRecOn generalizing s unclosed with
  | ind n ih =>
    rw [readClosing, readClosing]
    split
    · exact .pure hs
    refine (tracks_skipNewlines hs).bind fun ⟨r, le⟩ genuine => ?_
    cases r with
    | nil => exact .throw
    | cons t rest =>
      have lt : rest.length < s.length := le
      obtain ⟨-, hrest⟩ := List.forall_mem_cons.1 genuine
      simp only []
      split
      · exact (ih _ (hn ▸ lt) hrest rfl).bind fun _ spec => .pure spec
      · split
        · split
          · exact (ih _ (hn ▸ lt) hrest rfl).bind fun _ spec => .pure spec
          · exact .throw
        · exact .throw

/-- The fields of a document with those of an included one over them. -/
theorem FieldsAre.includeFields [grammatical : Grammatical P] {fs included : Entries Value}
    (hf : FieldsAre P fs) (hi : ∀ k v, (k, v) ∈ included → P v) :
    FieldsAre P (includeFields fs included) := by
  unfold Document.includeFields
  induction included generalizing fs with
  | nil => exact hf
  | cons f included ih =>
    have hv := hi f.1 f.2 List.mem_cons_self
    refine ih (hf.put f.1 ?_) fun k v h => hi k v (List.mem_cons_of_mem _ h)
    split
    · next earlier he => exact grammatical.withFallback hv (hf.fields _ _ (Entries.mem_of_get? he))
    · exact hv

theorem tracks_readInclude [grammatical : Grammatical P] (hc : c.Relies l P answer) {fields : Entries Value}
    (hf : FieldsAre P fields) (keyword : Item) {s : List Item} (hs : GenuineItems s) :
    Tracks l (readInclude c fields keyword s)
      (readInclude (c.answering answer) fields keyword s)
      fun r => FieldsAre P r.1 ∧ GenuineItems r.2.val := by
  unfold readInclude
  refine (tracks_readIncludeName hs).bind ?_
  rintro ⟨n, r, le⟩ genuine
  refine (Tracks.of_ok (P := fun _ => True) _ fun _ _ => trivial).bind ?_
  rintro ⟨required, isFileName, depth⟩ -
  refine (tracks_readClosing genuine).bind ?_
  rintro ⟨q, le'⟩ genuine
  refine (hc.tracks _).attempt (fun v hv => ?_) fun e => ?_
  · simp only []
    have included {w : Value} {entries : Entries Value} (object : w.fields? = some entries)
        (hw : P w) : FieldsAre P (includeFields fields entries) := by
      obtain ⟨p, closed, rfl⟩ := eq_object_of_fields? object
      exact hf.includeFields fun k u hu => grammatical.parts hw u (mem_parts_of_mem_fields hu)
    have place : (c.answering answer).place? = c.place? := rfl
    rw [place]
    split
    · next object =>
      refine .pure ⟨included object ?_, genuine⟩
      split
      · exact hv.2 _
      · exact hv.1
    · exact .throw
  · simp only []
    split
    · refine ⟨_, rfl, rfl, ?_⟩
      rintro ⟨_, _, _, _, _, ⟨⟩⟩
    · exact ⟨e, rfl, rfl, id⟩

/-- A value and the items that are left, as a document gives them. -/
def ValueRead (P : Value → Prop) {s : List Item} (r : Value × Left s) : Prop :=
  P r.1 ∧ GenuineItems r.2.val

/-- A value that was read for itself. -/
abbrev Piece (P : Value → Prop) (v : Value) : Prop := P v ∧ v.isPiece = true

/-- Values and the items that are left, as a document gives them. -/
def ValuesRead (P : Value → Prop) {s : List Item} (r : List Value × Left s) : Prop :=
  (∀ v ∈ r.1, P v) ∧ GenuineItems r.2.val

/-! ### The grammar -/

section Grammar

variable (l : Leeway) (P : Value → Prop) (answer : IncludeRequest → Loading Value)

/-- What reading a value does. -/
def TracksValue (c : Context) (t : Item) (comments : List String) (s : List Item) : Prop :=
  c.Relies l P answer → t.Genuine → Lines comments → GenuineItems s →
    Tracks l (readValue c t comments s) (readValue (c.answering answer) t comments s)
      (ValueRead (Piece P))

/-- What reading a list behind its bracket does. -/
def TracksList (c : Context) (s : List Item) : Prop :=
  c.Relies l P answer → GenuineItems s →
    Tracks l (readList c s) (readList (c.answering answer) s) (ValuesRead P)

/-- What reading further items of a list does. -/
def TracksItems (c : Context) (s : List Item) : Prop :=
  c.Relies l P answer → GenuineItems s →
    Tracks l (readItems c s) (readItems (c.answering answer) s) (ValuesRead P)

/-- What reading joined neighbours does; there may be none. -/
def TracksJoined (c : Context) (comments : List String) (s : List Item) : Prop :=
  c.Relies l P answer → Lines comments → GenuineItems s →
    Tracks l (readJoined c comments s) (readJoined (c.answering answer) comments s)
      fun r => (∀ v ∈ r.1, P v) ∧ GenuineItems r.2.val

/-- What reading neighbours does. -/
def TracksPieces (c : Context) (first : Bool) (s : List Item) : Prop :=
  c.Relies l P answer → GenuineItems s →
    Tracks l (readPieces c first s) (readPieces (c.answering answer) first s)
      (ValuesRead (Piece P))

/-- What reading fields does. -/
def TracksFields (c : Context) (braced : Bool) (f : Fields) (s : List Item) : Prop :=
  c.Relies l P answer → FieldsAre P f.entries → GenuineItems s →
    Tracks l (readFields c braced f s) (readFields (c.answering answer) braced f s)
      fun r => FieldsAre P r.1 ∧ GenuineItems r.2.val

/-- What reading one field does. -/
def TracksField (c : Context) (f : Fields) (t : Item) (s : List Item) : Prop :=
  c.Relies l P answer → FieldsAre P f.entries → t.Genuine → GenuineItems s →
    Tracks l (readField c f t s) (readField (c.answering answer) f t s)
      fun r => FieldsAre P r.1.entries ∧ GenuineItems r.2.val

/-- What reading the value behind a separator does. -/
def TracksFieldValue (c : Context) (comments : List String) (s : List Item) : Prop :=
  c.Relies l P answer → Lines comments → GenuineItems s →
    Tracks l (readFieldValue c comments s) (readFieldValue (c.answering answer) comments s)
      (ValueRead P)

variable {l P answer}

theorem tracks_readList {s : List Item} (joined : TracksJoined l P answer c [] s)
    (items : ∀ r : List Item, r.length ≤ s.length → TracksItems l P answer c r)
    (value : ∀ (t : Item) (rest : List Item), rest.length < s.length →
      TracksValue l P answer c t [] rest) : TracksList l P answer c s := by
  intro hc hs
  rw [readList, readList]
  refine (joined hc (List.forall_mem_nil _) hs).bind ?_
  rintro ⟨v, r, hr⟩ spec
  cases v with
  | some v =>
    refine (items r hr hc spec.2).bind ?_
    rintro ⟨vs, q, hq⟩ spec'
    exact .pure ⟨List.forall_mem_cons.2 ⟨spec.1 v rfl, spec'.1⟩, spec'.2⟩
  | none =>
    refine (tracks_skipNewlines spec.2).bind ?_
    rintro ⟨q, hq⟩ genuine
    cases q with
    | nil => exact .throw
    | cons t rest =>
      have lt : rest.length < s.length := Nat.lt_of_lt_of_le hq hr
      obtain ⟨ht, hrest⟩ := List.forall_mem_cons.1 genuine
      simp only []
      split
      · exact .pure ⟨List.forall_mem_nil _, hrest⟩
      · split
        · refine (value t rest lt hc ht (List.forall_mem_nil _) hrest).bind ?_
          rintro ⟨v, p, hp⟩ spec'
          have le : p.length ≤ s.length := Nat.le_trans hp (Nat.le_of_lt lt)
          refine (items p le hc spec'.2).bind ?_
          rintro ⟨vs, p', hp'⟩ spec''
          exact .pure ⟨List.forall_mem_cons.2 ⟨spec'.1.1, spec''.1⟩, spec''.2⟩
        · exact .throw

theorem tracks_readItems {s : List Item}
    (joined : ∀ r : List Item, r.length < s.length → TracksJoined l P answer c [] r)
    (items : ∀ r : List Item, r.length < s.length → TracksItems l P answer c r)
    (value : ∀ (t : Item) (rest : List Item), (t :: rest).length < s.length →
      TracksValue l P answer c t [] rest) : TracksItems l P answer c s := by
  intro hc hs
  rw [readItems, readItems]
  refine (tracks_readSeparator hs).bind fun separation genuine => ?_
  cases separation with
  | missing r =>
    -- without a separator only the closing bracket may follow
    obtain ⟨r, hr⟩ := r
    cases r with
    | nil => exact .throw
    | cons t rest =>
      simp only []
      split
      · exact .pure ⟨List.forall_mem_nil _, (List.forall_mem_cons.1 genuine).2⟩
      · exact .throw
  | found r =>
    obtain ⟨r, hr⟩ := r
    refine (joined r hr hc (List.forall_mem_nil _) genuine).bind ?_
    rintro ⟨v, q, hq⟩ spec
    have less : q.length < s.length := Nat.lt_of_le_of_lt hq hr
    cases v with
    | some v =>
      refine (items q less hc spec.2).bind ?_
      rintro ⟨vs, p, hp⟩ spec'
      exact .pure ⟨List.forall_mem_cons.2 ⟨spec.1 v rfl, spec'.1⟩, spec'.2⟩
    | none =>
      refine (tracks_skipNewlines spec.2).bind ?_
      rintro ⟨p, hp⟩ genuine
      cases p with
      | nil => exact .throw
      | cons t rest =>
        have lt : (t :: rest).length < s.length := Nat.lt_of_le_of_lt hp less
        obtain ⟨ht, hrest⟩ := List.forall_mem_cons.1 genuine
        simp only []
        split
        · refine (value t rest lt hc ht (List.forall_mem_nil _) hrest).bind ?_
          rintro ⟨v, p, hp'⟩ spec'
          have less : p.length < s.length :=
            Nat.lt_of_le_of_lt hp' (Nat.lt_trans (Nat.lt_succ_self _) lt)
          refine (items p less hc spec'.2).bind ?_
          rintro ⟨vs, p', hp''⟩ spec''
          exact .pure ⟨List.forall_mem_cons.2 ⟨spec'.1.1, spec''.1⟩, spec''.2⟩
        · split
          · exact .pure ⟨List.forall_mem_nil _, hrest⟩
          · exact .throw

theorem tracks_readJoined [grammatical : Grammatical P] {comments : List String} {s : List Item}
    (pieces : ∀ r : List Item, r.length ≤ s.length → TracksPieces l P answer c true r) :
    TracksJoined l P answer c comments s := by
  intro hc lines hs
  rw [readJoined, readJoined]
  refine (tracks_skipNewlines hs).bind ?_
  rintro ⟨r, hr⟩ genuine
  simp only []
  split
  · exact .pure ⟨by rintro _ ⟨⟩, genuine⟩
  · refine (pieces r hr hc genuine).bind ?_
    rintro ⟨ps, q, hq⟩ spec
    refine (Tracks.of_ok (P := fun v => ∀ w ∈ v, P w) _ fun v hv => ?_).bind
      fun v hv => ?_
    · intro w hw
      rw [Option.mem_def.1 hw] at hv
      exact grammatical.concatenate spec.1 hv
    · cases v with
      | none => exact .pure ⟨by rintro _ ⟨⟩, spec.2⟩
      | some v =>
        refine .pure ⟨fun w hw => ?_, spec.2⟩
        cases hw
        refine grammatical.withComments (hv v rfl) (List.forall_mem_append.2 ⟨lines, ?_⟩)
        cases r with
        | nil => exact hc.stop
        | cons t r => exact (List.forall_mem_cons.1 genuine).1.comments

theorem tracks_readPieces {first : Bool} {t : Item} {rest : List Item}
    (continues : t.continuesValue = true)
    (value : TracksValue l P answer c
      { t with comments := if first then [] else t.comments } [] rest)
    (pieces : ∀ r : List Item, r.length ≤ rest.length → TracksPieces l P answer c false r) :
    TracksPieces l P answer c first (t :: rest) := by
  intro hc hs
  obtain ⟨ht, hrest⟩ := List.forall_mem_cons.1 hs
  rw [readPieces, readPieces, if_pos continues, if_pos continues]
  -- comments above the first piece are for the joined value
  have hu : ({ t with comments := if first then [] else t.comments } : Item).Genuine := by
    refine ⟨ht.kind, ?_⟩
    show Lines (if first = true then [] else t.comments)
    split
    · exact List.forall_mem_nil _
    · exact ht.comments
  refine (value hc hu (List.forall_mem_nil _) hrest).bind ?_
  rintro ⟨v, r, hr⟩ spec
  refine (tracks_checkFront _).bind fun _ _ => ?_
  refine (pieces r hr hc spec.2).bind ?_
  rintro ⟨vs, q, hq⟩ spec'
  exact .pure ⟨List.forall_mem_cons.2 ⟨spec.1, spec'.1⟩, spec'.2⟩

theorem tracks_readFieldValue {comments : List String} {s : List Item}
    (joined : TracksJoined l P answer c comments s)
    (value : ∀ (t : Item) (rest : List Item), rest.length < s.length →
      TracksValue l P answer c t comments rest) : TracksFieldValue l P answer c comments s := by
  intro hc lines hs
  rw [readFieldValue, readFieldValue]
  refine (joined hc lines hs).bind fun ⟨v, r, hr⟩ spec => ?_
  cases v with
  | some v => exact .pure ⟨spec.1 v rfl, spec.2⟩
  | none =>
    refine (tracks_skipNewlines spec.2).bind fun ⟨q, hq⟩ genuine => ?_
    cases q with
    | nil => exact .throw
    | cons t rest =>
      have lt : rest.length < s.length := Nat.lt_of_lt_of_le hq hr
      obtain ⟨ht, hrest⟩ := List.forall_mem_cons.1 genuine
      refine (value t rest lt hc ht lines hrest).bind fun ⟨v, p, hp⟩ spec' => ?_
      exact .pure ⟨spec'.1.1, spec'.2⟩

theorem tracks_readField [Grammatical P] {f : Fields} {t : Item} {s : List Item}
    (value : ∀ (key : Path) (u : Item) (rest : List Item), rest.length < s.length →
      TracksValue l P answer (c.enter key) u t.comments rest)
    (fieldValue : ∀ (key : Path) (u : Item) (rest : List Item), rest.length < s.length →
      TracksFieldValue l P answer
        { c.enter key with afterEquals := c.afterEquals || u.kind.isEquals }
        (t.comments ++ u.comments) rest) : TracksField l P answer c f t s := by
  intro hc hf ht hs
  rw [readField, readField]
  refine (tracks_readKey hs).bind ?_
  rintro ⟨key, r, hr⟩ genuine
  refine (tracks_skipNewlines genuine).bind ?_
  rintro ⟨q, hq⟩ genuine
  cases q with
  | nil => exact .throw
  | cons u rest =>
    have lt : rest.length < s.length := Nat.lt_of_lt_of_le hq hr
    obtain ⟨hu, hrest⟩ := List.forall_mem_cons.1 genuine
    simp only []
    split
    · -- an object needs no separator in front
      refine (value key u rest lt ⟨hc.tracks, hc.lines, hc.stop⟩ hu ht.comments hrest).bind ?_
      rintro ⟨v, p, hp⟩ spec
      refine (tracks_putField hf spec.1.1 fun _ => rfl).bind fun g hg => ?_
      exact .pure ⟨hg, spec.2⟩
    · have same : isKeySeparator (c.answering answer) u = isKeySeparator c u := rfl
      rw [same]
      split
      · refine (fieldValue key u rest lt ⟨hc.tracks, hc.lines, hc.stop⟩
          (List.forall_mem_append.2 ⟨ht.comments, hu.comments⟩) hrest).bind ?_
        rintro ⟨v, p, hp⟩ spec
        simp only []
        split
        · refine (Tracks.of_ok _ fun w hw => grammatical_appended spec.1 hw).bind fun w hw => ?_
          refine (tracks_putField hf hw fun _ => rfl).bind fun g hg => ?_
          exact .pure ⟨hg, spec.2⟩
        · refine (Tracks.pure spec.1).bind fun w hw => ?_
          refine (tracks_putField hf hw fun _ => rfl).bind fun g hg => ?_
          exact .pure ⟨hg, spec.2⟩
      · exact .throw

theorem tracks_readFields [Grammatical P] {braced : Bool} {f : Fields} {s : List Item}
    (fields : ∀ (g : Fields) (t : Item) (rest q p : List Item), (t :: rest).length ≤ s.length →
      q.length ≤ rest.length → p.length < q.length →
      TracksFields l P answer c braced { g with afterSeparator := true } p)
    (field : ∀ (t : Item) (rest : List Item), rest.length < s.length →
      TracksField l P answer c f t rest) : TracksFields l P answer c braced f s := by
  intro hc hf hs
  rw [readFields, readFields]
  refine (tracks_skipNewlines hs).bind ?_
  rintro ⟨r, hr⟩ genuine
  cases r with
  | nil =>
    simp only []
    split
    · exact .throw
    · exact .pure ⟨hf, List.forall_mem_nil _⟩
  | cons t rest =>
    have lt : rest.length < s.length := hr
    obtain ⟨ht, hrest⟩ := List.forall_mem_cons.1 genuine
    simp only []
    split
    · split
      · exact .throw
      · split
        · exact .throw
        · exact .pure ⟨hf, hrest⟩
    · -- an include statement or a field; both leave fields, and go on alike
      split
      case' isTrue =>
        refine (tracks_readInclude hc hf t hrest).bind ?_
        rintro ⟨entries, q, hq⟩ spec
        have spec : FieldsAre P ({ f with entries } : Fields).entries
          ∧ GenuineItems q := spec
        simp only []
        generalize ({ f with entries } : Fields) = f at spec ⊢
      case' isFalse =>
        refine (field t rest lt hc hf ht hrest).bind ?_
        rintro ⟨f, q, hq⟩ spec
      all_goals
        refine (tracks_readSeparator spec.2).bind fun separation genuine => ?_
        cases separation with
        | found p =>
          obtain ⟨p, hp⟩ := p
          refine (fields f t rest q p hr hq hp hc spec.1 genuine).bind ?_
          rintro ⟨entries, p', hp'⟩ spec'
          exact .pure spec'
        | missing p =>
          obtain ⟨p, hp⟩ := p
          cases p with
          | nil =>
            simp only []
            split
            · exact .throw
            · exact .pure ⟨spec.1, List.forall_mem_nil _⟩
          | cons u rest' =>
            simp only []
            split
            · split
              · exact .pure ⟨spec.1, (List.forall_mem_cons.1 genuine).2⟩
              · exact .throw
            · exact .throw

/-- **The functions of the grammar** give the same with other answers to include statements, if
these give the same. -/
theorem read_tracks (l : Leeway) (P : Value → Prop) [grammatical : Grammatical P]
    (answer : IncludeRequest → Loading Value) :
    (∀ c t comments s, TracksValue l P answer c t comments s) ∧
    (∀ c s, TracksList l P answer c s) ∧
    (∀ c s, TracksItems l P answer c s) ∧
    (∀ c comments s, TracksJoined l P answer c comments s) ∧
    (∀ c first s, TracksPieces l P answer c first s) ∧
    (∀ c braced f s, TracksFields l P answer c braced f s) ∧
    (∀ c f t s, TracksField l P answer c f t s) ∧
    (∀ c comments s, TracksFieldValue l P answer c comments s) := by
  have above {comments : List String} {t : Item} (lines : Lines comments) (ht : t.Genuine) :
      Lines (comments ++ t.comments) := List.forall_mem_append.2 ⟨lines, ht.comments⟩
  -- comments leave a value that was read for itself one
  have commented {v : Value} {comments : List String} (h : Piece P v) (lines : Lines comments) :
      Piece P (withComments v comments) :=
    ⟨grammatical.withComments h.1 lines, (isPiece_withComments v comments).trans h.2⟩
  refine readValue.mutual_induct _ _ _ _ _ _ _ _ ?literal ?bare ?substitution ?brace ?bracket ?other
    ?list ?items ?joined ?noPieces ?pieces ?lastPiece ?fields ?field ?fieldValue
  case literal =>
    intro c t comments s literal kind hc ht lines hs
    have genuine := ht.kind
    rw [kind] at genuine
    rw [readValue, readValue]
    simp only [kind]
    have piece : (literalValue (c.originAt t.line) literal).isPiece = true := by
      cases literal <;> rfl
    exact .pure
      ⟨commented ⟨grammatical.literal (hc.originAt _) genuine, piece⟩ (above lines ht), hs⟩
  case bare =>
    intro c t comments s text kind hc ht lines hs
    rw [readValue, readValue]
    simp only [kind]
    exact .pure ⟨commented ⟨grammatical.bare (hc.originAt _) _, rfl⟩ (above lines ht), hs⟩
  case substitution =>
    intro c t comments s optional expression kind hc ht lines hs
    rw [readValue, readValue]
    simp only [kind]
    refine (Tracks.of_ok (P := fun _ => True) _ fun _ _ => trivial).bind fun path _ => ?_
    exact .pure ⟨commented ⟨grammatical.reference (hc.originAt _) _, rfl⟩ (above lines ht), hs⟩
  case brace =>
    intro c t comments s kind ih hc ht lines hs
    rw [readValue, readValue]
    simp only [kind]
    refine (ih hc .nil hs).bind fun r hr => ?_
    exact .pure ⟨commented ⟨hr.1.ofFields (hc.originAt _), rfl⟩ (above lines ht), hr.2⟩
  case bracket =>
    intro c t comments s kind ih hc ht lines hs
    rw [readValue, readValue]
    simp only [kind]
    refine (ih hc hs).bind fun r hr => ?_
    exact .pure ⟨commented ⟨grammatical.items (hc.originAt _) hr.1, rfl⟩ (above lines ht), hr.2⟩
  case other =>
    intro c t comments s h1 h2 h3 h4 h5 hc ht lines hs
    rw [readValue, readValue]
    simp only []
    exact .throw
  case list =>
    intro c s joined items value _
    exact tracks_readList joined items fun t rest lt => value s (Nat.le_refl _) [] t rest lt
  case items =>
    intro c s joined items value _
    exact tracks_readItems joined (fun r lt => items _ lt _ (Nat.le_refl _)) fun t rest lt =>
      value (t :: rest) lt (t :: rest) (Nat.le_refl _) [] t rest (Nat.le_refl _)
  case joined => exact fun c comments s pieces => tracks_readJoined pieces
  case noPieces =>
    intro c first hc hs
    rw [readPieces, readPieces]
    exact .pure ⟨List.forall_mem_nil _, List.forall_mem_nil _⟩
  case pieces =>
    intro c first t rest continues u value pieces
    exact tracks_readPieces continues value pieces
  case lastPiece =>
    intro c first t rest last hc hs
    rw [readPieces, readPieces, if_neg last, if_neg last]
    exact .pure ⟨List.forall_mem_nil _, hs⟩
  case fields =>
    intro c braced f s fields field
    exact tracks_readFields (fun g t rest q p hr hq hp => fields [] t rest hr g q hq p hp)
      fun t rest lt => field [] t rest lt
  case field =>
    intro c f t s value fieldValue
    exact tracks_readField (fun key u rest lt => value key s (Nat.le_refl _) [] u rest lt)
      fun key u rest lt => fieldValue key s (Nat.le_refl _) [] u rest lt u.kind
  case fieldValue =>
    intro c comments s joined value
    exact tracks_readFieldValue joined fun t rest lt => value s (Nat.le_refl _) [] t rest lt

end Grammar

/-! ### Whole documents -/

/-- Nothing but line ends may stand behind the root. -/
theorem tracks_end {v : Value} {s : List Item} (hv : Piece P v) (hs : GenuineItems s) :
    Tracks l
      (do
        let r ← skipNewlines c s
        match r.val with
        | [] => return v
        | t :: _ => throw (c.fail t (.trailing t.describe)))
      (do
        let r ← skipNewlines (c.answering answer) s
        match r.val with
        | [] => return v
        | t :: _ => throw ((c.answering answer).fail t (.trailing t.describe))) (Piece P) := by
  refine (tracks_skipNewlines hs).bind fun ⟨r, hr⟩ _ => ?_
  cases r with
  | nil => exact .pure hv
  | cons t rest => exact .throw

theorem tracks_readRoot [Grammatical P] {s : List Item} (hc : c.Relies l P answer)
    (hs : GenuineItems s) :
    Tracks l (readRoot c s) (readRoot (c.answering answer) s) (Piece P) := by
  unfold readRoot
  refine (tracks_skipNewlines hs).bind fun ⟨r, hr⟩ genuine => ?_
  have braceless (e : Error) : Tracks l
      (if c.syn = .json then throw e
        else do
          let r' ← readFields c false {} r
          return (.ofFields (c.originAt (c.front r).line) r'.1, r'.2.val) :
            Loading (Value × List Item))
      (if c.syn = .json then throw e
        else do
          let r' ← readFields (c.answering answer) false {} r
          return (.ofFields (c.originAt (c.front r).line) r'.1, r'.2.val))
      fun r => Piece P r.1 ∧ GenuineItems r.2 := by
    split
    · exact .throw
    · refine ((read_tracks l P answer).2.2.2.2.2.1 c false {} r hc .nil genuine).bind
        fun _ spec => ?_
      exact .pure ⟨⟨spec.1.ofFields (hc.originAt _), rfl⟩, spec.2⟩
  cases r with
  | nil => exact (braceless _).bind fun _ spec => tracks_end spec.1 spec.2
  | cons t rest =>
    obtain ⟨ht, hrest⟩ := List.forall_mem_cons.1 genuine
    simp only []
    split
    · refine ((read_tracks l P answer).1 c t [] rest hc ht (List.forall_mem_nil _) hrest).bind
        fun _ spec => ?_
      exact (Tracks.pure spec).bind fun _ spec => tracks_end spec.1 spec.2
    · exact (braceless _).bind fun _ spec => tracks_end spec.1 spec.2

theorem tracks_read [Grammatical P] {syn : DocumentSyntax} {origin : Origin}
    {answer answer' : IncludeRequest → Loading Value}
    (tracks : ∀ request, Tracks l (answer request) (answer' request) fun v =>
      P v ∧ ∀ place : Path, P (v.relocate place))
    (lines : origin.Commented IsLine) (text : String) :
    Tracks l (read syn origin answer text) (read syn origin answer' text) (Piece P) := by
  have stop : Lines (Item.stopOf (Token.ofText syn text.toList)).comments := by
    unfold Item.stopOf
    split <;> exact List.forall_mem_nil _
  exact tracks_readRoot ⟨tracks, lines, stop⟩ (genuine_ofTokens (genuine_ofText syn text.toList))

/-- The tree of a HOCON text, where no include statement is answered. -/
def readAlone (text : String) : Except Error Value :=
  let answer (request : IncludeRequest) : Loading Value :=
    throw (.notIncluded (.named request.name) (.notAnObject request.name))
  ((read .conf (.named "String") answer text).run.run []).1

/-- A HOCON text that can be read although no include statement is answered: it has none. -/
def IncludesNothing (text : String) : Prop := ∃ v, readAlone text = .ok v

/-- Whatever answers the include statements of a text that has none, its tree is the same. -/
theorem read_of_readAlone {text : String} {v : Value} (h : readAlone text = .ok v)
    (answer : IncludeRequest → Loading Value) :
    v.FromText (Plain True) ∧ ((read .conf (.named "String") answer text).run.run []).1 = .ok v := by
  obtain ⟨refuse, fails, hr⟩ : ∃ refuse : IncludeRequest → Loading Value,
      (∀ r, Fails (refuse r))
        ∧ ((read .conf (.named "String") refuse text).run.run []).1 = .ok v :=
    ⟨_, fun _ => .throw, h⟩
  have tracks : Tracks .failures (read .conf (.named "String") refuse text)
      (read .conf (.named "String") answer text) (Piece (FromText (Plain True))) :=
    tracks_read (fun r => (fails r).tracks) (.of_nil rfl) text
  rcases run : (read .conf (.named "String") refuse text).run.run [] with ⟨r, m⟩
  rw [run] at hr
  cases hr
  obtain ⟨fromText, same⟩ := tracks.eq run
  exact ⟨fromText.1, congrArg Prod.fst same⟩

/-- A text is parsed by reading it. -/
theorem parseText_eq (files : FileTree) (text : String) :
    ∃ answer, parseText files {} text =
      read .conf (.named "String") answer text >>= fun v => checkRoot (.named "String") v := by
  have depth : (Document.ofText text).chain.length < maxIncludeDepth := Nat.zero_lt_succ _
  rw [parseText, Document.load, dif_pos depth]
  exact ⟨_, rfl⟩

/-- Parsing a text that includes nothing reads it alone and looks at its root. -/
theorem parseText_of_readAlone {text : String} {v : Value} (h : readAlone text = .ok v)
    (files : FileTree) :
    ((parseText files {} text).run.run []).1 = checkRoot (.named "String") v := by
  obtain ⟨answer, eq⟩ := parseText_eq files text
  obtain ⟨-, same⟩ := read_of_readAlone h answer
  rw [eq]
  simp only [ExceptT.run_bind, StateT.run_bind]
  rcases hr : (read .conf (.named "String") answer text).run.run [] with ⟨out, m⟩
  rw [hr] at same
  cases same
  rfl

/-- What the tree of a text is that includes nothing. -/
theorem parseText_spec {files : FileTree} {text : String} {v : Value}
    (parsed : ((parseText files {} text).run.run []).1 = .ok v) (alone : IncludesNothing text) :
    readAlone text = .ok v ∧ v.FromText (Plain True) ∧ v.fields?.isSome = true := by
  obtain ⟨w, hw⟩ := alone
  rw [parseText_of_readAlone hw, checkRoot] at parsed
  split at parsed
  · next object =>
    cases parsed
    exact ⟨hw, (read_of_readAlone hw fun r => throw (.missing r.name)).1, object⟩
  · cases parsed

/-- A text is parsed that, read alone, gives an object. -/
theorem parsed_of_readAlone {text : String} {v : Value} (files : FileTree)
    (h : (readAlone text).toOption = some v) (object : v.fields?.isSome = true) :
    ((parseText files {} text).run.run []).1 = .ok v := by
  cases hr : readAlone text with
  | error e =>
    rw [hr] at h
    cases h
  | ok w =>
    rw [hr] at h
    cases h
    rw [parseText_of_readAlone hr, checkRoot, if_pos object]

theorem exists_parsed {text : String} (files : FileTree)
    (h : (readAlone text).toOption.any (·.fields?.isSome) = true) :
    ∃ v, ((parseText files {} text).run.run []).1 = .ok v ∧ IncludesNothing text := by
  rcases hr : readAlone text with e | v <;> rw [hr] at h
  · cases h
  · exact ⟨v, parsed_of_readAlone files (by rw [hr]; rfl) h, v, hr⟩

end Document

end Hocon
