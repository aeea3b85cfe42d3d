import Hocon.Proofs.Appending
import Hocon.Proofs.SameShape

/-!
# What a document asks for

Which include statements a reader comes to, and in which order, is decided by the document alone:
the trees that answer them do not matter, as long as they are objects.  `Inquires` says so of two
readings with different answers.  They ask for the same, one statement after the other, until a
statement is refused in one of them; and if none is, both give a tree, or both fail by an error of
their own, which points at an item (`Own`).

All that is said of include statements comes from one fact about the grammar, `read_inquires`: a
reading keeps step with one in which each statement is answered by an empty object.
-/

namespace Hocon

open Value

/-- The item is of such a kind, and at such a place. -/
def Item.Stands (D : TokenKind → Span → Nat → Prop) (t : Item) : Prop := D t.kind t.span t.line

namespace Document

/-- All items are of such kinds, and at such places. -/
abbrev AllStand (D : TokenKind → Span → Nat → Prop) (s : List Item) : Prop := ∀ t ∈ s, t.Stands D

/-! ### Statements -/

/-- Whoever answers include statements. -/
abbrev Answers := IncludeRequest → Loading Value

/-- An include statement that is asked about: what it asks for, and where its keyword stands. -/
structure Inquiry where
  request : IncludeRequest
  origin : Origin

/-- The failure of a statement whose document could not be had. -/
def Inquiry.refusal (q : Inquiry) (e : Error) : Error :=
  match e, q.request.required with
  | .unreadable _ fault, true => .notIncluded q.origin (.requiredMissing q.request.name fault)
  | _, _ => e

/-- The object that a statement is answered with. -/
def Inquiry.ask (q : Inquiry) (answer : Answers) : Loading Value := do
  let outcome : Except Error Value ←
    (ExceptT.run (answer q.request) : StateM (List IncludeRecord) (Except Error Value))
  match outcome with
  | .error e => throw (q.refusal e)
  | .ok v =>
    if v.fields?.isSome then return v
    else throw (.notIncluded q.origin (.notAnObject q.request.name))

/-- An error that a document has of its own: it points at an item, or a path is malformed, or
neighbours cannot be joined. -/
inductive Own (o : Origin) (D : TokenKind → Span → Nat → Prop) : Error → Prop
  | item {t : Item} (ht : t.Stands D) {fault : ParseFault} (hint : ParseHint)
      (shallow : ∀ limit chain, fault ≠ .includesTooDeep limit chain) :
      Own o D (.parse (o.atLine t.line) fault hint (some t.span))
  | path (place : Option Origin) (path : String) (fault : PathFault) :
      Own o D (.badPath place path fault)
  | type (place : Origin) (fault : TypeFault) : Own o D (.wrongType place fault)

/-- Two computations ask about the same statements, one after the other, and whatever objects
answer these, both fail in the end by errors of their own, or both give results that are in the
relation. -/
inductive Inquires (A B : Answers) {α β : Type} (E : Error → Prop) (Q : Inquiry → Prop)
    (R : α → β → Prop) : Loading α → Loading β → Prop
  | pure {a : α} {b : β} (h : R a b) : Inquires A B E Q R (pure a) (pure b)
  | throw {e e' : Error} (h : E e) (h' : E e') : Inquires A B E Q R (throw e) (throw e')
  | ask {q : Inquiry} (hq : Q q) {next : Value → Loading α} {next' : Value → Loading β}
      (h : ∀ v w, v.fields?.isSome = true → w.fields?.isSome = true →
        Inquires A B E Q R (next v) (next' w)) :
      Inquires A B E Q R (q.ask A >>= next) (q.ask B >>= next')

namespace Inquires

variable {A B : Answers} {E : Error → Prop} {Q : Inquiry → Prop} {α β γ δ : Type} {R : α → β → Prop}
  {S : γ → δ → Prop} {x : Loading α} {y : Loading β}

theorem bind {f : α → Loading γ} {g : β → Loading δ} (h : Inquires A B E Q R x y)
    (more : ∀ a b, R a b → Inquires A B E Q S (f a) (g b)) :
    Inquires A B E Q S (x >>= f) (y >>= g) := by
  induction h with
  | pure h =>
    rw [pure_bind, pure_bind]
    exact more _ _ h
  | throw h h' => exact .throw h h'
  | ask hq _ ih =>
    rw [bind_assoc, bind_assoc]
    exact .ask hq fun v w hv hw => ih v w hv hw

/-- Outcomes that are no computations. -/
theorem ofExcept {a : Except Error α} {b : Except Error β} (h : EndAlike R a b)
    (error : ∀ e, a = .error e → E e) (error' : ∀ e, b = .error e → E e) :
    Inquires A B E Q R (liftM a) (liftM b) := by
  cases h with
  | ok h => exact .pure h
  | error e e' => exact .throw (error e rfl) (error' e' rfl)

end Inquires

/-! ### Steps that ask nothing -/

/-- The same items are left, and all are places that errors may point at. -/
def Reads {α β : Type} (D : TokenKind → Span → Nat → Prop) (R : α → β → Prop) {s : List Item}
    (a : α × Left s) (b : β × Left s) : Prop :=
  R a.1 b.1 ∧ a.2 = b.2 ∧ AllStand D a.2.val

section

variable {c : Context} {B : Answers} {D : TokenKind → Span → Nat → Prop} {s : List Item}

/-- An include statement whose keyword is such an item, in a document that may have any. -/
def Stated (c : Context) (D : TokenKind → Span → Nat → Prop) (q : Inquiry) : Prop :=
  c.syn ≠ .json ∧ ∃ t : Item, t.Stands D ∧ t.kind.isInclude = true ∧ q.origin = c.originAt t.line

/-- Two readings at a place ask about the same statements. -/
abbrev Context.Asks (c : Context) (B : Answers) (D : TokenKind → Span → Nat → Prop) {α β : Type}
    (R : α → β → Prop) (x : Loading α) (y : Loading β) : Prop :=
  Inquires c.answer B (Own c.origin D) (Stated c D) R x y

theorem own_fail {t : Item} (ht : t.Stands D) {fault : ParseFault} (hint : ParseHint)
    (shallow : ∀ limit chain, fault ≠ .includesTooDeep limit chain) :
    Own c.origin D (c.fail t fault hint) := .item ht hint shallow

/-- Both fail at an item. -/
theorem inquires_fail {α β : Type} {R : α → β → Prop} {t u : Item} (ht : t.Stands D)
    (hu : u.Stands D) {fault fault' : ParseFault} {hint hint' : ParseHint}
    (shallow : ∀ limit chain, fault ≠ .includesTooDeep limit chain)
    (shallow' : ∀ limit chain, fault' ≠ .includesTooDeep limit chain) :
    c.Asks B D R (throw (c.fail t fault hint))
      (throw ((c.answering B).fail u fault' hint')) :=
  .throw (own_fail ht hint shallow) (own_fail (c := c) hu hint' shallow')

theorem own_of_refusal {t : Item} (ht : t.Stands D) {e : Error} (h : c.refusal? t = some e) :
    Own c.origin D e := by
  unfold Context.refusal? at h
  split at h <;> cases h
  · exact own_fail ht _ (by simp)
  · exact own_fail ht _ (by simp)
  · exact own_fail ht _ (by simp)

theorem front_mem (stop : c.stop.Stands D) (hs : AllStand D s) : (c.front s).Stands D := by
  cases s with
  | nil => exact stop
  | cons t s => exact hs t List.mem_cons_self

theorem inquires_checkFront (stop : c.stop.Stands D) (hs : AllStand D s) :
    c.Asks B D (fun _ _ => True) (checkFront c s)
      (checkFront (c.answering B) s) := by
  have same : checkFront (c.answering B) s = checkFront c s := rfl
  rw [same, checkFront]
  split
  · next e h =>
    have own := own_of_refusal (front_mem stop hs) h
    exact .throw own own
  · exact .pure trivial

theorem inquires_skipNewlines (stop : c.stop.Stands D) (hs : AllStand D s) :
    c.Asks B D (fun r q => r = q ∧ AllStand D r.val) (skipNewlines c s)
      (skipNewlines (c.answering B) s) := by
  have left (t : Item) (ht : t ∈ s.dropWhile Item.isNewline) : t.Stands D :=
    hs t ((List.dropWhile_sublist _).subset ht)
  exact (inquires_checkFront stop left).bind fun _ _ _ => .pure ⟨rfl, left⟩

/-- The items behind a separator, or where one is missing. -/
def Separation.Within (D : TokenKind → Span → Nat → Prop) {s : List Item} : Separation s → Prop
  | .found r => AllStand D r.val
  | .missing r => AllStand D r.val

theorem inquires_readSeparator (stop : c.stop.Stands D) (hs : AllStand D s) :
    c.Asks B D (fun p q => p = q ∧ p.Within D) (readSeparator c s)
      (readSeparator (c.answering B) s) := by
  unfold readSeparator
  refine (inquires_skipNewlines stop hs).bind ?_
  rintro ⟨r, le⟩ _ ⟨rfl, hr⟩
  have other : Separation.Within D (s := s)
      (if h : c.syn ≠ .json ∧ r.length < s.length then .found ⟨r, h.2⟩ else .missing ⟨r, le⟩) := by
    split <;> exact hr
  cases r with
  | nil => exact .pure ⟨rfl, other⟩
  | cons t rest =>
    simp only []
    split
    · exact .pure ⟨rfl, (List.forall_mem_cons.1 hr).2⟩
    · exact .pure ⟨rfl, other⟩

theorem own_pathOf {o : Origin} {kinds : List TokenKind} {e : Error}
    (h : pathOf o kinds = .error e) : Own c.origin D e := by
  unfold pathOf at h
  split at h <;> cases h
  exact .path _ _ _

theorem inquires_pathOf (o : Origin) (kinds : List TokenKind) :
    c.Asks B D Eq (liftM (pathOf o kinds)) (liftM (pathOf o kinds)) := by
  cases h : pathOf o kinds with
  | ok path => exact .pure rfl
  | error e => exact .throw (own_pathOf h) (own_pathOf h)

theorem inquires_readKey (stop : c.stop.Stands D) {t : Item} (ht : t.Stands D) (hs : AllStand D s) :
    c.Asks B D (Reads D Eq) (readKey c t s)
      (readKey (c.answering B) t s) := by
  unfold readKey
  split
  · split
    · exact .pure ⟨rfl, rfl, hs⟩
    · exact inquires_fail ht ht (by simp) (by simp)
  · split
    · have left (t : Item) (ht : t ∈ s.dropWhile Item.isKeyPiece) : t.Stands D :=
        hs t ((List.dropWhile_sublist _).subset ht)
      refine (inquires_checkFront stop left).bind fun _ _ _ => ?_
      refine (inquires_pathOf _ _).bind ?_
      rintro path _ rfl
      exact .pure ⟨rfl, rfl, left⟩
    · exact inquires_fail ht ht (by simp) (by simp)

theorem inquires_readIncludeName {words : String} (stop : c.stop.Stands D) (hs : AllStand D s) :
    c.Asks B D (Reads D fun n n' => n = n' ∧ n.item.Stands D)
      (readIncludeName c words s) (readIncludeName (c.answering B) words s) := by
  obtain ⟨n, hn⟩ : ∃ n, s.length = n := ⟨_, rfl⟩
  induction n using Nat.strongRecOn generalizing s words with
  | ind n ih =>
    rw [readIncludeName, readIncludeName]
    have fault (describe : String) (limit : Nat) (chain : List String) :
        (if words = "" then ParseFault.noIncludeName describe else .noIncludeArgument describe)
          ≠ .includesTooDeep limit chain := by
      split <;> simp
    refine (inquires_skipNewlines stop hs).bind ?_
    rintro ⟨r, le⟩ _ ⟨rfl, hr⟩
    cases r with
    | nil => exact inquires_fail stop stop (fault _) (fault _)
    | cons t rest =>
      have lt : rest.length < s.length := le
      obtain ⟨ht, hrest⟩ := List.forall_mem_cons.1 hr
      simp only []
      split
      · exact .pure ⟨⟨rfl, ht⟩, rfl, hrest⟩
      · refine (ih _ (hn ▸ lt) hrest rfl).bind ?_
        rintro ⟨n, q, hq⟩ ⟨_, _⟩ ⟨⟨rfl, hn⟩, rfl, hq'⟩
        exact .pure ⟨⟨rfl, hn⟩, rfl, hq'⟩
      · exact inquires_fail ht ht (fault _) (fault _)

theorem inquires_readClosing {unclosed : Nat} (stop : c.stop.Stands D) (hs : AllStand D s) :
    c.Asks B D (fun r q => r = q ∧ AllStand D r.val)
      (readClosing c unclosed s) (readClosing (c.answering B) unclosed s) := by
  obtain ⟨n, hn⟩ : ∃ n, s.length = n := ⟨_, rfl⟩
  induction n using Nat.strongRecOn generalizing s unclosed with
  | ind n ih =>
    rw [readClosing, readClosing]
    split
    · exact .pure ⟨rfl, hs⟩
    refine (inquires_skipNewlines stop hs).bind ?_
    rintro ⟨r, le⟩ _ ⟨rfl, hr⟩
    cases r with
    | nil => exact inquires_fail stop stop (by simp) (by simp)
    | cons t rest =>
      have lt : rest.length < s.length := le
      obtain ⟨ht, hrest⟩ := List.forall_mem_cons.1 hr
      have further (unclosed : Nat) : c.Asks B D
          (fun r q : Left s => r = q ∧ AllStand D r.val)
          (do
            let q ← readClosing c unclosed rest
            return ⟨q.val, Nat.le_trans q.property (Nat.le_of_lt lt)⟩)
          (do
            let q ← readClosing (c.answering B) unclosed rest
            return ⟨q.val, Nat.le_trans q.property (Nat.le_of_lt lt)⟩) := by
        refine (ih _ (hn ▸ lt) hrest rfl).bind ?_
        rintro ⟨q, hq⟩ _ ⟨rfl, hq'⟩
        exact .pure ⟨rfl, hq'⟩
      simp only []
      split
      · exact further unclosed
      · split
        · split
          · exact further _
          · exact inquires_fail ht ht (by simp) (by simp)
        · exact inquires_fail ht ht (by simp) (by simp)

theorem inquires_includeWords {n : IncludeName} (hn : n.item.Stands D) :
    c.Asks B D Eq (liftM (includeWords c n))
      (liftM (includeWords (c.answering B) n)) := by
  have same : includeWords (c.answering B) n = includeWords c n := rfl
  rw [same]
  cases h : includeWords c n with
  | ok => exact .pure rfl
  | error e =>
    have own : Own c.origin D e := by
      unfold includeWords at h
      simp only [] at h
      generalize (if "required(".toList.isPrefixOf n.words.toList then
        String.ofList (n.words.toList.drop "required(".length) else n.words) = word at h
      split at h
      · cases h
      split at h
      · cases h
      split at h <;> cases h
      · exact own_fail hn _ (by simp)
      · exact own_fail hn _ (by simp)
    exact .throw own own

theorem fields?_moved_isSome (c : Context) (v : Value) :
    (c.moved v).fields?.isSome = v.fields?.isSome := by
  unfold Context.moved
  split
  · next place _ =>
    rw [Bool.eq_iff_iff, Option.isSome_iff_ne_none, Option.isSome_iff_ne_none, Ne, Ne,
      fields?_relocate]
  · rfl

/-- The fields that an include statement puts over others: those of the object that answers it. -/
theorem answer_eq_ask (c : Context) (q : Inquiry) {α : Type} (next : Entries Value → Loading α) :
    (do
      let answer : Except Error Value ←
        (ExceptT.run (c.answer q.request) : StateM (List IncludeRecord) (Except Error Value))
      match answer with
      | .error e =>
        match e, q.request.required with
        | .unreadable _ fault, true =>
          throw (.notIncluded q.origin (.requiredMissing q.request.name fault))
        | _, _ => throw e
      | .ok v =>
        match (c.moved v).fields? with
        | some included => next included
        | none => throw (.notIncluded q.origin (.notAnObject q.request.name)) : Loading α)
      = q.ask c.answer >>= fun v => next ((c.moved v).fields?.getD []) := by
  unfold Inquiry.ask
  rw [bind_assoc]
  refine bind_congr fun outcome => ?_
  cases outcome with
  | error e =>
    cases hr : q.request.required <;> cases e <;> simp only [Inquiry.refusal, hr] <;> rfl
  | ok v =>
    have moved := fields?_moved_isSome c v
    simp only []
    cases h : (c.moved v).fields? with
    | some included =>
      rw [h] at moved
      have object : v.fields?.isSome = true := moved.symm
      rw [if_pos object, pure_bind, h]
      rfl
    | none =>
      rw [h] at moved
      have object : ¬v.fields?.isSome = true := by rw [← moved]; nofun
      rw [if_neg object]
      rfl

theorem inquires_readInclude (stop : c.stop.Stands D) (hs : AllStand D s) (fs gs : Entries Value)
    {keyword : Item} (hk : keyword.Stands D) (includes : keyword.kind.isInclude = true)
    (conf : c.syn ≠ .json) :
    c.Asks B D (Reads D fun _ _ => True) (readInclude c fs keyword s)
      (readInclude (c.answering B) gs keyword s) := by
  unfold readInclude
  refine (inquires_readIncludeName stop hs).bind ?_
  rintro ⟨n, r, le⟩ ⟨_, _⟩ ⟨⟨rfl, hn⟩, rfl, hr⟩
  refine (inquires_includeWords hn).bind ?_
  rintro ⟨required, isFileName, depth⟩ _ rfl
  refine (inquires_readClosing stop hr).bind ?_
  rintro ⟨q, le'⟩ _ ⟨rfl, hq⟩
  have fewer : q.length ≤ s.length := Nat.le_trans le' le
  let statement : Inquiry := ⟨{ name := n.name, isFileName, required }, c.originAt keyword.line⟩
  have left := answer_eq_ask c statement fun included =>
    (pure (includeFields fs included, ⟨q, fewer⟩) : Read (Entries Value) s)
  have right := answer_eq_ask (c.answering B) statement fun included =>
    (pure (includeFields gs included, ⟨q, fewer⟩) : Read (Entries Value) s)
  refine cast (congrArg₂ (c.Asks B D _) left.symm right.symm) ?_
  exact .ask (q := statement) ⟨conf, keyword, hk, includes, rfl⟩ fun v w _ _ =>
    .pure ⟨trivial, rfl, hq⟩

end

/-! ### The grammar -/

section Grammar

variable (B : Answers) (D : TokenKind → Span → Nat → Prop)

/-- Two results at a place are the same if nothing can be included there, as in JSON. -/
abbrev Context.Settled (c : Context) {α : Type} (a b : α) : Prop := c.syn = .json → a = b

/-- What reading a value does. -/
def AsksValue (c : Context) (t : Item) (comments : List String) (s : List Item) : Prop :=
  c.stop.Stands D → t.Stands D → AllStand D s →
    c.Asks B D (Reads D fun v w => SameShape v w ∧ c.Settled v w)
      (readValue c t comments s) (readValue (c.answering B) t comments s)

/-- What reading a list behind its bracket does. -/
def AsksList (c : Context) (s : List Item) : Prop :=
  c.stop.Stands D → AllStand D s →
    c.Asks B D (Reads D c.Settled) (readList c s)
      (readList (c.answering B) s)

/-- What reading further items of a list does. -/
def AsksItems (c : Context) (s : List Item) : Prop :=
  c.stop.Stands D → AllStand D s →
    c.Asks B D (Reads D c.Settled) (readItems c s)
      (readItems (c.answering B) s)

/-- What reading joined neighbours does; there are none, or some. -/
def AsksJoined (c : Context) (comments : List String) (s : List Item) : Prop :=
  c.stop.Stands D → AllStand D s →
    c.Asks B D
      (Reads D fun v w => v.isSome = w.isSome ∧ (c.syn = .json → v = none)) (readJoined c comments s)
      (readJoined (c.answering B) comments s)

/-- What reading neighbours does. -/
def AsksPieces (c : Context) (first : Bool) (s : List Item) : Prop :=
  c.stop.Stands D → AllStand D s →
    c.Asks B D (Reads D (List.Forall₂ SameShape)) (readPieces c first s)
      (readPieces (c.answering B) first s)

/-- Fields so far that are behind a separator alike, and the same in JSON. -/
def Context.Abreast (c : Context) (f g : Fields) : Prop :=
  f.afterSeparator = g.afterSeparator ∧ c.Settled f.entries g.entries

/-- What reading fields does. -/
def AsksFields (c : Context) (braced : Bool) (f : Fields) (s : List Item) : Prop :=
  c.stop.Stands D → AllStand D s → ∀ g, c.Abreast f g →
    c.Asks B D (Reads D c.Settled) (readFields c braced f s)
      (readFields (c.answering B) braced g s)

/-- What reading one field does. -/
def AsksField (c : Context) (f : Fields) (t : Item) (s : List Item) : Prop :=
  c.stop.Stands D → t.Stands D → AllStand D s → ∀ g, c.Abreast f g →
    c.Asks B D (Reads D c.Abreast) (readField c f t s)
      (readField (c.answering B) g t s)

/-- What reading the value behind a separator does. -/
def AsksFieldValue (c : Context) (comments : List String) (s : List Item) : Prop :=
  c.stop.Stands D → AllStand D s →
    c.Asks B D (Reads D c.Settled) (readFieldValue c comments s)
      (readFieldValue (c.answering B) comments s)

variable {B D} {c : Context}

theorem asks_readList {s : List Item} (joined : AsksJoined B D c [] s)
    (items : ∀ r : List Item, r.length ≤ s.length → AsksItems B D c r)
    (value : ∀ (t : Item) (rest : List Item), rest.length < s.length →
      AsksValue B D c t [] rest) : AsksList B D c s := by
  intro stop hs
  rw [readList, readList]
  refine (joined stop hs).bind ?_
  rintro ⟨v, r, hr⟩ ⟨w, _⟩ ⟨⟨some, json⟩, rfl, left⟩
  cases v with
  | some v =>
    cases w with
    | none => cases some
    | some w =>
      refine (items r hr stop left).bind ?_
      rintro ⟨vs, q, hq⟩ ⟨ws, _⟩ ⟨_, rfl, left⟩
      exact .pure ⟨fun h => (by cases json h), rfl, left⟩
  | none =>
    cases w with
    | some w => cases some
    | none =>
      refine (inquires_skipNewlines stop left).bind ?_
      rintro ⟨q, hq⟩ _ ⟨rfl, left⟩
      cases q with
      | nil => exact inquires_fail stop stop (by simp) (by simp)
      | cons t rest =>
        have lt : rest.length < s.length := Nat.lt_of_lt_of_le hq hr
        obtain ⟨ht, hrest⟩ := List.forall_mem_cons.1 left
        simp only []
        split
        · exact .pure ⟨fun _ => rfl, rfl, hrest⟩
        · split
          · refine (value t rest lt stop ht hrest).bind ?_
            rintro ⟨v, p, hp⟩ ⟨w, _⟩ ⟨⟨_, first⟩, rfl, left⟩
            have le : p.length ≤ s.length := Nat.le_trans hp (Nat.le_of_lt lt)
            refine (items p le stop left).bind ?_
            rintro ⟨vs, p', hp'⟩ ⟨ws, _⟩ ⟨more, rfl, left⟩
            exact .pure ⟨fun h => congrArg₂ _ (first h) (more h), rfl, left⟩
          · exact inquires_fail ht ht (by simp) (by simp)

theorem asks_readItems {s : List Item}
    (joined : ∀ r : List Item, r.length < s.length → AsksJoined B D c [] r)
    (items : ∀ r : List Item, r.length < s.length → AsksItems B D c r)
    (value : ∀ (t : Item) (rest : List Item), (t :: rest).length < s.length →
      AsksValue B D c t [] rest) : AsksItems B D c s := by
  intro stop hs
  rw [readItems, readItems]
  refine (inquires_readSeparator stop hs).bind ?_
  rintro separation _ ⟨rfl, within⟩
  cases separation with
  | missing r =>
    -- without a separator only the closing bracket may follow
    obtain ⟨r, hr⟩ := r
    cases r with
    | nil => exact inquires_fail stop stop (by simp) (by simp)
    | cons t rest =>
      obtain ⟨ht, hrest⟩ := List.forall_mem_cons.1 (within : AllStand D (t :: rest))
      simp only []
      split
      · exact .pure ⟨fun _ => rfl, rfl, hrest⟩
      · exact inquires_fail ht ht (by simp) (by simp)
  | found r =>
    obtain ⟨r, hr⟩ := r
    refine (joined r hr stop within).bind ?_
    rintro ⟨v, q, hq⟩ ⟨w, _⟩ ⟨⟨some, json⟩, rfl, left⟩
    have less : q.length < s.length := Nat.lt_of_le_of_lt hq hr
    cases v with
    | some v =>
      cases w with
      | none => cases some
      | some w =>
        refine (items q less stop left).bind ?_
        rintro ⟨vs, p, hp⟩ ⟨ws, _⟩ ⟨_, rfl, left⟩
        exact .pure ⟨fun h => (by cases json h), rfl, left⟩
    | none =>
      cases w with
      | some w => cases some
      | none =>
        refine (inquires_skipNewlines stop left).bind ?_
        rintro ⟨p, hp⟩ _ ⟨rfl, left⟩
        cases p with
        | nil => exact inquires_fail stop stop (by simp) (by simp)
        | cons t rest =>
          have lt : (t :: rest).length < s.length := Nat.lt_of_le_of_lt hp less
          obtain ⟨ht, hrest⟩ := List.forall_mem_cons.1 left
          simp only []
          split
          · refine (value t rest lt stop ht hrest).bind ?_
            rintro ⟨v, p, hp'⟩ ⟨w, _⟩ ⟨⟨_, first⟩, rfl, left⟩
            have less : p.length < s.length :=
              Nat.lt_of_le_of_lt hp' (Nat.lt_trans (Nat.lt_succ_self _) lt)
            refine (items p less stop left).bind ?_
            rintro ⟨vs, p', hp''⟩ ⟨ws, _⟩ ⟨more, rfl, left⟩
            exact .pure ⟨fun h => congrArg₂ _ (first h) (more h), rfl, left⟩
          · split
            · exact .pure ⟨fun _ => rfl, rfl, hrest⟩
            · exact inquires_fail ht ht (by simp) (by simp)

theorem asks_readJoined {comments : List String} {s : List Item}
    (pieces : ∀ r : List Item, r.length ≤ s.length → AsksPieces B D c true r) :
    AsksJoined B D c comments s := by
  intro stop hs
  rw [readJoined, readJoined]
  refine (inquires_skipNewlines stop hs).bind ?_
  rintro ⟨r, hr⟩ _ ⟨rfl, left⟩
  simp only []
  split
  · exact .pure ⟨⟨rfl, fun _ => rfl⟩, rfl, left⟩
  · next conf =>
    refine (pieces r hr stop left).bind ?_
    rintro ⟨ps, q, hq⟩ ⟨qs, _⟩ ⟨similar, rfl, left⟩
    have own (vs : List Value) (e : Error) (h : concatenate vs = .error e) : Own c.origin D e := by
      unfold concatenate at h
      split at h <;> cases h
      next he =>
      obtain ⟨o, fault, rfl⟩ := exists_wrongType_of_joinRun he
      exact .type o fault
    refine (Inquires.ofExcept (concatenate_sameShape similar) (own ps) (own qs)).bind ?_
    rintro v w some
    cases v with
    | none =>
      cases w with
      | some => cases some
      | none => exact .pure ⟨⟨rfl, fun h => absurd h conf⟩, rfl, left⟩
    | some v =>
      cases w with
      | none => cases some
      | some w => exact .pure ⟨⟨rfl, fun h => absurd h conf⟩, rfl, left⟩

theorem asks_readPieces {first : Bool} {t : Item} {rest : List Item}
    (continues : t.continuesValue = true)
    (value : AsksValue B D c { t with comments := if first then [] else t.comments } [] rest)
    (pieces : ∀ r : List Item, r.length ≤ rest.length → AsksPieces B D c false r) :
    AsksPieces B D c first (t :: rest) := by
  intro stop hs
  obtain ⟨ht, hrest⟩ := List.forall_mem_cons.1 hs
  rw [readPieces, readPieces, if_pos continues, if_pos continues]
  refine (value stop ht hrest).bind ?_
  rintro ⟨v, r, hr⟩ ⟨w, _⟩ ⟨⟨similar, -⟩, rfl, left⟩
  refine (inquires_checkFront stop left).bind fun _ _ _ => ?_
  refine (pieces r hr stop left).bind ?_
  rintro ⟨vs, q, hq⟩ ⟨ws, _⟩ ⟨similar', rfl, left⟩
  exact .pure ⟨.cons similar similar', rfl, left⟩

theorem asks_readFieldValue {comments : List String} {s : List Item}
    (joined : AsksJoined B D c comments s)
    (value : ∀ (t : Item) (rest : List Item), rest.length < s.length →
      AsksValue B D c t comments rest) : AsksFieldValue B D c comments s := by
  intro stop hs
  rw [readFieldValue, readFieldValue]
  refine (joined stop hs).bind ?_
  rintro ⟨v, r, hr⟩ ⟨w, _⟩ ⟨⟨some, json⟩, rfl, left⟩
  cases v with
  | some v =>
    cases w with
    | none => cases some
    | some w => exact .pure ⟨fun h => (by cases json h), rfl, left⟩
  | none =>
    cases w with
    | some w => cases some
    | none =>
      refine (inquires_skipNewlines stop left).bind ?_
      rintro ⟨q, hq⟩ _ ⟨rfl, left⟩
      cases q with
      | nil => exact inquires_fail stop stop (by simp) (by simp)
      | cons t rest =>
        have lt : rest.length < s.length := Nat.lt_of_lt_of_le hq hr
        obtain ⟨ht, hrest⟩ := List.forall_mem_cons.1 left
        refine (value t rest lt stop ht hrest).bind ?_
        rintro ⟨v, p, hp⟩ ⟨w, _⟩ ⟨⟨_, same⟩, rfl, left⟩
        exact .pure ⟨same, rfl, left⟩

theorem exists_appended (c : Context) (key : Path) (v : Value) : ∃ w, appended c key v = .ok w :=
  ⟨_, rfl⟩

/-- A value is put over the fields so far unless JSON has the key already. -/
theorem inquires_putField {f g : Fields} (h : c.Abreast f g) {t : Item} (ht : t.Stands D)
    (key : Path) {v w : Value} (same : c.Settled v w) (after : Bool) :
    c.Asks B D c.Abreast
      (liftM do
        let entries ← putField c f.entries t key v
        return { f with entries, lastKey := some key, lastAfterEquals := after } : Loading Fields)
      (liftM do
        let entries ← putField (c.answering B) g.entries t key w
        return { g with entries, lastKey := some key, lastAfterEquals := after } :
          Loading Fields) := by
  by_cases json : c.syn = .json
  · have equal : putField (c.answering B) g.entries t key w = putField c f.entries t key v := by
      rw [h.2 json, same json]
      rfl
    rw [equal]
    cases put : putField c f.entries t key v with
    | ok entries => exact .pure ⟨h.1, fun _ => rfl⟩
    | error e =>
      have own : Own c.origin D e := by
        unfold putField at put
        split at put
        · cases put
        · split at put <;> cases put
          exact own_fail ht _ (by simp)
      exact .throw own own
  · have puts (c : Context) (conf : c.syn ≠ .json) (fs : Entries Value) (v : Value) :
        ∃ fs', putField c fs t key v = .ok fs' := by
      unfold putField
      split
      · exact ⟨_, rfl⟩
      · rw [if_neg fun h => conf h.1]
        exact ⟨_, rfl⟩
    obtain ⟨fs, hfs⟩ := puts c json f.entries v
    obtain ⟨gs, hgs⟩ := puts (c.answering B) json g.entries w
    rw [hfs, hgs]
    exact .pure ⟨h.1, fun h => absurd h json⟩

theorem asks_readField {f : Fields} {t : Item} {s : List Item}
    (value : ∀ (key : Path) (u : Item) (rest : List Item), rest.length < s.length →
      AsksValue B D (c.enter key) u t.comments rest)
    (fieldValue : ∀ (key : Path) (u : Item) (rest : List Item), rest.length < s.length →
      AsksFieldValue B D { c.enter key with afterEquals := c.afterEquals || u.kind.isEquals }
        (t.comments ++ u.comments) rest) : AsksField B D c f t s := by
  intro stop ht hs g abreast
  rw [readField, readField]
  refine (inquires_readKey stop ht hs).bind ?_
  rintro ⟨key, r, hr⟩ ⟨_, _⟩ ⟨rfl, rfl, left⟩
  refine (inquires_skipNewlines stop left).bind ?_
  rintro ⟨q, hq⟩ _ ⟨rfl, left⟩
  cases q with
  | nil => exact inquires_fail stop stop (by simp) (by simp)
  | cons u rest =>
    have lt : rest.length < s.length := Nat.lt_of_lt_of_le hq hr
    obtain ⟨hu, hrest⟩ := List.forall_mem_cons.1 left
    simp only []
    split
    · -- an object needs no separator in front
      refine (value key u rest lt stop hu hrest).bind ?_
      rintro ⟨v, p, hp⟩ ⟨w, _⟩ ⟨⟨_, same⟩, rfl, left⟩
      refine (inquires_putField abreast ht key same false).bind fun f g h => ?_
      exact .pure ⟨h, rfl, left⟩
    · have same : isKeySeparator (c.answering B) u = isKeySeparator c u := rfl
      rw [same]
      split
      · refine (fieldValue key u rest lt stop hrest).bind ?_
        rintro ⟨v, p, hp⟩ ⟨w, _⟩ ⟨same, rfl, left⟩
        simp only []
        split
        · obtain ⟨v', hv'⟩ := exists_appended c key v
          obtain ⟨w', hw'⟩ := exists_appended (c.answering B) key w
          have same' : c.Settled v' w' := by
            intro json
            have value : v = w := same json
            have equal : appended (c.answering B) key v = appended c key v := rfl
            rw [← value, equal, hv'] at hw'
            exact Except.ok.inj hw'
          rw [hv', hw']
          refine (Inquires.pure same').bind fun v w same => ?_
          refine (inquires_putField abreast ht key same _).bind fun f g h => ?_
          exact .pure ⟨h, rfl, left⟩
        · refine (Inquires.pure same).bind fun v w same => ?_
          refine (inquires_putField abreast ht key same _).bind fun f g h => ?_
          exact .pure ⟨h, rfl, left⟩
      · exact inquires_fail hu hu (by simp) (by simp)

theorem asks_readFields {braced : Bool} {f : Fields} {s : List Item}
    (fields : ∀ (g : Fields) (t : Item) (rest q p : List Item), (t :: rest).length ≤ s.length →
      q.length ≤ rest.length → p.length < q.length →
      AsksFields B D c braced { g with afterSeparator := true } p)
    (field : ∀ (t : Item) (rest : List Item), rest.length < s.length →
      AsksField B D c f t rest) : AsksFields B D c braced f s := by
  intro stop hs g abreast
  rw [readFields, readFields]
  refine (inquires_skipNewlines stop hs).bind ?_
  rintro ⟨r, hr⟩ _ ⟨rfl, left⟩
  cases r with
  | nil =>
    simp only []
    split
    · have shallow (limit : Nat) (chain : List String) (describe : String) :
          (if c.syn = .json then ParseFault.noFieldInJson describe else .noField describe)
            ≠ .includesTooDeep limit chain := by
        split <;> simp
      exact inquires_fail stop stop (fun _ _ => shallow _ _ _) (fun _ _ => shallow _ _ _)
    · exact .pure ⟨abreast.2, rfl, left⟩
  | cons t rest =>
    have lt : rest.length < s.length := hr
    obtain ⟨ht, hrest⟩ := List.forall_mem_cons.1 left
    simp only []
    split
    · rw [← abreast.1]
      split
      · exact inquires_fail ht ht (by simp) (by simp)
      · split
        · exact inquires_fail ht ht (by simp) (by simp)
        · exact .pure ⟨abreast.2, rfl, hrest⟩
    · -- an include statement or a field; both leave fields, and go on alike
      split
      case' isTrue statement =>
        obtain ⟨includes, conf⟩ := Bool.and_eq_true_iff.1 statement
        have conf : c.syn ≠ .json := by simpa using conf
        refine (inquires_readInclude stop hrest f.entries g.entries ht includes conf).bind ?_
        rintro ⟨entries, q, hq⟩ ⟨entries', _⟩ ⟨_, rfl, left⟩
        have abreast' : c.Abreast { f with entries } { g with entries := entries' } :=
          ⟨abreast.1, fun json => absurd json conf⟩
        have left : AllStand D q := left
        simp only []
        generalize ({ f with entries } : Fields) = f at abreast' ⊢
        generalize ({ g with entries := entries' } : Fields) = g at abreast' ⊢
      case' isFalse =>
        refine (field t rest lt stop ht hrest g abreast).bind ?_
        rintro ⟨f, q, hq⟩ ⟨g, _⟩ ⟨abreast', rfl, left⟩
        have left : AllStand D q := left
      all_goals
        refine (inquires_readSeparator stop left).bind ?_
        rintro separation _ ⟨rfl, within⟩
        cases separation with
        | found p =>
          obtain ⟨p, hp⟩ := p
          refine (fields f t rest q p hr hq hp stop within { g with afterSeparator := true }
            ⟨rfl, abreast'.2⟩).bind ?_
          rintro ⟨entries, p', hp'⟩ ⟨entries', _⟩ ⟨same, rfl, left⟩
          exact .pure ⟨same, rfl, left⟩
        | missing p =>
          obtain ⟨p, hp⟩ := p
          cases p with
          | nil =>
            simp only []
            split
            · exact inquires_fail stop stop (by simp) (by simp)
            · exact .pure ⟨abreast'.2, rfl, within⟩
          | cons u rest' =>
            obtain ⟨hu, hrest'⟩ := List.forall_mem_cons.1 (within : AllStand D (u :: rest'))
            simp only []
            split
            · split
              · exact .pure ⟨abreast'.2, rfl, hrest'⟩
              · exact inquires_fail hu hu (by simp) (by simp)
            · have shallow (limit : Nat) (chain : List String) : (if braced = true
                  then ParseFault.openObject u.describe else .openRoot u.describe)
                    ≠ .includesTooDeep limit chain := by
                split <;> simp
              exact inquires_fail hu hu shallow shallow

variable (B D)

/-- **The functions of the grammar** ask for the same, whatever answers them. -/
theorem read_inquires :
    (∀ c t comments s, AsksValue B D c t comments s) ∧
    (∀ c s, AsksList B D c s) ∧
    (∀ c s, AsksItems B D c s) ∧
    (∀ c comments s, AsksJoined B D c comments s) ∧
    (∀ c first s, AsksPieces B D c first s) ∧
    (∀ c braced f s, AsksFields B D c braced f s) ∧
    (∀ c f t s, AsksField B D c f t s) ∧
    (∀ c comments s, AsksFieldValue B D c comments s) := by
  -- what is the same in both and no object is of one shape
  have single {c : Context} {v : Value} (piece : v.isPiece = true) (plain : v.fields? = none)
      (comments : List String) :
      SameShape (withComments v comments) (withComments v comments)
        ∧ c.Settled (withComments v comments) (withComments v comments) := by
    refine ⟨.same ((isPiece_withComments v comments).trans piece) ?_, fun _ => rfl⟩
    unfold withComments
    split
    · exact plain
    · cases v <;> first | rfl | cases plain
  refine readValue.mutual_induct _ _ _ _ _ _ _ _ ?literal ?bare ?substitution ?brace ?bracket ?other
    ?list ?items ?joined ?noPieces ?pieces ?lastPiece ?fields ?field ?fieldValue
  case literal =>
    intro c t comments s literal kind stop ht hs
    rw [readValue, readValue]
    simp only [kind]
    refine .pure ⟨single ?_ ?_ _, rfl, hs⟩ <;> cases literal <;> rfl
  case bare =>
    intro c t comments s text kind stop ht hs
    rw [readValue, readValue]
    simp only [kind]
    exact .pure ⟨single rfl rfl _, rfl, hs⟩
  case substitution =>
    intro c t comments s optional expression kind stop ht hs
    rw [readValue, readValue]
    simp only [kind]
    refine (inquires_pathOf _ _).bind ?_
    rintro path _ rfl
    exact .pure ⟨single rfl rfl _, rfl, hs⟩
  case brace =>
    intro c t comments s kind ih stop ht hs
    rw [readValue, readValue]
    simp only [kind]
    refine (ih stop hs {} ⟨rfl, fun _ => rfl⟩).bind ?_
    rintro ⟨fs, r⟩ ⟨gs, _⟩ ⟨same, rfl, left⟩
    refine .pure ⟨⟨.objects ?_ ?_, fun json => ?_⟩, rfl, left⟩
    · unfold withComments
      split <;> rfl
    · unfold withComments
      split <;> rfl
    · rw [show fs = gs from same json]
      rfl
  case bracket =>
    intro c t comments s kind ih stop ht hs
    rw [readValue, readValue]
    simp only [kind]
    refine (ih stop hs).bind ?_
    rintro ⟨xs, r⟩ ⟨ys, _⟩ ⟨same, rfl, left⟩
    refine .pure ⟨⟨.lists ?_ ?_, fun json => ?_⟩, rfl, left⟩
    · unfold withComments
      split <;> rfl
    · unfold withComments
      split <;> rfl
    · rw [show xs = ys from same json]
      rfl
  case other =>
    intro c t comments s h1 h2 h3 h4 h5 stop ht hs
    rw [readValue, readValue]
    simp only []
    exact inquires_fail ht ht (by simp) (by simp)
  case list =>
    intro c s joined items value _
    exact asks_readList joined items fun t rest lt => value s (Nat.le_refl _) [] t rest lt
  case items =>
    intro c s joined items value _
    exact asks_readItems joined (fun r lt => items _ lt _ (Nat.le_refl _)) fun t rest lt =>
      value (t :: rest) lt (t :: rest) (Nat.le_refl _) [] t rest (Nat.le_refl _)
  case joined => exact fun c comments s pieces => asks_readJoined pieces
  case noPieces =>
    intro c first stop hs
    rw [readPieces, readPieces]
    exact .pure ⟨.nil, rfl, List.forall_mem_nil _⟩
  case pieces =>
    intro c first t rest continues u value pieces
    exact asks_readPieces continues value pieces
  case lastPiece =>
    intro c first t rest last stop hs
    rw [readPieces, readPieces, if_neg last, if_neg last]
    exact .pure ⟨.nil, rfl, hs⟩
  case fields =>
    intro c braced f s fields field
    exact asks_readFields (fun g t rest q p hr hq hp => fields [] t rest hr g q hq p hp)
      fun t rest lt => field [] t rest lt
  case field =>
    intro c f t s value fieldValue
    exact asks_readField (fun key u rest lt => value key s (Nat.le_refl _) [] u rest lt)
      fun key u rest lt => fieldValue key s (Nat.le_refl _) [] u rest lt u.kind
  case fieldValue =>
    intro c comments s joined value
    exact asks_readFieldValue joined fun t rest lt => value s (Nat.le_refl _) [] t rest lt

end Grammar

/-! ### Whole documents -/

section

variable {B : Answers} {D : TokenKind → Span → Nat → Prop} {c : Context}

/-- Nothing but line ends may stand behind the root. -/
theorem inquires_end (stop : c.stop.Stands D) {v w : Value} (similar : SameShape v w)
    {s : List Item} (hs : AllStand D s) :
    c.Asks B D SameShape
      (do
        let r ← skipNewlines c s
        match r.val with
        | [] => return v
        | t :: _ => throw (c.fail t (.trailing t.describe)))
      (do
        let r ← skipNewlines (c.answering B) s
        match r.val with
        | [] => return w
        | t :: _ => throw ((c.answering B).fail t (.trailing t.describe))) := by
  refine (inquires_skipNewlines stop hs).bind ?_
  rintro ⟨r, hr⟩ _ ⟨rfl, left⟩
  cases r with
  | nil => exact .pure similar
  | cons t rest =>
    obtain ⟨ht, -⟩ := List.forall_mem_cons.1 left
    exact inquires_fail ht ht (by simp) (by simp)

theorem inquires_readRoot {s : List Item} (stop : c.stop.Stands D) (hs : AllStand D s) :
    c.Asks B D SameShape (readRoot c s) (readRoot (c.answering B) s) := by
  unfold readRoot
  refine (inquires_skipNewlines stop hs).bind ?_
  rintro ⟨r, hr⟩ _ ⟨rfl, left⟩
  have front := front_mem stop left
  have braceless (empty : Bool) : c.Asks B D
      (fun a b : Value × List Item => SameShape a.1 b.1 ∧ a.2 = b.2 ∧ AllStand D a.2)
      (if c.syn = .json then throw (c.fail (c.front r)
          (if empty then .emptyDocument else .badRoot (c.front r).describe))
        else do
          let r' ← readFields c false {} r
          return (.ofFields (c.originAt (c.front r).line) r'.1, r'.2.val) :
            Loading (Value × List Item))
      (if c.syn = .json then throw ((c.answering B).fail (c.front r)
          (if empty then .emptyDocument else .badRoot (c.front r).describe))
        else do
          let r' ← readFields (c.answering B) false {} r
          return (.ofFields (c.originAt (c.front r).line) r'.1, r'.2.val)) := by
    split
    · have shallow (limit : Nat) (chain : List String) (describe : String) : (if empty = true
          then ParseFault.emptyDocument else .badRoot describe) ≠ .includesTooDeep limit chain := by
        split <;> simp
      exact inquires_fail front front (fun _ _ => shallow _ _ _) (fun _ _ => shallow _ _ _)
    · refine ((read_inquires B D).2.2.2.2.2.1 c false {} r stop left {} ⟨rfl, fun _ => rfl⟩).bind ?_
      rintro ⟨fs, q⟩ ⟨gs, _⟩ ⟨_, rfl, left⟩
      exact .pure ⟨.objects rfl rfl, rfl, left⟩
  cases r with
  | nil =>
    refine (braceless _).bind ?_
    rintro ⟨v, q⟩ ⟨w, _⟩ ⟨same, rfl, left⟩
    exact inquires_end stop same left
  | cons t rest =>
    obtain ⟨ht, hrest⟩ := List.forall_mem_cons.1 left
    simp only []
    split
    · refine ((read_inquires B D).1 c t [] rest stop ht hrest).bind ?_
      rintro ⟨v, q⟩ ⟨w, _⟩ ⟨⟨same, -⟩, rfl, left⟩
      rw [pure_bind, pure_bind]
      exact inquires_end stop same left
    · refine (braceless _).bind ?_
      rintro ⟨v, q⟩ ⟨w, _⟩ ⟨same, rfl, left⟩
      exact inquires_end stop same left

end

end Document

/-! ### The statements of a text -/

/-- The note that a reader makes of what is asked for. -/
def IncludeRequest.note (r : IncludeRequest) : IncludeRecord where
  includer := ""
  name := r.name
  chain := []
  allowMissing := !r.required
  relative := if r.isFileName then "file" else ""

/-- What was asked for, by the note that was made of it. -/
def IncludeRecord.request (n : IncludeRecord) : IncludeRequest where
  name := n.name
  isFileName := n.relative = "file"
  required := !n.allowMissing

@[simp] theorem IncludeRequest.request_note (r : IncludeRequest) : r.note.request = r := by
  obtain ⟨name, isFileName, required⟩ := r
  cases isFileName <;> cases required <;> rfl

namespace Document

/-- Answers every statement with an empty object, and makes a note of it. -/
def noting : Answers := fun r => do
  modify fun notes => notes ++ [r.note]
  return .emptyObject (.named r.name)

/-- The include statements that a reader of a text comes to. -/
def requestsIn (syn : DocumentSyntax) (origin : Origin) (text : String) : List IncludeRequest :=
  ((read syn origin noting text).run.run []).2.map IncludeRecord.request

/-- The include statements of a document; one with properties has none. -/
def requests (files : FileTree) (d : Document) (o : ParseOptions) : List IncludeRequest :=
  match d.content files with
  | .error _ => []
  | .ok text =>
    match d.syntaxFor o with
    | .properties => []
    | syn => requestsIn syn (d.originFor o) text

/-! ### What a reading comes to -/

theorem run_ask_noting (q : Inquiry) (notes : List IncludeRecord) :
    (q.ask noting).run.run notes
      = (.ok (.emptyObject (.named q.request.name)), notes ++ [q.request.note]) := rfl

/-- The answer to a statement is an object. -/
theorem ask_object {q : Inquiry} {A : Answers} {m m' : List IncludeRecord} {v : Value}
    (h : (q.ask A).run.run m = (.ok v, m')) : v.fields?.isSome = true := by
  obtain ⟨outcome, m₁, -, run⟩ := exists_run_of_bind h
  cases outcome with
  | error e => cases run
  | ok w =>
    simp only [] at run
    split at run
    · next object =>
      cases run
      exact object
    · cases run

/-- A computation is run, and its outcome looked at. -/
theorem run_attempt {α β : Type} (x : Loading α) (f : Except Error α → Loading β)
    (m : List IncludeRecord) :
    (liftM (x.run : StateM (List IncludeRecord) (Except Error α)) >>= f).run.run m
      = (f (x.run.run m).1).run.run (x.run.run m).2 := rfl

/-- A computation whose outcome does not hang on the records. -/
def Blind {α : Type} (x : Loading α) : Prop := ∀ m m', (x.run.run m).1 = (x.run.run m').1

namespace Blind

variable {α β : Type} {x : Loading α}

theorem bind {f : α → Loading β} (hx : Blind x)
    (more : ∀ m a m', x.run.run m = (.ok a, m') → Blind (f a)) : Blind (x >>= f) := by
  intro m m'
  have same := hx m m'
  rcases here : x.run.run m with ⟨e | a, m₁⟩ <;> rcases there : x.run.run m' with ⟨e' | b, m₁'⟩ <;>
    rw [here, there] at same <;> cases same
  · rw [run_bind_of_error here, run_bind_of_error there]
  · rw [run_bind_of_ok here, run_bind_of_ok there]
    exact more m a m₁ here m₁ m₁'

/-- A computation whose outcome is looked at. -/
theorem attempt {f : Except Error α → Loading β} (hx : Blind x) (more : ∀ r, Blind (f r)) :
    Blind (liftM (x.run : StateM (List IncludeRecord) (Except Error α)) >>= f) := by
  intro m m'
  rw [run_attempt, run_attempt, hx m m']
  exact more _ _ _

theorem ask {A : Answers} {q : Inquiry} (h : Blind (A q.request)) : Blind (q.ask A) := by
  unfold Inquiry.ask
  refine h.attempt fun r => ?_
  cases r with
  | error e => exact fun _ _ => rfl
  | ok v =>
    simp only []
    split <;> exact fun _ _ => rfl

end Blind

theorem Fails.ask {A : Answers} {q : Inquiry} (h : Fails (A q.request)) : Fails (q.ask A) := by
  unfold Inquiry.ask
  exact h.attempt fun e => .throw

namespace Inquires

variable {A : Answers} {E : Error → Prop} {Q : Inquiry → Prop} {α β : Type} {R : α → β → Prop}
  {x : Loading α} {y : Loading β}

/-- Notes are kept. -/
theorem mem_notes (h : Inquires A noting E Q R x y) {notes : List IncludeRecord} {n : IncludeRecord}
    (hn : n ∈ notes) : n ∈ (y.run.run notes).2 := by
  induction h generalizing notes with
  | pure => exact hn
  | throw => exact hn
  | @ask q _ _ next' _ ih =>
    rw [run_bind_of_ok (run_ask_noting q notes)]
    exact ih _ _ (rfl : (emptyObject (.named "")).fields?.isSome = true) rfl
      (List.mem_append_left _ hn)

/-- What is noted, a statement is the reason of. -/
theorem stated_of_note (h : Inquires A noting E Q R x y) {notes : List IncludeRecord}
    {n : IncludeRecord} (hn : n ∈ (y.run.run notes).2) (fresh : n ∉ notes) :
    ∃ q, Q q ∧ n = q.request.note := by
  induction h generalizing notes with
  | pure => exact absurd hn fresh
  | throw => exact absurd hn fresh
  | @ask q hq next next' more ih =>
    rw [run_bind_of_ok (run_ask_noting q notes)] at hn
    by_cases this : n = q.request.note
    · exact ⟨q, hq, this⟩
    · have fresh' : n ∉ notes ++ [q.request.note] := by
        rw [List.mem_append, List.mem_singleton]
        exact not_or.2 ⟨fresh, this⟩
      exact ih (.emptyObject (.named "")) _ rfl rfl hn fresh'

/-- A failure is one of the document's own, which is then met whatever the answers, or a statement
that was come to is refused. -/
theorem failure (h : Inquires A noting E Q R x y) {m m' : List IncludeRecord} {e : Error}
    (run : x.run.run m = (.error e, m')) (notes : List IncludeRecord) :
    (E e ∧ ∃ e', (y.run.run notes).1 = .error e')
      ∨ ∃ (q : Inquiry) (m₁ : List IncludeRecord), (q.ask A).run.run m₁ = (.error e, m')
        ∧ q.request.note ∈ (y.run.run notes).2 := by
  induction h generalizing m notes with
  | pure => cases run
  | @throw e₁ e₂ h _ =>
    cases run
    exact .inl ⟨h, e₂, rfl⟩
  | @ask q hq next next' more ih =>
    rw [run_bind_of_ok (run_ask_noting q notes)]
    rcases here : (q.ask A).run.run m with ⟨e' | v, m₁⟩
    · -- this statement is refused
      rw [run_bind_of_error here] at run
      cases run
      let empty : Value := .emptyObject (.named q.request.name)
      have later := more empty empty rfl rfl
      exact .inr ⟨q, m, here, later.mem_notes (List.mem_append_right _ (List.mem_singleton_self _))⟩
    · rw [run_bind_of_ok here] at run
      exact ih v _ (ask_object here) rfl run _

/-- A result is met whatever the answers, as long as they are objects. -/
theorem result (h : Inquires A noting E Q R x y) {m m' : List IncludeRecord} {a : α}
    (run : x.run.run m = (.ok a, m')) (notes : List IncludeRecord) :
    ∃ b, (y.run.run notes).1 = .ok b ∧ R a b := by
  induction h generalizing m notes with
  | @pure a' b h =>
    cases run
    exact ⟨b, rfl, h⟩
  | throw => cases run
  | @ask q hq next next' more ih =>
    rw [run_bind_of_ok (run_ask_noting q notes)]
    rcases here : (q.ask A).run.run m with ⟨e' | v, m₁⟩
    · rw [run_bind_of_error here] at run
      cases run
    · rw [run_bind_of_ok here] at run
      exact ih v _ (ask_object here) rfl run _

/-- Nothing is read where a statement that was noted is always refused. -/
theorem fails_of_note (h : Inquires A noting E Q R x y) {notes : List IncludeRecord}
    {n : IncludeRecord} (hn : n ∈ (y.run.run notes).2) (fresh : n ∉ notes)
    (refused : Fails (A n.request)) : Fails x := by
  induction h generalizing notes with
  | pure => exact absurd hn fresh
  | throw => exact absurd hn fresh
  | @ask q hq next next' more ih =>
    rw [run_bind_of_ok (run_ask_noting q notes)] at hn
    by_cases this : n = q.request.note
    · -- this is the statement
      rw [this, IncludeRequest.request_note] at refused
      exact refused.ask.bind_left _
    · intro m b m'' run
      obtain ⟨v, m', here, there⟩ := exists_run_of_bind run
      have fresh' : n ∉ notes ++ [q.request.note] := by
        rw [List.mem_append, List.mem_singleton]
        exact not_or.2 ⟨fresh, this⟩
      exact ih v _ (ask_object here) rfl hn fresh' m' b m'' there

/-- The outcome does not hang on the records, if those of the answers do not. -/
theorem blind (h : Inquires A noting E Q R x y) (answers : ∀ r, Blind (A r)) : Blind x := by
  induction h with
  | pure => exact fun _ _ => rfl
  | throw => exact fun _ _ => rfl
  | @ask q hq next next' more ih =>
    exact (Blind.ask (answers _)).bind fun m v m' here => ih v v (ask_object here) (ask_object here)

end Inquires

/-! ### Reading a text -/

/-- Every item is a token, apart from its comments. -/
theorem exists_token_of_attachComments {block : Option CommentBlock} {ts : List Token} {u : Item}
    (h : u ∈ attachComments block ts) : (⟨u.kind, u.span, u.line⟩ : Token) ∈ ts := by
  induction ts generalizing block with
  | nil => cases h
  | cons t ts ih =>
    have item {comments : List String} {block : Option CommentBlock}
        (h : u ∈ Item.ofToken t comments :: attachComments block ts) :
        (⟨u.kind, u.span, u.line⟩ : Token) ∈ t :: ts := by
      rcases List.mem_cons.1 h with rfl | h
      · exact List.mem_cons_self
      · exact List.mem_cons_of_mem _ (ih h)
    unfold attachComments at h
    split at h
    · exact List.mem_cons_of_mem _ (ih h)
    · exact List.mem_cons_of_mem _ (ih h)
    · exact List.mem_cons_of_mem _ (ih h)
    · exact List.mem_cons_of_mem _ (ih h)
    all_goals exact item h

theorem dropSideComments_sublist (midLine : Bool) (ts : List Token) :
    (dropSideComments midLine ts).Sublist ts := by
  induction ts generalizing midLine with
  | nil => exact .slnil
  | cons t ts ih =>
    rw [dropSideComments]
    split
    · exact (ih _).cons_cons t
    · split
      · exact (ih _).cons t
      · exact (ih _).cons_cons t
    · exact (ih _).cons_cons t
    · exact (ih _).cons_cons t

/-- The item is one of the tokens. -/
abbrev IsToken (ts : List Token) (kind : TokenKind) (span : Span) (line : Nat) : Prop :=
  (⟨kind, span, line⟩ : Token) ∈ ts

theorem allStand_ofTokens (ts : List Token) : AllStand (IsToken ts) (Item.ofTokens ts) :=
  fun _ h => (dropSideComments_sublist false ts).subset (exists_token_of_attachComments h)

theorem stands_stopOf {ts : List Token} (h : ts ≠ []) : (Item.stopOf ts).Stands (IsToken ts) := by
  rw [Item.stopOf, List.getLast?_eq_getLast_of_ne_nil h]
  exact List.getLast_mem h

/-- Where the reading of a text starts. -/
def start (syn : DocumentSyntax) (origin : Origin) (answer : Answers) (text : String) : Context :=
  { syn, origin, answer, stop := .stopOf (Token.ofText syn text.toList), keys := []
    afterEquals := false }

/-- **A text is read in step** with a reader that answers each statement with an empty object. -/
theorem inquires_read (syn : DocumentSyntax) (origin : Origin) (A : Answers) (text : String) :
    Inquires A noting (Own origin (IsToken (Token.ofText syn text.toList)))
      (Stated (start syn origin A text) (IsToken (Token.ofText syn text.toList))) SameShape
      (read syn origin A text) (read syn origin noting text) :=
  inquires_readRoot (c := start syn origin A text) (stands_stopOf nofun) (allStand_ofTokens _)

/-! ### Loading -/

/-- How the documents that a statement asks for are to be read. -/
def asking (o : ParseOptions) (r : IncludeRequest) : ParseOptions :=
  if r.required then { o.inherited with allowMissing := false } else o.inherited

/-- What answers the statements of a document that is loaded. -/
def answers (files : FileTree) (shelves : Nat) (d : Document)
    (depth : d.chain.length < maxIncludeDepth) (o : ParseOptions) : Answers := fun r =>
  d.find files shelves depth (asking o r) r (asking o r).allIncluders

section

variable {files : FileTree} {d : Document} {o : ParseOptions} {text : String}

theorem requests_eq (content : d.content files = .ok text) (syn : d.syntaxFor o ≠ .properties) :
    d.requests files o = requestsIn (d.syntaxFor o) (d.originFor o) text := by
  unfold requests
  rw [content]
  simp only []

/-- A document that is no list of properties is read, and its root looked at. -/
theorem load_eq_read (shelves : Nat) (depth : d.chain.length < maxIncludeDepth)
    (content : d.content files = .ok text) (syn : d.syntaxFor o ≠ .properties) :
    d.load files shelves o = (do
      let v ← Document.read (d.syntaxFor o) (d.originFor o) (d.answers files shelves depth o) text
      checkRoot (d.originFor o) v) := by
  rw [Document.load, dif_pos depth, content]
  generalize d.syntaxFor o = s at syn ⊢
  cases s with
  | properties => exact absurd rfl syn
  | json => rfl
  | conf => rfl

/-- A list of properties asks for nothing. -/
theorem load_eq_properties (shelves : Nat) (depth : d.chain.length < maxIncludeDepth)
    (content : d.content files = .ok text) (syn : d.syntaxFor o = .properties) :
    d.load files shelves o = (do
      let v ← (liftM (Properties.read (d.originFor o) text) : Loading Value)
      checkRoot (d.originFor o) v) := by
  rw [Document.load, dif_pos depth, content, syn]

theorem load_eq_missing (shelves : Nat) (depth : d.chain.length < maxIncludeDepth)
    {fault : ReadFault} (content : d.content files = .error fault) :
    d.load files shelves o =
      if o.allowMissing then pure (.emptyObject (d.originFor o))
      else throw (.unreadable (d.originFor o) (.file fault)) := by
  rw [Document.load, dif_pos depth, content]

theorem load_eq_tooDeep (shelves : Nat) (depth : ¬ d.chain.length < maxIncludeDepth) :
    d.load files shelves o =
      throw (.parse (d.originFor o) (.includesTooDeep maxIncludeDepth d.chain) .none none) := by
  rw [Document.load, dif_neg depth]

end

end Document

end Hocon
