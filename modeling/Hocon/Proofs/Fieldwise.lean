import Hocon.Proofs.Depth
import Hocon.Proofs.Lookback
import Hocon.Proofs.Outcomes

/-!
# Documents field by field

A document is more than the tree that it is read to: it is a list of fields, some of which may
define the same key again.  `Document.fieldsOf` reads these fields one by one and puts none of
them over another.  The tree of the document is what they come to when each is put over those
before it (`Document.exists_fieldsOf`), so a fact about the fields is one about the document.

What looks back is such a fact.  Fields may define a key anew in terms of what it was; each sees
what the fields before it come to, and nothing else (`Value.resolve_lookback`).
-/

namespace Hocon

/-! ### Trees over each other -/

namespace Value

variable {k : Path} {v w : Value} {ds ls : List Value}

theorem ignoresFallbacks_of_isResolved (h : v.isResolved = true) (notObject : v.fields? = none) :
    v.ignoresFallbacks = true := by
  cases v with
  | object => cases notObject
  | reference | concat | merge => cases h
  | list => exact h
  | _ => rfl

/-- What needs nothing and is put over what needs nothing needs nothing. -/
theorem isResolved_withFallback (hv : v.isResolved = true) (hw : w.isResolved = true) :
    (v.withFallback w).isResolved = true := by
  induction v using parts_induction generalizing w with
  | node v ih =>
    cases hf : v.fields? with
    | none => rwa [withFallback_of_ignoresFallbacks (ignoresFallbacks_of_isResolved hv hf)]
    | some own =>
      obtain ⟨p, c, rfl⟩ := eq_object_of_fields? hf
      cases hg : w.fields? with
      | none =>
        rw [Value.withFallback, absorb?_object_of_fields?_eq_none hg]
        simp only [isPending_of_isResolved hw, hv, if_true, Bool.false_eq_true, if_false]
        cases c <;> exact hv
      | some other =>
        obtain ⟨q, c', rfl⟩ := eq_object_of_fields? hg
        have own_resolved := fieldsResolved_iff.1 hv
        have fields := forall_mem_absorbFields (P := fun x => x.isResolved = true)
          (fun f hf x u hx hu => by
            have := ih f.2 (mem_parts_of_mem_fields hf) (own_resolved f hf) hx
            rwa [Value.withFallback, hu] at this)
          own_resolved (fieldsResolved_iff.1 hw)
        rw [Value.withFallback, absorb?_object]
        simp only []
        split
        · exact hv
        split
        · exact fieldsResolved_iff.2 fields
        split
        · exact fieldsResolved_iff.2 fields
        · exact hv

/-- What definitions are put over others look back. -/
theorem History.looks {ds : List Value} (h : History k (ds ++ ls)) (present : ls ≠ []) :
    ∀ d ∈ ds, LooksBack k d := by
  induction ds with
  | nil => exact nofun
  | cons d ds ih =>
    generalize hl : d :: ds ++ ls = ls' at h
    cases h with
    | nil => cases hl
    | base => simp_all
    | cons looks history =>
      cases hl
      exact List.forall_mem_cons.2 ⟨looks, ih history⟩

/-- What is in an object that holds definitions. -/
theorem Holds.fields {key : String} {keys : List String} (h : Holds (key :: keys) ls v) :
    ∃ p fs, v = object p false fs ∧ (Entries.keys fs).Nodup
      ∧ (∀ f ∈ fs, f.1 ≠ key → f.2.isResolved = true)
      ∧ (Entries.get? fs key = none ∧ ls = [] ∨ ∃ w, Entries.get? fs key = some w ∧ Holds keys ls w) := by
  cases h with
  | missing nodup get others => exact ⟨_, _, rfl, nodup, fun f hf _ => others f hf, .inl ⟨get, rfl⟩⟩
  | inside nodup get others rest => exact ⟨_, _, rfl, nodup, others, .inr ⟨_, get, rest⟩⟩

/-- Fields over each other hold the definitions of both. -/
theorem Holds.overlay {key : String} {keys : List String} {p q r : Provenance}
    {own other fs : Entries Value} (hv : Holds (key :: keys) ds (object p false own))
    (hw : Holds (key :: keys) ls (object q false other)) (nodup : (Entries.keys fs).Nodup)
    (get : ∀ k, Entries.get? fs k = Entries.overlay (Entries.get? own k) (Entries.get? other k))
    (inner : ∀ a b, Holds keys ds a → Holds keys ls b → Holds keys (ds ++ ls) (a.withFallback b)) :
    Holds (key :: keys) (ds ++ ls) (object r false fs) := by
  obtain ⟨_, _, ⟨⟩, _, own_others, own_key⟩ := hv.fields
  obtain ⟨_, _, ⟨⟩, _, other_others, other_key⟩ := hw.fields
  have others (f : String × Value) (hf : f ∈ fs) (ne : f.1 ≠ key) : f.2.isResolved = true := by
    have here := (get f.1).symm.trans (Entries.get?_of_mem nodup hf)
    rcases Entries.overlay_cases here with ha | hb | ⟨a, b, ha, hb, eq⟩
    · exact own_others _ (Entries.mem_of_get? ha) ne
    · exact other_others _ (Entries.mem_of_get? hb) ne
    · exact eq ▸ isResolved_withFallback (own_others _ (Entries.mem_of_get? ha) ne)
        (other_others _ (Entries.mem_of_get? hb) ne)
  have here := get key
  rcases own_key with ⟨ha, rfl⟩ | ⟨a, ha, holds⟩ <;> rcases other_key with ⟨hb, rfl⟩ | ⟨b, hb, holds'⟩
    <;> rw [ha, hb] at here
  · exact .missing nodup here fun f hf => others f hf fun same =>
      absurd (Entries.get?_of_mem nodup hf) (by simp [same, here])
  · exact .inside nodup here others holds'
  · rw [List.append_nil]
    exact .inside nodup here others holds
  · exact .inside nodup here others (inner a b holds holds')

/-- Trees over each other hold the definitions of both. -/
theorem Holds.withFallback {keys : List String} (hv : Holds keys ds v) (hw : Holds keys ls w)
    (looks : ls ≠ [] → ∀ d ∈ ds, LooksBack k d) : Holds keys (ds ++ ls) (v.withFallback w) := by
  induction keys generalizing v w with
  | nil =>
    cases hv with
    | here pile =>
      cases hw with
      | here pile' =>
        obtain ⟨o, eq⟩ := pile.withFallback (looks pile'.ne_nil) pile'
        rw [eq]
        refine .here (.many ?_)
        have := List.length_pos_of_ne_nil pile.ne_nil
        have := List.length_pos_of_ne_nil pile'.ne_nil
        rw [List.length_append]
        omega
  | cons key keys ih =>
    obtain ⟨p, own, rfl, own_nodup, -⟩ := hv.fields
    obtain ⟨q, other, rfl, other_nodup, -⟩ := hw.fields
    obtain ⟨p', fs, eq, -, -, nodup, get⟩ := withFallback_object own_nodup other_nodup p q false
    rw [eq]
    exact hv.overlay hw nodup get fun a b => ih

/-- A field put over fields that hold definitions adds its own. -/
theorem Holds.includeField {p q : Provenance} {fs : Entries Value} {f : String × Value}
    (hf : Holds k.keys ds (object p false [f])) (hfs : Holds k.keys ls (object q false fs))
    (looks : ls ≠ [] → ∀ d ∈ ds, LooksBack k d) :
    Holds k.keys (ds ++ ls) (object q false (Document.includeFields fs [f])) := by
  obtain ⟨_, _, ⟨⟩, nodup, -⟩ := hfs.fields
  refine hf.overlay hfs (Entries.nodup_keys_put nodup _ _) (fun key => ?_) fun a b holds holds' =>
    holds.withFallback holds' looks
  show Entries.get? (Entries.put fs f.1 _) key = _
  by_cases same : key = f.1
  · subst same
    rw [Entries.get?_put_self, Entries.get?, if_pos rfl]
    cases Entries.get? fs f.1 <;> rfl
  · rw [Entries.get?_put_of_ne same, Entries.get?, if_neg (Ne.symm same)]
    rfl

end Value

/-! ### Fields one by one -/

namespace Document

/-- Reads the fields of an object, each on its own, to the brace or the end of the document. -/
def readListing (c : Context) (s : List Item) : Loading (Entries Value) := do
  let ⟨r, hr⟩ ← skipNewlines c s
  match r, hr with
  | [], _ => return []
  | t :: rest, hr =>
    have : rest.length < s.length := hr
    match t.kind with
    | .closeBrace => return []
    | kind =>
      let (own, ⟨q, _⟩) ←
        if kind.isInclude then readInclude c [] t rest
        else do
          let (f, q) ← readField c {} t rest
          pure (f.entries, q)
      match ← readSeparator c q with
      | .found ⟨p, _⟩ => return own ++ (← readListing c p)
      | .missing _ => return own
termination_by s.length
decreasing_by omega

/-- Reads the fields of a document, each on its own; the braces of the root may be left out. -/
def readRootListing (c : Context) (s : List Item) : Loading (Entries Value) := do
  let ⟨r, _⟩ ← skipNewlines c s
  match r with
  | [] => readListing c []
  | t :: rest =>
    match t.kind with
    | .openBrace => readListing c rest
    | .openBracket => do
      -- a list has no fields
      let _ ← readList c rest
      return []
    | _ => readListing c (t :: rest)

/-- The fields of a HOCON text in their order, none of them put over another. -/
def fieldsOf (text : String) : Except Error (Entries Value) :=
  let answer (request : IncludeRequest) : Loading Value :=
    throw (.notIncluded (.named request.name) (.notAnObject request.name))
  let tokens := Token.ofText .conf text.toList
  let c : Context :=
    { syn := .conf, origin := .named "String", answer, stop := .stopOf tokens, keys := []
      afterEquals := false }
  ((readRootListing c (Item.ofTokens tokens)).run.run []).1

/-- Where `x` gives a result, `y` gives one that is related to it. -/
def Pairs {α β : Type} (x : Loading α) (y : Loading β) (R : α → β → Prop) : Prop :=
  ∀ m a m', x.run.run m = (.ok a, m') → ∃ b, y.run.run m = (.ok b, m') ∧ R a b

namespace Pairs

variable {α β γ δ : Type} {x : Loading α} {y : Loading β} {R : α → β → Prop} {S : γ → δ → Prop}

protected theorem pure {a : α} {b : β} (h : R a b) : Pairs (pure a) (pure b) R := by
  rintro m _ _ ⟨⟩
  exact ⟨b, rfl, h⟩

protected theorem throw {e : Error} : Pairs (throw e) y R := by
  rintro m _ _ ⟨⟩

protected theorem refl (x : Loading α) : Pairs x x Eq := fun _ a _ ha => ⟨a, ha, rfl⟩

theorem of_ok {e : Except Error α} {e' : Except Error β}
    (h : ∀ a, e = .ok a → ∃ b, e' = .ok b ∧ R a b) : Pairs (liftM e) (liftM e') R := by
  intro m a m' ha
  cases e with
  | error => cases ha
  | ok a =>
    cases ha
    obtain ⟨b, rfl, related⟩ := h a rfl
    exact ⟨b, rfl, related⟩

theorem of_fails (h : Fails x) : Pairs x y R := fun m a m' ha => (h m a m' ha).elim

protected theorem bind {f : α → Loading γ} {g : β → Loading δ} (h : Pairs x y R)
    (next : ∀ a b, R a b → Pairs (f a) (g b) S) : Pairs (x >>= f) (y >>= g) S := by
  intro m c m'' hc
  simp only [ExceptT.run_bind, StateT.run_bind] at hc ⊢
  rcases hr : x.run.run m with ⟨e | a, m'⟩ <;> rw [hr] at hc
  · cases hc
  · obtain ⟨b, hb, related⟩ := h m a m' hr
    rw [hb]
    exact next a b related m' c m'' hc

/-- The same computation goes first. -/
theorem after {f : α → Loading γ} {g : α → Loading δ} (next : ∀ a, Pairs (f a) (g a) S) :
    Pairs (x >>= f) (x >>= g) S := (Pairs.refl x).bind fun a _ same => same ▸ next a

end Pairs

variable {c : Context}

/-- Nothing is included where no include statement is answered. -/
theorem fails_readInclude (refused : ∀ r, Fails (c.answer r)) (fields : Entries Value) (t : Item)
    (s : List Item) : Fails (readInclude c fields t s) := by
  unfold readInclude
  refine .bind fun ⟨n, r, _⟩ => .bind fun ⟨required, isFileName, depth⟩ => .bind fun ⟨q, _⟩ => ?_
  refine (refused _).attempt fun e => ?_
  simp only []
  split <;> exact .throw

theorem includeFields_append (fs gs hs : Entries Value) :
    includeFields fs (gs ++ hs) = includeFields (includeFields fs gs) hs :=
  List.foldl_append

/-- Putting a value at a key is putting the field over the others. -/
theorem putField_eq (conf : c.syn = .conf) (fs : Entries Value) (t : Item) (key : Path) (v : Value) :
    putField c fs t key v = .ok (includeFields fs [(key.first, nest v key.rest)]) := by
  unfold putField includeFields
  simp only [List.foldl_cons, List.foldl_nil, conf, reduceCtorEq, false_and, if_false]
  cases Entries.get? fs key.first <;> rfl

/-- The last step of reading a field puts its value over the fields so far. -/
theorem pairs_putField (conf : c.syn = .conf) (f : Fields) (t : Item) (key : Path) (v : Value)
    (afterEquals : Bool) :
    Pairs
      (liftM (do
        let entries ← putField c f.entries t key v
        return { f with entries, lastKey := some key, lastAfterEquals := afterEquals } :
          Except Error Fields))
      (liftM (do
        let entries ← putField c [] t key v
        return { entries, lastKey := some key, lastAfterEquals := afterEquals } :
          Except Error Fields))
      fun a b => a.entries = includeFields f.entries b.entries := by
  refine .of_ok fun a ha => ?_
  rw [putField_eq conf] at ha ⊢
  cases ha
  exact ⟨_, rfl, rfl⟩

/-- A field puts over the others what it is on its own. -/
theorem pairs_readField (conf : c.syn = .conf) (f : Fields) (t : Item) (s : List Item) :
    Pairs (readField c f t s) (readField c {} t s)
      fun a b => a.1.entries = includeFields f.entries b.1.entries ∧ a.2 = b.2 := by
  rw [readField, readField]
  refine .after ?_
  rintro ⟨key, r, hr⟩
  refine .after ?_
  rintro ⟨q, hq⟩
  cases q with
  | nil => exact .throw
  | cons u rest =>
    simp only []
    split
    · refine .after ?_
      rintro ⟨v, p, hp⟩
      refine (pairs_putField conf f t key v _).bind fun a b same => ?_
      exact .pure ⟨same, rfl⟩
    · split
      · refine .after ?_
        rintro ⟨v, p, hp⟩
        simp only []
        split <;> refine .after fun v => (pairs_putField conf f t key v _).bind fun a b same => ?_
        all_goals exact .pure ⟨same, rfl⟩
      · exact .throw

/-- The fields of an object are put over each other. -/
theorem pairs_readFields (conf : c.syn = .conf) (refused : ∀ r, Fails (c.answer r)) (braced : Bool)
    (f : Fields) (s : List Item) :
    Pairs (readFields c braced f s) (readListing c s)
      fun a b => a.1 = includeFields f.entries b := by
  obtain ⟨n, hn⟩ : ∃ n, s.length = n := ⟨_, rfl⟩
  induction n using Nat.strongRecOn generalizing f s with
  | ind n ih =>
    rw [readFields, readListing]
    refine .after ?_
    rintro ⟨r, hr⟩
    cases r with
    | nil =>
      simp only []
      split
      · exact .throw
      · exact .pure rfl
    | cons t rest =>
      have lt : rest.length < s.length := hr
      by_cases closing : t.kind = .closeBrace
      · simp only [closing]
        split
        · exact .throw
        · split
          · exact .throw
          · exact .pure rfl
      · have syn : (c.syn != .json) = true := by rw [conf]; rfl
        simp only [syn, Bool.and_true]
        split
        · exact .of_fails ((fails_readInclude refused _ t rest).bind_left _)
        · refine (pairs_readField conf f t rest).bind ?_
          rintro ⟨g, q, hq⟩ ⟨own, q', hq'⟩ ⟨same, left⟩
          cases left
          simp only [pure_bind]
          refine .after fun separation => ?_
          cases separation with
          | found p =>
            obtain ⟨p, hp⟩ := p
            have shorter : p.length < n := hn ▸ Nat.lt_trans (Nat.lt_of_lt_of_le hp hq) lt
            refine (ih p.length shorter _ p rfl).bind fun a b fields => .pure ?_
            rw [includeFields_append, ← same]
            exact fields
          | missing p =>
            obtain ⟨p, hp⟩ := p
            cases p with
            | nil =>
              simp only []
              split
              · exact .throw
              · exact .pure same
            | cons u rest' =>
              simp only []
              split
              · split
                · exact .pure same
                · exact .throw
              · exact .throw

/-- Looking at what follows changes nothing. -/
theorem Pairs.skipNewlines {α β : Type} {s : List Item} {f : Left s → Loading α} {y : Loading β}
    {R : α → β → Prop} (next : ∀ r, Pairs (f r) y R) :
    Pairs (Document.skipNewlines c s >>= f) y R := by
  unfold Document.skipNewlines checkFront
  simp only []
  cases c.refusal? (c.front (s.dropWhile Item.isNewline)) with
  | some e => exact .of_fails (.bind_left (.bind_left .throw _) _)
  | none => exact next _

/-- The tree is an object of the fields put over each other, if it is an object. -/
def IsRootOf (v : Value) (fields : Entries Value) : Prop :=
  v.fields?.isSome = true → ∃ o, v = .ofFields o (includeFields [] fields)

/-- What stands behind the root is nothing to the fields. -/
theorem pairs_end {x : Loading (Value × List Item)} {y : Loading (Entries Value)}
    (h : Pairs x y fun r fields => IsRootOf r.1 fields) :
    Pairs
      (do
        let r ← x
        let p ← skipNewlines c r.2
        match p.val with
        | [] => return r.1
        | t :: _ => throw (c.fail t (.trailing t.describe)))
      y IsRootOf := by
  rw [← bind_pure y]
  refine h.bind fun r fields root => .skipNewlines fun ⟨p, _⟩ => ?_
  cases p with
  | nil => exact .pure root
  | cons => exact .throw

/-- The root of a document is its fields put over each other. -/
theorem pairs_readRoot (conf : c.syn = .conf) (refused : ∀ r, Fails (c.answer r)) (s : List Item) :
    Pairs (readRoot c s) (readRootListing c s) IsRootOf := by
  have json : ¬ c.syn = .json := by rw [conf]; exact nofun
  have braceless (o : Origin) (s : List Item) : Pairs
      (do
        let r ← readFields c false {} s
        return (Value.ofFields o r.1, r.2.val))
      (readListing c s) fun r fields => IsRootOf r.1 fields := by
    rw [← bind_pure (readListing c s)]
    exact (pairs_readFields conf refused false {} s).bind fun a fields same =>
      .pure fun _ => ⟨o, congrArg (Value.ofFields o) same⟩
  unfold readRoot readRootListing
  refine .after fun ⟨r, _⟩ => ?_
  simp only [if_neg json]
  cases r with
  | nil => exact pairs_end (braceless _ _)
  | cons t rest =>
    simp only []
    split
    · next container =>
      have kind : t.kind = .openBrace ∨ t.kind = .openBracket := by
        revert container
        cases t.kind <;> simp [TokenKind.opensContainer]
      rw [← bind_assoc]
      refine pairs_end ?_
      rcases kind with kind | kind <;> rw [readValue] <;> simp only [kind, bind_assoc, pure_bind]
      · rw [← bind_pure (readListing c rest)]
        refine (pairs_readFields conf refused true {} rest).bind fun a fields same => .pure fun _ => ?_
        rw [← show a.1 = includeFields [] fields from same, withComments]
        split <;> exact ⟨_, rfl⟩
      · refine .after fun r => .pure fun object => ?_
        rw [withComments] at object
        split at object <;> cases object
    · next notContainer =>
      have kind : t.kind ≠ .openBrace ∧ t.kind ≠ .openBracket := by
        revert notContainer
        cases t.kind <;> simp [TokenKind.opensContainer]
      split
      · next brace => exact absurd brace kind.1
      · next bracket => exact absurd bracket kind.2
      · exact pairs_end (braceless _ _)

/-- **The tree of a text is its fields put over each other**, if the text includes nothing. -/
theorem exists_fieldsOf {text : String} {v : Value} (read : readAlone text = .ok v)
    (object : v.fields?.isSome = true) :
    ∃ o fields, fieldsOf text = .ok fields ∧ v = .ofFields o (includeFields [] fields) := by
  unfold readAlone Document.read at read
  unfold fieldsOf
  simp only [] at read ⊢
  generalize hx : ExceptT.run (readRoot _ _) = x at read
  rcases hr : x.run [] with ⟨out, m⟩
  rw [hr] at read
  cases read
  rw [← hx] at hr
  obtain ⟨fields, hf, root⟩ := pairs_readRoot rfl (fun _ => .throw) _ _ _ _ hr
  obtain ⟨o, eq⟩ := root object
  exact ⟨o, fields, by rw [hf], eq⟩

end Document

/-! ### Definitions that look back, in a document -/

/-- What `k += x` stands for, which is `${?k} [x]`. -/
def Document.Context.appending (c : Context) (key : Path) (x : Value) : List Value :=
  [.ofReference x.origin { path := (c.place?.map key.prepend).getD key, optional := true },
    .ofItems x.origin [x]]

theorem Document.appended_eq (c : Context) (key : Path) (x : Value) :
    ∃ o, appended c key x = .ok (.concat { origin := o } (c.appending key x)) := by
  unfold appended Context.appending
  cases c.place? <;> exact ⟨_, rfl⟩

namespace Value

variable {k : Path}

/-- The definitions at some keys of a tree, if it holds some. -/
def definitions? : List String → Value → Option (List Value)
  | [], merge _ kind ls => if kind = .value ∧ 2 ≤ ls.length then some ls else none
  | [], v => some [v]
  | key :: keys, object _ false fs =>
    if (Entries.keys fs).Nodup ∧ ∀ f ∈ fs, f.1 ≠ key → f.2.isResolved = true then
      match Entries.get? fs key with
      | none => some []
      | some w => definitions? keys w
    else none
  | _, _ => none

theorem holds_of_definitions? {keys : List String} {v : Value} {ls : List Value}
    (h : definitions? keys v = some ls) : Holds keys ls v := by
  induction keys generalizing v with
  | nil =>
    cases v with
    | merge p kind layers =>
      rw [definitions?] at h
      split at h
      · next pile =>
        obtain ⟨rfl, two⟩ := pile
        cases h
        exact .here (.many two)
      · cases h
    | _ =>
      cases h
      exact .here (.one rfl)
  | cons key keys ih =>
    match v, h with
    | object p false fs, h =>
      rw [definitions?] at h
      split at h
      · next fits =>
        obtain ⟨nodup, others⟩ := fits
        split at h
        · next absent =>
          cases h
          refine .missing nodup absent fun f hf => others f hf fun same => ?_
          have here := Entries.get?_of_mem nodup (show (f.1, f.2) ∈ fs from hf)
          cases (same ▸ here).symm.trans absent
        · next w here => exact .inside nodup here others (ih h)
      · cases h

instance decidableIsPiece : ∀ x : Value, Decidable (IsPiece k x)
  | reference _ r => inferInstanceAs (Decidable (r.target.path = k))
  | null .. | bool .. | number .. | string .. | object .. | list .. | concat .. | merge .. =>
    inferInstanceAs (Decidable (_ ∧ _))

instance (d : Value) : Decidable (LooksBack k d) :=
  decidable_of_iff ((∀ x ∈ d.pieces, IsPiece k x) ∧ ∃ x ∈ d.pieces, x.isPending = true)
    ⟨fun h => ⟨h.1, h.2⟩, fun h => ⟨h.pieces, h.looks⟩⟩

theorem history_cons_iff {d : Value} {older : List Value} :
    History k (d :: older) ↔
      older = [] ∧ d.isResolved = true ∧ d.fields? = none ∨ LooksBack k d ∧ History k older := by
  constructor
  · intro h
    cases h with
    | base resolved notObject => exact .inl ⟨rfl, resolved, notObject⟩
    | cons looks history => exact .inr ⟨looks, history⟩
  · rintro (⟨rfl, resolved, notObject⟩ | ⟨looks, history⟩)
    · exact .base resolved notObject
    · exact .cons looks history

instance decidableHistory : ∀ ls : List Value, Decidable (History k ls)
  | [] => .isTrue .nil
  | _ :: older =>
    have := decidableHistory older
    decidable_of_iff _ history_cons_iff.symm

/-- Fields put over each other hold the definitions of all, the newest first. -/
theorem holds_includeFields {fields : Entries Value} {parts : List (List Value)} {o : Origin}
    (defined : List.Forall₂ (fun ls f => Holds k.keys ls (Document.nest f.2 [f.1])) parts
      fields.reverse) (history : History k parts.flatten) :
    Holds k.keys parts.flatten (.ofFields o (Document.includeFields [] fields)) := by
  rw [← fields.reverse_reverse]
  generalize fields.reverse = rs at defined
  induction defined with
  | nil => exact .missing List.nodup_nil rfl nofun
  | @cons ls f parts rs holds _ ih =>
    rw [List.reverse_cons, Document.includeFields_append]
    exact Holds.includeField holds (ih (history.of_suffix (List.suffix_append _ _))) history.looks

/-- **Self-references look back exactly one definition.**  The fields of a document may define a
key again and again, after a value that needs nothing by definitions that refer to the key itself,
while nothing else waits.  Resolving fails if one of these cannot be joined or lacks what it refers
to, and else it gives what each makes in turn of what the ones before it come to.  A definition by
`+=` is one by an optional reference and a list. -/
theorem resolve_lookback {files : FileTree} {text : String} {v : Value} {fields : Entries Value}
    {parts : List (List Value)} (parsed : ((parseText files {} text).run.run []).1 = .ok v)
    (alone : Document.IncludesNothing text) (read : Document.fieldsOf text = .ok fields)
    (defined : List.Forall₂ (fun ls f => Holds k.keys ls (Document.nest f.2 [f.1])) parts
      fields.reverse) (history : History k parts.flatten) (next : Nat) :
    (∀ (c : Document.Context) (key : Path) (x : Value),
      ∃ o, Document.appended c key x = .ok (concat { origin := o } (c.appending key x)))
    ∧ match comesTo parts.flatten with
      | none => ∃ e, v.resolve {} next = .error e
      | some none => ∃ r, v.resolve {} next = .ok r ∧ r.peek? k.keys = none
      | some (some u) =>
        ∃ r w, v.resolve {} next = .ok r ∧ r.peek? k.keys = some w ∧ w.equals u = true := by
  refine ⟨Document.appended_eq, ?_⟩
  obtain ⟨readable, sound, object⟩ := Document.parseText_spec parsed alone
  obtain ⟨o, fields', read', rfl⟩ := Document.exists_fieldsOf readable object
  cases read.symm.trans read'
  have gives := Resolution.gives_resolve sound (holds_includeFields defined history) history next
  unfold Resolution.Gives at gives
  split
  · next comes => rwa [comes] at gives
  · next comes =>
    rw [comes] at gives
    obtain ⟨r, hr, held⟩ := gives
    generalize hw : r.peek? k.keys = w at held
    cases held
    exact ⟨r, hr, hw⟩
  · next u comes =>
    rw [comes] at gives
    obtain ⟨r, hr, held⟩ := gives
    generalize hw : r.peek? k.keys = w at held
    cases held with
    | some same =>
      have content := (same.content fun _ => .absent).symm
      exact ⟨r, _, hr, hw, equals_of_content_eq same.right.wellFormed same.right.resolved
        same.left.wellFormed same.left.resolved content⟩

/-- The definitions at some keys that each field gives, the newest field first. -/
def layersOf (keys : List String) (fields : Entries Value) : List (List Value) :=
  fields.reverse.map fun f => (definitions? keys (Document.nest f.2 [f.1])).getD []

theorem forall₂_layersOf {keys : List String} {fields : Entries Value}
    (h : ∀ f ∈ fields, (definitions? keys (Document.nest f.2 [f.1])).isSome = true) :
    List.Forall₂ (fun ls f => Holds keys ls (Document.nest f.2 [f.1])) (layersOf keys fields)
      fields.reverse := by
  refine List.forall₂_map_left_iff.2 (List.forall₂_same.2 fun f hf => holds_of_definitions? ?_)
  obtain ⟨ls, hls⟩ := Option.isSome_iff_exists.1 (h f (List.mem_reverse.1 hf))
  rw [hls]
  rfl

/-- A key that is a value at first, then what refers to itself twice within a block, and then gets
an item. -/
theorem resolve_lookback_example :
    let text := "a.p = [1], a \x7b q = x, p = $\x7ba.p\x7d [2] $\x7b?a.p\x7d \x7d, a.p += 3"
    let keys := ["a", "p"]
    ∃ v fields parts, ((parseText {} {} text).run.run []).1 = .ok v
      ∧ Document.IncludesNothing text ∧ Document.fieldsOf text = .ok fields
      ∧ List.Forall₂ (fun ls f => Holds keys ls (Document.nest f.2 [f.1])) parts fields.reverse
      ∧ History ⟨"a", ["p"]⟩ parts.flatten
      ∧ match comesTo parts.flatten with
        | none => ∃ e, v.resolve {} = .error e
        | some none => ∃ r, v.resolve {} = .ok r ∧ r.peek? keys = none
        | some (some u) => ∃ r w, v.resolve {} = .ok r ∧ r.peek? keys = some w ∧ w.equals u = true := by
  intro text keys
  obtain ⟨v, parsed, alone⟩ := Document.exists_parsed {} (by decide +kernel :
    (Document.readAlone text).toOption.any (·.fields?.isSome) = true)
  have check : (Document.fieldsOf text).toOption.any (fun fields =>
      fields.all (fun f => (definitions? keys (Document.nest f.2 [f.1])).isSome)
        && decide (History ⟨"a", ["p"]⟩ (layersOf keys fields).flatten)) = true := by
    decide +kernel
  rcases hf : Document.fieldsOf text with e | fields <;> rw [hf] at check
  · cases check
  · obtain ⟨defined, history⟩ := Bool.and_eq_true_iff.1 check
    have defined := forall₂_layersOf (List.all_eq_true.1 defined)
    have history := of_decide_eq_true history
    exact ⟨v, fields, layersOf keys fields, parsed, alone, rfl, defined, history,
      (resolve_lookback (k := ⟨"a", ["p"]⟩) parsed alone hf defined history 0).2⟩

end Value

end Hocon
