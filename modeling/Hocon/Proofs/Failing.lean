import Hocon.Proofs.Naming

/-!
# How documents fail to load

A document that is loaded fails in one of three ways: its file cannot be read, or it is malformed
whatever its include statements find, or one of these is refused (`load_failure`).  The second is
the failure of `loadAlone`, which answers every statement with an empty object.  That a file cannot
be read is told of the document itself only, never of one that it includes
(`not_isUnreadable_load`).
-/

namespace Hocon

open Value

/-- Properties that cannot be put into one tree are a broken promise. -/
theorem Properties.exists_broken_of_read {o : Origin} {text : String} {e : Error}
    (h : Properties.read o text = .error e) : ∃ breach, e = .broken breach := by
  have built (all rest : List (Path × Value)) (ts : Entries PathTree)
      (hb : PathMap.build all true rest ts = .error e) : ∃ breach, e = .broken breach := by
    induction rest generalizing ts with
    | nil => cases hb
    | cons entry rest ih =>
      rw [PathMap.build] at hb
      split at hb
      · exact ih ts hb
      · split at hb
        · exact ih _ hb
        · cases hb
          exact ⟨_, rfl⟩
  unfold Properties.read PathMap.toValue? at h
  simp only [] at h
  cases hb : PathMap.build _ true _ [] with
  | ok ts =>
    rw [hb] at h
    cases h
  | error e' =>
    rw [hb] at h
    cases h
    exact built _ _ _ hb

namespace Document

/-! ### Statements -/

/-- What is made of the answer to a statement, and how the statement fails. -/
theorem outcome_ask_bind {α : Type} (q : Inquiry) (A : Answers) (g : Value → α)
    (m : List IncludeRecord) :
    ((q.ask A >>= fun v => pure (g v) : Loading α).run.run m).1 =
      match ((A q.request).run.run m).1 with
      | .error e => .error (q.refusal e)
      | .ok v =>
        if v.fields?.isSome then .ok (g v)
        else .error (.notIncluded q.origin (.notAnObject q.request.name)) := by
  rw [Inquiry.ask, bind_assoc, run_attempt]
  cases ((A q.request).run.run m).1 with
  | error e => rfl
  | ok v =>
    simp only []
    split <;> rfl

/-- How a statement fails: its document is refused, or it is no object. -/
theorem ask_failure {q : Inquiry} {A : Answers} {m m' : List IncludeRecord} {e : Error}
    (h : (q.ask A).run.run m = (.error e, m')) :
    (∃ e', ((A q.request).run.run m).1 = .error e' ∧ e = q.refusal e')
      ∨ (∃ v, ((A q.request).run.run m).1 = .ok v ∧ v.fields?.isSome = false)
        ∧ e = .notIncluded q.origin (.notAnObject q.request.name) := by
  have outcome := outcome_ask_bind q A id m
  rw [show (q.ask A >>= fun v => pure (id v)) = q.ask A from bind_pure _, h] at outcome
  split at outcome
  · next e' refused =>
    cases outcome
    exact .inl ⟨e', refused, rfl⟩
  · next v answered =>
    split at outcome
    · cases outcome
    · next other =>
      cases outcome
      exact .inr ⟨⟨v, answered, Bool.eq_false_iff.2 other⟩, rfl⟩

theorem not_isUnreadable_own {o : Origin} {D : TokenKind → Span → Nat → Prop} {e : Error}
    (h : Own o D e) : ¬ IsUnreadable e := by
  rintro ⟨_, _, rfl⟩
  cases h

theorem not_isTooDeep_own {o : Origin} {D : TokenKind → Span → Nat → Prop} {e : Error}
    (h : Own o D e) : ¬ IsTooDeep e := by
  rintro ⟨_, limit, chain, _, _, rfl⟩
  cases h with
  | item _ _ shallow => exact shallow limit chain rfl

/-- A statement never fails by a file that cannot be read, if those that are not required are found
or left out. -/
theorem not_isUnreadable_ask {q : Inquiry} {A : Answers} {m m' : List IncludeRecord} {e : Error}
    (h : (q.ask A).run.run m = (.error e, m'))
    (plain : q.request.required = false → ∀ e', ((A q.request).run.run m).1 = .error e' →
      ¬ IsUnreadable e') : ¬ IsUnreadable e := by
  rcases ask_failure h with ⟨e', refused, rfl⟩ | ⟨-, rfl⟩
  · cases required : q.request.required with
    | false =>
      have same : q.refusal e' = e' := by
        unfold Inquiry.refusal
        rw [required]
        cases e' <;> rfl
      rw [same]
      exact plain required e' refused
    | true =>
      rintro ⟨o, fault, eq⟩
      unfold Inquiry.refusal at eq
      rw [required] at eq
      cases e' <;> cases eq
  · rintro ⟨_, _, ⟨⟩⟩

/-! ### Documents -/

/-- The file's name that a statement of a document gives. -/
def located (d : Document) (r : IncludeRequest) (name : String) : String :=
  if r.isFileName then name else d.neighbour name

/-- Loads a document as if all that it includes were empty. -/
def loadAlone (files : FileTree) (d : Document) (o : ParseOptions) : Loading Value :=
  match d.content files with
  | .error fault =>
    if o.allowMissing then pure (.emptyObject (d.originFor o))
    else throw (.unreadable (d.originFor o) (.file fault))
  | .ok text => do
    let v ← match d.syntaxFor o with
      | .properties => Properties.read (d.originFor o) text
      | syn => Document.read syn (d.originFor o) noting text
    checkRoot (d.originFor o) v

section

variable {files : FileTree} {shelves : Nat} {d : Document} {o : ParseOptions}

/-- How a document that is not too deep fails to load. -/
inductive LoadFailure (files : FileTree) (shelves : Nat) (d : Document)
    (depth : d.chain.length < maxIncludeDepth) (o : ParseOptions) : Error → Prop
  | missing {fault : ReadFault} (content : d.content files = .error fault)
      (required : o.allowMissing = false) :
      LoadFailure files shelves d depth o (.unreadable (d.originFor o) (.file fault))
  | own {e : Error} (readable : ¬ IsUnreadable e) (shallow : ¬ IsTooDeep e)
      (alone : ∃ e', outcome (loadAlone files d o) = .error e') : LoadFailure files shelves d depth o e
  | refused {q : Inquiry} (mem : q.request ∈ d.requests files o) {m m' : List IncludeRecord}
      {e : Error} (h : (q.ask (d.answers files shelves depth o)).run.run m = (.error e, m')) :
      LoadFailure files shelves d depth o e

theorem loadAlone_eq_read {text : String} (content : d.content files = .ok text)
    (syn : d.syntaxFor o ≠ .properties) :
    loadAlone files d o = (do
      let v ← Document.read (d.syntaxFor o) (d.originFor o) noting text
      checkRoot (d.originFor o) v) := by
  rw [loadAlone, content]
  generalize d.syntaxFor o = s at syn ⊢
  cases s with
  | properties => exact absurd rfl syn
  | json => rfl
  | conf => rfl

/-- Nothing is included by a list of properties. -/
theorem loadAlone_eq_load {text : String} (depth : d.chain.length < maxIncludeDepth)
    (content : d.content files = .ok text) (syn : d.syntaxFor o = .properties) :
    loadAlone files d o = d.load files shelves o := by
  rw [loadAlone, content, load_eq_properties shelves depth content syn, syn]

theorem checkRoot_failure {origin : Origin} {v : Value} {e : Error}
    (h : checkRoot origin v = .error e) :
    v.fields?.isSome = false ∧ ¬ IsUnreadable e ∧ ¬ IsTooDeep e := by
  unfold checkRoot at h
  split at h <;> cases h
  next other => exact ⟨Bool.eq_false_iff.2 other, nofun, nofun⟩

/-- **How a document fails to load.** -/
theorem load_failure (depth : d.chain.length < maxIncludeDepth) {e : Error}
    (h : outcome (d.load files shelves o) = .error e) : LoadFailure files shelves d depth o e := by
  cases content : d.content files with
  | error fault =>
    rw [load_eq_missing shelves depth content] at h
    split at h
    · cases h
    · next required =>
      cases h
      exact .missing content (Bool.eq_false_iff.2 required)
  | ok text =>
    by_cases syn : d.syntaxFor o = .properties
    · have alone : ∃ e', outcome (loadAlone files d o) = .error e' :=
        ⟨e, by rw [loadAlone_eq_load depth content syn]; exact h⟩
      rw [load_eq_properties shelves depth content syn] at h
      cases read : Properties.read (d.originFor o) text with
      | error e' =>
        obtain ⟨breach, rfl⟩ := Properties.exists_broken_of_read read
        rw [read] at h
        cases h
        exact .own nofun nofun alone
      | ok v =>
        rw [read] at h
        obtain ⟨-, readable, shallow⟩ := checkRoot_failure (v := v) h
        exact .own readable shallow alone
    · rw [load_eq_read shelves depth content syn] at h
      have inquires := inquires_read (d.syntaxFor o) (d.originFor o)
        (d.answers files shelves depth o) text
      rcases run : (Document.read (d.syntaxFor o) (d.originFor o)
        (d.answers files shelves depth o) text).run.run [] with ⟨e' | v, m'⟩
      · rw [outcome, run_bind_of_error run] at h
        cases h
        rcases inquires.failure run [] with ⟨own, e', alone⟩ | ⟨q, m₁, refused, noted⟩
        · refine .own (not_isUnreadable_own own) (not_isTooDeep_own own) ⟨e', ?_⟩
          rw [loadAlone_eq_read content syn, outcome, run_bind_of_error (Prod.ext alone rfl)]
        · refine .refused ?_ refused
          rw [requests_eq content syn]
          exact List.mem_map.2 ⟨_, noted, IncludeRequest.request_note _⟩
      · rw [outcome, run_bind_of_ok run] at h
        obtain ⟨other, readable, shallow⟩ := checkRoot_failure (v := v) h
        obtain ⟨w, alone, same⟩ := inquires.result run []
        refine .own readable shallow ⟨.wrongType (d.originFor o) (.documentRoot w.type?), ?_⟩
        rw [loadAlone_eq_read content syn, outcome, run_bind_of_ok (Prod.ext alone rfl)]
        have none : w.fields?.isSome = false := same.traits.2.2.2.2.2 ▸ other
        unfold checkRoot
        rw [none]
        rfl

/-- Nothing is loaded where a statement is always refused. -/
theorem load_ne_of_request (depth : d.chain.length < maxIncludeDepth) {r : IncludeRequest}
    (mem : r ∈ d.requests files o) (refused : Fails (d.answers files shelves depth o r)) (v : Value) :
    outcome (d.load files shelves o) ≠ .ok v := by
  intro loads
  cases content : d.content files with
  | error fault =>
    unfold requests at mem
    rw [content] at mem
    cases mem
  | ok text =>
    by_cases syn : d.syntaxFor o = .properties
    · unfold requests at mem
      rw [content, syn] at mem
      cases mem
    · rw [requests_eq content syn] at mem
      obtain ⟨n, noted, rfl⟩ := List.mem_map.1 mem
      have fails := (inquires_read (d.syntaxFor o) (d.originFor o)
        (d.answers files shelves depth o) text).fails_of_note noted List.not_mem_nil refused
      rw [load_eq_read shelves depth content syn] at loads
      obtain ⟨w, m', reads, -⟩ := exists_run_of_bind (Prod.ext loads rfl)
      exact fails _ _ _ reads

/-- What an includer writes down comes first, and leaves the result alone. -/
theorem result_modify_bind (f : PUnit → Loading Value)
    (g : List IncludeRecord → List IncludeRecord) (m : List IncludeRecord) :
    ((modify g >>= f : Loading Value).run.run m).1 = ((f ⟨⟩).run.run (g m)).1 := rfl

/-- Whoever is asked for a document that may be missing never answers that it cannot be read. -/
theorem not_isUnreadable_find (depth : d.chain.length < maxIncludeDepth) (r : IncludeRequest)
    (allowed : o.allowMissing = true)
    (child : ∀ name o', o'.allowMissing = true → ∀ e,
      outcome ((d.child name).load files shelves o') = .error e → ¬ IsUnreadable e)
    (shelved : ∀ fewer text, fewer < shelves → ∀ e,
      outcome ((Document.ofText text).load files fewer o) = .error e → ¬ IsUnreadable e)
    (i : Includer) (m : List IncludeRecord) (e : Error)
    (h : ((d.find files shelves depth o r i).run.run m).1 = .error e) : ¬ IsUnreadable e := by
  induction i generalizing m e with
  | files =>
    rw [Document.find] at h
    have named := @named_loadName o r.name
      (fun name o => (d.child (d.located r name)).load files shelves o)
      (fun f _ => blind_load files shelves _ f.2) (fun allowed e he => child _ o allowed e he) m
    generalize hr : ((loadName o r.name _).run.run m).1 = result at named
    cases (hr.symm.trans h : result = .error e)
    cases named with
    | refused _ _ readable => exact readable
    | missing _ left _ =>
      obtain ⟨v, ⟨⟩⟩ := left allowed
  | shelf s =>
    rw [Document.find] at h
    rw [result_modify_bind] at h
    split at h
    · cases h
    · cases shelves with
      | zero =>
        cases h
        rintro ⟨_, _, ⟨⟩⟩
      | succ fewer =>
        rw [(blind_load files fewer _ _).outcome_eq] at h
        exact shelved fewer _ (Nat.lt_succ_self _) e h
    · cases h
  | both first second ihFirst ihSecond =>
    rw [Document.find] at h
    rcases run : (d.find files shelves depth o r first).run.run m with ⟨e' | v, m'⟩
    · rw [run_bind_of_error run] at h
      cases h
      exact ihFirst m e (by rw [run])
    · rw [run_bind_of_ok run] at h
      rcases run' : (d.find files shelves depth o r second).run.run m' with ⟨e' | w, m''⟩
      · rw [run_bind_of_error run'] at h
        cases h
        exact ihSecond m' e (by rw [run'])
      · rw [run_bind_of_ok run'] at h
        cases h

/-- A document that is there, or that may be missing, is never refused as one that cannot be
read. -/
theorem not_isUnreadable_load (files : FileTree) (shelves : Nat) (d : Document) (o : ParseOptions)
    (there : o.allowMissing = true ∨ ∃ text, d.content files = .ok text) (e : Error)
    (h : outcome (d.load files shelves o) = .error e) : ¬ IsUnreadable e := by
  induction shelves using Nat.strongRecOn generalizing d o e with
  | ind shelves ihShelves =>
    obtain ⟨n, hn⟩ : ∃ n, maxIncludeDepth - d.chain.length = n := ⟨_, rfl⟩
    induction n using Nat.strongRecOn generalizing d o e with
    | ind n ih =>
      by_cases depth : d.chain.length < maxIncludeDepth
      · cases load_failure depth h with
        | missing content required =>
          rcases there with allowed | ⟨text, there⟩
          · rw [required] at allowed
            cases allowed
          · rw [content] at there
            cases there
        | own readable => exact readable
        | @refused q _ m _ _ refused =>
          refine not_isUnreadable_ask refused fun plain e' he' => ?_
          refine not_isUnreadable_find depth q.request ?_ (fun name o' allowed e he => ?_)
            (fun fewer text lt e he => ?_) _ m e' he'
          · unfold asking
            rw [plain]
            rfl
          · refine ih _ ?_ _ _ (.inl allowed) e he rfl
            rw [chain_child, List.length_append, List.length_singleton]
            omega
          · exact ihShelves fewer lt _ _ (.inr ⟨text, rfl⟩) e he
      · rw [load_eq_tooDeep shelves depth] at h
        cases h
        nofun

end

end Document

end Hocon
