import Hocon.Proofs.Inquiring

/-!
# The files that a name stands for

A name with a known ending is the name of one file; any other stands for the files with each of the
endings, and what is there of those is merged.  What becomes of a name is told by what becomes of
these files (`Named`, `named_loadName`): a failure of one is the failure of the name, unless the
file cannot be read, and then it is passed over.
-/

namespace Hocon

open Value

/-- The failure where a file cannot be read. -/
def IsUnreadable (e : Error) : Prop := ∃ o fault, e = .unreadable o fault

/-- The files that a name may stand for, and how each is to be read. -/
def namedFiles (o : ParseOptions) (name : String) : List (String × ParseOptions) :=
  if (DocumentSyntax.ofFileName? name).isSome then [(name, o)]
  else (candidateSyntaxes o).map fun s =>
    (name ++ s.suffix, { o with allowMissing := false, syn := some s })

namespace Document

/-- What comes of a computation before which nothing was recorded. -/
abbrev outcome {α : Type} (x : Loading α) : Except Error α := (x.run.run []).1

theorem Blind.outcome_eq {α : Type} {x : Loading α} (h : Blind x) (m : List IncludeRecord) :
    (x.run.run m).1 = outcome x := h m []

/-! ### Trying candidates -/

/-- A candidate that cannot be read is passed over; any other failure ends the search. -/
theorem add_cases (c : Candidates) (r : Except Error Value) :
    (∃ v found, r = .ok v ∧ c.add r = .ok { c with found := some found })
      ∨ (∃ e more, r = .error e ∧ IsUnreadable e
        ∧ c.add r = .ok { c with failures := c.failures ++ more }
        ∧ ((∃ o fault, e = .unreadable o (.file fault)) → more ≠ []))
      ∨ ∃ e, r = .error e ∧ ¬ IsUnreadable e ∧ c.add r = .error e := by
  unfold Candidates.add
  split
  · exact .inl ⟨_, _, rfl, rfl⟩
  · exact .inr (.inl ⟨_, _, rfl, ⟨_, _, rfl⟩, rfl, fun _ => List.cons_ne_nil _ _⟩)
  · refine .inr (.inl ⟨_, _, rfl, ⟨_, _, rfl⟩, rfl, ?_⟩)
    rintro ⟨_, _, ⟨⟩⟩
  · next e file candidates =>
    refine .inr (.inr ⟨e, rfl, ?_, rfl⟩)
    rintro ⟨o, fault, rfl⟩
    cases fault with
    | file fault => exact file _ _ rfl
    | candidates attempts => exact candidates _ _ rfl

section

variable {read : DocumentSyntax → Loading Value} {ss : List DocumentSyntax}

/-- What comes of trying candidates: one is refused, or those that can be read are found. -/
inductive Tried (read : DocumentSyntax → Loading Value) (ss : List DocumentSyntax)
    (c : Candidates) : Except Error Candidates → Prop
  | refused {s : DocumentSyntax} (mem : s ∈ ss) {e : Error} (he : outcome (read s) = .error e)
      (readable : ¬ IsUnreadable e) : Tried read ss c (.error e)
  | tried {c' : Candidates}
      (passed : ∀ s ∈ ss, ∀ e, outcome (read s) = .error e → IsUnreadable e)
      (found : c'.found.isSome = true ↔
        c.found.isSome = true ∨ ∃ s ∈ ss, ∃ v, outcome (read s) = .ok v)
      (failures : c'.failures = [] → c.failures = []
        ∧ ∀ s ∈ ss, ∀ o fault, outcome (read s) ≠ .error (.unreadable o (.file fault))) :
      Tried read ss c (.ok c')

theorem tried_loadCandidates (blind : ∀ s ∈ ss, Blind (read s)) (c : Candidates)
    (m : List IncludeRecord) : Tried read ss c ((loadCandidates read ss c).run.run m).1 := by
  induction ss generalizing c m with
  | nil => exact .tried nofun (by simp) fun h => ⟨h, nofun⟩
  | cons s ss ih =>
    obtain ⟨hs, hss⟩ := List.forall_mem_cons.1 blind
    have step : (loadCandidates read (s :: ss) c).run.run m =
        (liftM (c.add (outcome (read s))) >>= loadCandidates read ss : Loading Candidates).run.run
          ((read s).run.run m).2 := by
      rw [← hs.outcome_eq m]
      rfl
    rw [step]
    have further (c₁ : Candidates) : (liftM (.ok c₁ : Except Error Candidates)
        >>= loadCandidates read ss : Loading Candidates) = loadCandidates read ss c₁ :=
      pure_bind _ _
    rcases add_cases c (outcome (read s)) with ⟨v, found, hr, added⟩
      | ⟨e, more, hr, unreadable, added, some⟩ | ⟨e, hr, readable, added⟩
    · rw [added, further]
      have rest := ih hss { c with found := some found } ((read s).run.run m).2
      generalize ((loadCandidates read ss _).run.run _).1 = q at rest ⊢
      cases rest with
      | refused mem he readable => exact .refused (List.mem_cons_of_mem _ mem) he readable
      | tried passed found failures =>
        refine .tried (List.forall_mem_cons.2 ⟨fun e he => ?_, passed⟩) ?_ fun none => ?_
        · rw [hr] at he
          cases he
        · exact ⟨fun _ => .inr ⟨s, List.mem_cons_self, v, hr⟩, fun _ => found.2 (.inl rfl)⟩
        · refine ⟨(failures none).1, List.forall_mem_cons.2 ⟨fun o fault => ?_, (failures none).2⟩⟩
          rw [hr]
          nofun
    · rw [added, further]
      have rest := ih hss { c with failures := c.failures ++ more } ((read s).run.run m).2
      generalize ((loadCandidates read ss _).run.run _).1 = q at rest ⊢
      cases rest with
      | refused mem he readable => exact .refused (List.mem_cons_of_mem _ mem) he readable
      | tried passed found failures =>
        refine .tried (List.forall_mem_cons.2 ⟨fun e' he => ?_, passed⟩) ?_ fun none => ?_
        · rw [hr] at he
          cases he
          exact unreadable
        · refine found.trans (or_congr_right ?_)
          constructor
          · rintro ⟨s', mem, there⟩
            exact ⟨s', List.mem_cons_of_mem _ mem, there⟩
          · rintro ⟨s', mem, v, there⟩
            rcases List.mem_cons.1 mem with rfl | mem
            · rw [hr] at there
              cases there
            · exact ⟨s', mem, v, there⟩
        · obtain ⟨before, behind⟩ := List.append_eq_nil_iff.1 (failures none).1
          refine ⟨before, List.forall_mem_cons.2 ⟨fun o fault he => ?_, (failures none).2⟩⟩
          rw [hr] at he
          cases he
          exact some ⟨o, fault, rfl⟩ behind
    · rw [added]
      exact .refused List.mem_cons_self hr readable

end

/-! ### Names -/

variable {o : ParseOptions} {name : String} {read : String → ParseOptions → Loading Value}

/-- What comes of loading a name: a file is refused, or some can be read, or none. -/
inductive Named (read : String → ParseOptions → Loading Value) (o : ParseOptions) (name : String) :
    Except Error Value → Prop
  | refused {f : String × ParseOptions} (mem : f ∈ namedFiles o name) {e : Error}
      (he : outcome (read f.1 f.2) = .error e) (readable : ¬ IsUnreadable e) :
      Named read o name (.error e)
  | found (passed : ∀ f ∈ namedFiles o name, ∀ e, outcome (read f.1 f.2) = .error e → IsUnreadable e)
      {f : String × ParseOptions} (mem : f ∈ namedFiles o name) {w : Value}
      (there : outcome (read f.1 f.2) = .ok w) (v : Value) : Named read o name (.ok v)
  | missing (none : ∀ f ∈ namedFiles o name, ∃ e, outcome (read f.1 f.2) = .error e ∧ IsUnreadable e)
      {r : Except Error Value}
      (left : o.allowMissing = true → ∃ v, r = .ok v)
      (failed : o.allowMissing = false → ∃ e, r = .error e ∧ (IsUnreadable e
        ∨ (∃ breach, e = .broken breach) ∧ ∀ f ∈ namedFiles o name, ∀ o fault,
          outcome (read f.1 f.2) ≠ .error (.unreadable o (.file fault)))) :
      Named read o name r

theorem named_loadName (blind : ∀ f ∈ namedFiles o name, Blind (read f.1 f.2))
    (whole : o.allowMissing = true → ∀ e, outcome (read name o) = .error e → ¬ IsUnreadable e)
    (m : List IncludeRecord) : Named read o name ((loadName o name read).run.run m).1 := by
  by_cases ending : (DocumentSyntax.ofFileName? name).isSome = true
  · -- the name is that of one file
    have files : namedFiles o name = [(name, o)] := if_pos ending
    have one : (name, o) ∈ namedFiles o name := files ▸ List.mem_singleton_self _
    have load : loadName o name read = read name o := if_pos ending
    rw [load, (blind _ one).outcome_eq m]
    have alone {P : String × ParseOptions → Prop} (h : P (name, o)) :
        ∀ f ∈ namedFiles o name, P f := by
      rw [files]
      exact List.forall_mem_singleton.2 h
    cases there : outcome (read name o) with
    | ok v =>
      exact .found (alone fun e he => nomatch there.symm.trans he) one there v
    | error e =>
      by_cases unreadable : IsUnreadable e
      · refine .missing (alone ⟨e, there, unreadable⟩) (fun allowed => ?_) fun _ =>
          ⟨e, rfl, .inl unreadable⟩
        exact absurd unreadable (whole allowed e there)
      · exact .refused one there unreadable
  · -- each of the endings is tried
    have files : namedFiles o name = (candidateSyntaxes o).map fun s =>
        (name ++ s.suffix, { o with allowMissing := false, syn := some s }) := if_neg ending
    let forced (s : DocumentSyntax) : Loading Value :=
      read (name ++ s.suffix) { o with allowMissing := false, syn := some s }
    have each {P : String × ParseOptions → Prop} : (∀ f ∈ namedFiles o name, P f) ↔
        ∀ s ∈ candidateSyntaxes o,
          P (name ++ s.suffix, { o with allowMissing := false, syn := some s }) := by
      rw [files]
      exact List.forall_mem_map
    have member {s : DocumentSyntax} (h : s ∈ candidateSyntaxes o) :
        (name ++ s.suffix, { o with allowMissing := false, syn := some s }) ∈ namedFiles o name := by
      rw [files]
      exact List.mem_map_of_mem h
    have load : loadName o name read = (do
        let candidates ← loadCandidates forced (candidateSyntaxes o) {}
        candidates.result name o.allowMissing) := if_neg ending
    have tried : Tried forced (candidateSyntaxes o) {} _ := tried_loadCandidates (each.1 blind) {} m
    rcases run : (loadCandidates forced (candidateSyntaxes o) {}).run.run m with ⟨e | c, m'⟩ <;>
      rw [run] at tried
    · rw [load, run_bind_of_error run]
      cases tried with
      | refused mem he readable => exact .refused (member mem) he readable
    · rw [load, run_bind_of_ok run]
      cases tried with
      | tried passed found failures =>
        have passed : ∀ f ∈ namedFiles o name, ∀ e, outcome (read f.1 f.2) = .error e →
            IsUnreadable e := each.2 passed
        show Named read o name (c.result name o.allowMissing)
        cases there : c.found with
        | some v =>
          obtain ⟨s, mem, w, hw⟩ := (found.1 (by rw [there]; rfl)).resolve_left nofun
          rw [Candidates.result, there]
          exact .found passed (member mem) hw v
        | none =>
          have none (f : String × ParseOptions) (mem : f ∈ namedFiles o name) :
              ∃ e, outcome (read f.1 f.2) = .error e ∧ IsUnreadable e := by
            cases hf : outcome (read f.1 f.2) with
            | error e => exact ⟨e, rfl, passed f mem e hf⟩
            | ok v =>
              rw [files] at mem
              obtain ⟨s, tries, rfl⟩ := List.mem_map.1 mem
              have some := found.2 (.inr ⟨s, tries, v, hf⟩)
              rw [there] at some
              cases some
          refine .missing none (fun allowed => ?_) fun forbidden => ?_
          · rw [Candidates.result, there, allowed]
            exact ⟨_, rfl⟩
          · rw [Candidates.result, there, forbidden]
            simp only [Bool.false_eq_true, if_false]
            split
            · next empty =>
              have apart : ∀ f ∈ namedFiles o name, ∀ o fault,
                  outcome (read f.1 f.2) ≠ .error (.unreadable o (.file fault)) :=
                each.2 (failures empty).2
              exact ⟨_, rfl, .inr ⟨⟨_, rfl⟩, apart⟩⟩
            · exact ⟨_, rfl, .inl ⟨_, _, rfl⟩⟩
            · exact ⟨_, rfl, .inl ⟨_, _, rfl⟩⟩

/-! ### Records -/

theorem blind_liftM {α : Type} (e : Except Error α) : Blind (liftM e : Loading α) := by
  cases e <;> exact fun _ _ => rfl

theorem blind_loadCandidates {read : DocumentSyntax → Loading Value} {ss : List DocumentSyntax}
    (blind : ∀ s ∈ ss, Blind (read s)) (c : Candidates) : Blind (loadCandidates read ss c) := by
  induction ss generalizing c with
  | nil => exact fun _ _ => rfl
  | cons s ss ih =>
    obtain ⟨hs, hss⟩ := List.forall_mem_cons.1 blind
    rw [loadCandidates]
    exact hs.attempt fun r => (blind_liftM _).bind fun _ c _ _ => ih hss c

theorem blind_loadName (blind : ∀ f ∈ namedFiles o name, Blind (read f.1 f.2)) :
    Blind (loadName o name read) := by
  unfold namedFiles at blind
  unfold loadName
  split at blind
  · next ending =>
    rw [if_pos ending]
    exact blind _ (List.mem_singleton_self _)
  · next ending =>
    rw [if_neg ending]
    have tries (s : DocumentSyntax) (h : s ∈ candidateSyntaxes o) :
        Blind (read (name ++ s.suffix) { o with allowMissing := false, syn := some s }) :=
      blind _ (List.mem_map_of_mem h)
    exact (blind_loadCandidates tries _).bind fun _ c _ _ => blind_liftM _

/-- The files that a name stands for are read with the includer that the name is given. -/
theorem includer_of_mem_namedFiles {f : String × ParseOptions} (h : f ∈ namedFiles o name) :
    f.2.includer = o.includer := by
  unfold namedFiles at h
  split at h
  · rw [List.mem_singleton.1 h]
  · obtain ⟨s, -, rfl⟩ := List.mem_map.1 h
    rfl

theorem blind_find {files : FileTree} {shelves : Nat} {d : Document}
    {depth : d.chain.length < maxIncludeDepth} (o : ParseOptions) (r : IncludeRequest)
    (child : ∀ name o', Blind ((d.child name).load files shelves o'))
    (shelved : ∀ fewer text, fewer < shelves → Blind ((Document.ofText text).load files fewer o))
    (i : Includer) : Blind (d.find files shelves depth o r i) := by
  induction i with
  | files =>
    rw [Document.find]
    exact blind_loadName fun f _ => child _ _
  | shelf s =>
    rw [Document.find]
    refine Blind.bind (fun _ _ => rfl) fun _ _ _ _ => ?_
    split
    · exact fun _ _ => rfl
    · cases shelves with
      | zero => exact fun _ _ => rfl
      | succ fewer => exact shelved fewer _ (Nat.lt_succ_self _)
    · exact fun _ _ => rfl
  | both first second ihFirst ihSecond =>
    rw [Document.find]
    exact ihFirst.bind fun _ _ _ _ => ihSecond.bind fun _ _ _ _ _ _ => rfl

/-- **What a document is loaded as** does not hang on what was included before. -/
theorem blind_load (files : FileTree) (shelves : Nat) (d : Document) (o : ParseOptions) :
    Blind (d.load files shelves o) := by
  induction shelves using Nat.strongRecOn generalizing d o with
  | ind shelves ihShelves =>
    obtain ⟨n, hn⟩ : ∃ n, maxIncludeDepth - d.chain.length = n := ⟨_, rfl⟩
    induction n using Nat.strongRecOn generalizing d o with
    | ind n ih =>
      by_cases depth : d.chain.length < maxIncludeDepth
      · cases content : d.content files with
        | error fault =>
          rw [load_eq_missing shelves depth content]
          split <;> exact fun _ _ => rfl
        | ok text =>
          have root (v : Value) : Blind (liftM (checkRoot (d.originFor o) v) : Loading Value) :=
            blind_liftM _
          by_cases syn : d.syntaxFor o = .properties
          · rw [load_eq_properties shelves depth content syn]
            exact (blind_liftM _).bind fun _ v _ _ => root v
          · rw [load_eq_read shelves depth content syn]
            have answers (r : IncludeRequest) : Blind (d.answers files shelves depth o r) := by
              refine blind_find _ r (fun name o' => ih _ ?_ _ _ rfl)
                (fun fewer text lt => ihShelves fewer lt _ _) _
              rw [chain_child, List.length_append, List.length_singleton]
              omega
            exact ((inquires_read _ _ _ text).blind answers).bind fun _ v _ _ => root v
      · rw [load_eq_tooDeep shelves depth]
        exact fun _ _ => rfl

end Document

end Hocon
