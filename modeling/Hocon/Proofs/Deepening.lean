import Hocon.Proofs.Requiring

/-!
# How deep documents may include each other

A document that is included knows the chain of documents that lead to it, and is not even looked at
if there are as many as the limit: so many include statements that lead on from each other are
refused, not only more of them (`parseFile_nested`).  A chain of files is loaded up to there
(`exists_load_of_isChain`), and whatever goes on for longer, as documents that include each other in
a circle do, is refused for that reason and no other (`tooDeep_of_isDeep`).
-/

namespace Hocon

open Value

namespace Document

/-! ### Files that include each other -/

/-- A file, and how it is to be read. -/
abbrev NamedFile := String × ParseOptions

/-- The include statements of a file. -/
def statements (files : FileTree) (f : NamedFile) : List IncludeRequest :=
  (ofFile f.1).requests files f.2

/-- The files that a statement of a file may stand for. -/
def reached (f : NamedFile) (r : IncludeRequest) : List NamedFile :=
  (namedFiles (asking f.2 r) r.name).map fun g => ((ofFile f.1).located r g.1, g.2)

/-- The file can be read. -/
def IsThere (files : FileTree) (f : NamedFile) : Prop := ∃ text, files.read f.1 = .ok text

/-- The file is well-formed, whatever it includes. -/
def IsReadable (files : FileTree) (f : NamedFile) : Prop :=
  IsThere files f ∧ ∃ v, outcome ((ofFile f.1).loadAlone files f.2) = .ok v

/-- So many include statements, the first one in the file, lead on from each other. -/
def LeadsOn (files : FileTree) : Nat → NamedFile → Prop
  | 0, _ => True
  | n + 1, f => ∃ r ∈ statements files f, ∃ g ∈ reached f r, LeadsOn files n g

/-- The file includes others, and each of these that is there has the property. -/
structure Links (files : FileTree) (f : NamedFile) (P : NamedFile → Prop) : Prop where
  readable : IsReadable files f
  some : statements files f ≠ []
  there : ∀ r ∈ statements files f, ∃ g ∈ reached f r, IsThere files g
  next : ∀ r ∈ statements files f, ∀ g ∈ reached f r, IsThere files g → P g

/-- A chain of so many files behind the file, each of which includes the next one, and the last one
nothing. -/
def IsChain (files : FileTree) : Nat → NamedFile → Prop
  | 0, f => IsReadable files f ∧ statements files f = []
  | n + 1, f => Links files f (IsChain files n)

/-- From the file, include statements lead on for so many files at least. -/
def IsDeep (files : FileTree) : Nat → NamedFile → Prop
  | 0, _ => True
  | n + 1, f => Links files f (IsDeep files n)

/-- From the file, include statements lead on without end. -/
def IsEndless (files : FileTree) (f : NamedFile) : Prop :=
  ∃ S : NamedFile → Prop, S f ∧ ∀ g, S g → Links files g S

variable {files : FileTree} {f : NamedFile} {n : Nat}

theorem Links.mono {P Q : NamedFile → Prop} (h : Links files f P) (le : ∀ g, P g → Q g) :
    Links files f Q :=
  ⟨h.readable, h.some, h.there, fun r hr g hg there => le g (h.next r hr g hg there)⟩

theorem IsChain.isDeep (h : IsChain files n f) : IsDeep files n f := by
  induction n generalizing f with
  | zero => trivial
  | succ n ih => exact Links.mono h fun _ => ih

theorem IsDeep.of_le {k : Nat} (h : IsDeep files n f) (le : k ≤ n) : IsDeep files k f := by
  induction k generalizing n f with
  | zero => trivial
  | succ k ih =>
    obtain ⟨n, rfl⟩ : ∃ m, n = m + 1 := ⟨n - 1, by omega⟩
    exact Links.mono h fun _ deep => ih deep (Nat.le_of_succ_le_succ le)

theorem IsEndless.isDeep (h : IsEndless files f) (n : Nat) : IsDeep files n f := by
  obtain ⟨S, start, links⟩ := h
  induction n generalizing f with
  | zero => trivial
  | succ n ih => exact (links f start).mono fun _ => ih

/-- A file that is not there includes nothing. -/
theorem statements_of_missing (missing : ¬ IsThere files f) : statements files f = [] := by
  cases content : files.read f.1 with
  | ok text => exact absurd ⟨text, content⟩ missing
  | error fault =>
    have content : (ofFile f.1).content files = .error fault := content
    rw [statements, requests, content]

/-- No more include statements lead on from each other than the chain has. -/
theorem IsChain.not_leadsOn (h : IsChain files n f) : ¬ LeadsOn files (n + 1) f := by
  induction n generalizing f with
  | zero =>
    rintro ⟨r, hr, -⟩
    rw [h.2] at hr
    cases hr
  | succ n ih =>
    rintro ⟨r, hr, g, hg, nested⟩
    by_cases there : IsThere files g
    · exact ih (Links.next h r hr g hg there) nested
    · obtain ⟨r', hr', -⟩ := nested
      rw [statements_of_missing there] at hr'
      cases hr'

/-! ### Statements of a file that is loaded -/

theorem includer_asking (o : ParseOptions) (r : IncludeRequest) :
    (asking o r).includer = o.includer := by
  unfold asking
  split <;> rfl

/-- Where nobody else is asked, nobody is on the way further down. -/
theorem includer_of_mem_reached {r : IncludeRequest} {g : NamedFile} (h : g ∈ reached f r)
    (alone : f.2.includer = none) : g.2.includer = none := by
  obtain ⟨g, mem, rfl⟩ := List.mem_map.1 h
  exact (includer_of_mem_namedFiles mem).trans ((includer_asking _ _).trans alone)

/-- The file as a document that others lead to. -/
abbrev docBehind (chain : List String) (f : NamedFile) : Document := { source := .file f.1, chain }

/-- Loads a file that others lead to. -/
abbrev loadBehind (files : FileTree) (shelves : Nat) (chain : List String) (f : NamedFile) :
    Loading Value :=
  (docBehind chain f).load files shelves f.2

variable {shelves : Nat} {chain : List String}

/-- If nobody else is asked, what becomes of a statement is told by the files that it reaches. -/
theorem named_answers (files : FileTree) (shelves : Nat)
    (depth : (docBehind chain f).chain.length < maxIncludeDepth) (alone : f.2.includer = none)
    (r : IncludeRequest) (m : List IncludeRecord) :
    Named (fun name o => loadBehind files shelves (chain ++ [f.1]) ((ofFile f.1).located r name, o))
      (asking f.2 r) r.name
      (((docBehind chain f).answers files shelves depth f.2 r).run.run m).1 := by
  have asked : (asking f.2 r).allIncluders = .files := by
    unfold ParseOptions.allIncluders
    rw [includer_asking, alone]
  rw [answers, asked, Document.find]
  exact named_loadName (fun _ _ => blind_load _ _ _ _)
    (fun allowed e h => not_isUnreadable_load _ _ _ _ (.inl allowed) e h) m

/-- A file that is not there is left out, or told of. -/
theorem loadBehind_missing (missing : ¬ IsThere files f) (depth : chain.length < maxIncludeDepth)
    {e : Error} (h : outcome (loadBehind files shelves chain f) = .error e) : IsUnreadable e := by
  cases content : files.read f.1 with
  | ok text => exact absurd ⟨text, content⟩ missing
  | error fault =>
    rw [loadBehind, load_eq_missing (d := docBehind chain f) shelves depth content] at h
    split at h <;> cases h
    exact ⟨_, _, rfl⟩

theorem mem_reached {r : IncludeRequest} {g : NamedFile} (h : g ∈ namedFiles (asking f.2 r) r.name) :
    ((ofFile f.1).located r g.1, g.2) ∈ reached f r :=
  List.mem_map_of_mem h

/-- A refusal is for depth only if the failure is. -/
theorem isTooDeep_of_refusal {q : Inquiry} {e : Error} (h : IsTooDeep (q.refusal e)) :
    IsTooDeep e := by
  unfold Inquiry.refusal at h
  split at h
  · obtain ⟨_, _, _, _, _, ⟨⟩⟩ := h
  · exact h

theorem refusal_of_isTooDeep {q : Inquiry} {e : Error} (h : IsTooDeep e) : q.refusal e = e := by
  obtain ⟨_, _, _, _, _, rfl⟩ := h
  unfold Inquiry.refusal
  split
  · next h _ => cases h
  · rfl

/-! ### Refused for depth -/

/-- **Where documents are refused for their depth**, so many include statements as the limit still
allows lead on from each other. -/
theorem leadsOn_of_tooDeep {left : Nat} (limit : chain.length + left = maxIncludeDepth)
    (alone : f.2.includer = none) {e : Error}
    (h : outcome (loadBehind files shelves chain f) = .error e) (deep : IsTooDeep e) :
    LeadsOn files left f := by
  induction left generalizing f chain e with
  | zero => trivial
  | succ left ih =>
    have depth : (docBehind chain f).chain.length < maxIncludeDepth := by
      show chain.length < maxIncludeDepth
      omega
    cases load_failure depth h with
    | missing => obtain ⟨_, _, _, _, _, ⟨⟩⟩ := deep
    | own _ shallow => exact absurd deep shallow
    | @refused q mem m _ _ refused =>
      rcases ask_failure refused with ⟨e', answered, rfl⟩ | ⟨-, rfl⟩
      · have deep := isTooDeep_of_refusal deep
        have named := named_answers files shelves depth alone q.request m
        rw [answered] at named
        cases named with
        | @refused g here _ he _ =>
          have mem' := mem_reached here
          refine ⟨q.request, mem, _, mem', ih ?_ (includer_of_mem_reached mem' alone) he deep⟩
          rw [List.length_append, List.length_singleton]
          omega
        | missing _ left failed =>
          cases allowed : (asking f.2 q.request).allowMissing with
          | true =>
            obtain ⟨v, ⟨⟩⟩ := left allowed
          | false =>
            obtain ⟨_, ⟨⟩, ⟨_, _, rfl⟩ | ⟨⟨_, rfl⟩, -⟩⟩ := failed allowed <;>
              obtain ⟨_, _, _, _, _, ⟨⟩⟩ := deep
      · obtain ⟨_, _, _, _, _, ⟨⟩⟩ := deep

/-- A statement is refused for depth if what it reaches is, as far as it is there. -/
theorem answers_tooDeep (depth : (docBehind chain f).chain.length < maxIncludeDepth)
    (alone : f.2.includer = none) {r : IncludeRequest}
    (there : ∃ g ∈ reached f r, IsThere files g)
    (deep : ∀ g ∈ reached f r, IsThere files g →
      ∃ e, outcome (loadBehind files shelves (chain ++ [f.1]) g) = .error e ∧ IsTooDeep e)
    (missing : ∀ g ∈ reached f r, ¬ IsThere files g → ∀ e,
      outcome (loadBehind files shelves (chain ++ [f.1]) g) = .error e →
        IsUnreadable e ∨ IsTooDeep e)
    (m : List IncludeRecord) :
    ∃ e, (((docBehind chain f).answers files shelves depth f.2 r).run.run m).1 = .error e
      ∧ IsTooDeep e := by
  -- one of the files is there, and refused
  obtain ⟨g, hg, e, loads, tooDeep⟩ : ∃ g ∈ namedFiles (asking f.2 r) r.name, ∃ e,
      outcome (loadBehind files shelves (chain ++ [f.1]) ((ofFile f.1).located r g.1, g.2)) = .error e
        ∧ IsTooDeep e := by
    obtain ⟨g, hg, there⟩ := there
    obtain ⟨g, mem, rfl⟩ := List.mem_map.1 hg
    exact ⟨g, mem, deep _ hg there⟩
  have readable : ¬ IsUnreadable e := by
    rintro ⟨_, _, rfl⟩
    obtain ⟨_, _, _, _, _, ⟨⟩⟩ := tooDeep
  have named := named_answers files shelves depth alone r m
  generalize (((docBehind chain f).answers files shelves depth f.2 r).run.run m).1 = result at named ⊢
  cases named with
  | @refused f' mem e' he readable' =>
    by_cases here : IsThere files ((ofFile f.1).located r f'.1, f'.2)
    · obtain ⟨e'', he', tooDeep'⟩ := deep _ (mem_reached mem) here
      rw [he] at he'
      cases he'
      exact ⟨e', rfl, tooDeep'⟩
    · exact ⟨e', rfl, (missing _ (mem_reached mem) here e' he).resolve_left readable'⟩
  | found passed => exact absurd (passed g hg e loads) readable
  | missing none =>
    obtain ⟨e', he, unreadable⟩ := none g hg
    rw [loads] at he
    cases he
    exact absurd unreadable readable

/-- **Where include statements lead on for longer than the limit still allows**, the document is
refused for its depth. -/
theorem tooDeep_of_isDeep {left : Nat} (limit : chain.length + left = maxIncludeDepth)
    (alone : f.2.includer = none) (h : IsDeep files left f) :
    ∃ e, outcome (loadBehind files shelves chain f) = .error e ∧ IsTooDeep e := by
  induction left generalizing f chain with
  | zero =>
    have depth : ¬ (docBehind chain f).chain.length < maxIncludeDepth := by
      show ¬ chain.length < maxIncludeDepth
      omega
    exact ⟨_, congrArg outcome (load_eq_tooDeep shelves depth), _, _, _, _, _, rfl⟩
  | succ left ih =>
    have depth : (docBehind chain f).chain.length < maxIncludeDepth := by
      show chain.length < maxIncludeDepth
      omega
    have limit' : (chain ++ [f.1]).length + left = maxIncludeDepth := by
      rw [List.length_append, List.length_singleton]
      omega
    have links : Links files f (IsDeep files left) := h
    have refused {r : IncludeRequest} (hr : r ∈ statements files f) := answers_tooDeep
      depth alone (links.there r hr)
      (fun g hg there => ih limit' (includer_of_mem_reached hg alone) (links.next r hr g hg there))
      (fun g hg missing e he => by
        by_cases deeper : (chain ++ [f.1]).length < maxIncludeDepth
        · exact .inl (loadBehind_missing missing deeper he)
        · rw [loadBehind, load_eq_tooDeep shelves deeper] at he
          cases he
          exact .inr ⟨_, _, _, _, _, rfl⟩)
    cases loads : outcome (loadBehind files shelves chain f) with
    | error e =>
      refine ⟨e, rfl, ?_⟩
      obtain ⟨⟨text, content⟩, v, reads⟩ := links.readable
      cases load_failure depth loads with
      | missing content' => exact nomatch content.symm.trans content'
      | own _ _ alone =>
        obtain ⟨e', alone⟩ := alone
        exact nomatch reads.symm.trans alone
      | @refused q mem m _ _ asked =>
        obtain ⟨e', answered, deep⟩ := refused mem m
        rcases ask_failure asked with ⟨e'', answered', rfl⟩ | ⟨⟨v, answered', -⟩, -⟩ <;>
          rw [answered] at answered' <;> cases answered'
        rwa [refusal_of_isTooDeep deep]
    | ok v =>
      obtain ⟨r, hr⟩ := List.exists_mem_of_ne_nil _ links.some
      refine absurd loads (load_ne_of_request depth hr (fun m a m' answered => ?_) v)
      obtain ⟨e, error, -⟩ := refused hr m
      rw [answered] at error
      cases error

/-! ### Loaded -/

/-- Whatever answers a statement is an object, if nobody else is asked. -/
theorem answers_object (alone : f.2.includer = none) {r : IncludeRequest} {m m' : List IncludeRecord}
    {v : Value} (h : ((docBehind chain f).answers files shelves depth f.2 r).run.run m = (.ok v, m')) :
    v.fields?.isSome = true := by
  have asked : (asking f.2 r).allIncluders = .files := by
    unfold ParseOptions.allIncluders
    rw [includer_asking, alone]
  rw [answers, asked, Document.find] at h
  have yields : Yields (loadName (asking f.2 r) r.name fun name o =>
      ((docBehind chain f).child ((docBehind chain f).located r name)).load files shelves o) IsOpenRoot := by
    refine loadName_tracks fun name o same => load_yields files _ _ ?_
    unfold IncludesRoots ParseOptions.allIncluders
    rw [same, includer_asking, alone]
    trivial
  exact (yields.result h).1.2

/-- A file is loaded if its statements are answered. -/
theorem exists_load_of_answers (depth : (docBehind chain f).chain.length < maxIncludeDepth)
    (alone : f.2.includer = none) (readable : IsReadable files f)
    (answered : ∀ r ∈ statements files f, ∀ m e,
      (((docBehind chain f).answers files shelves depth f.2 r).run.run m).1 ≠ .error e) :
    ∃ v, outcome (loadBehind files shelves chain f) = .ok v := by
  obtain ⟨⟨text, content⟩, v, reads⟩ := readable
  cases loads : outcome (loadBehind files shelves chain f) with
  | ok v => exact ⟨v, rfl⟩
  | error e =>
    cases load_failure depth loads with
    | missing content' => exact nomatch content.symm.trans content'
    | own _ _ alone =>
      obtain ⟨e', alone⟩ := alone
      exact nomatch reads.symm.trans alone
    | @refused q mem m _ _ asked =>
      rcases ask_failure asked with ⟨e', refused, -⟩ | ⟨⟨v, found, other⟩, -⟩
      · exact absurd refused (answered q.request mem m e')
      · rw [answers_object alone (Prod.ext found rfl)] at other
        cases other

/-- **A chain of files is loaded** if it ends before the limit. -/
theorem exists_load_of_isChain (limit : chain.length + n < maxIncludeDepth)
    (alone : f.2.includer = none) (h : IsChain files n f) :
    ∃ v, outcome (loadBehind files shelves chain f) = .ok v := by
  induction n generalizing f chain with
  | zero =>
    obtain ⟨readable, none⟩ := h
    refine exists_load_of_answers limit alone readable fun r hr => ?_
    rw [none] at hr
    cases hr
  | succ n ih =>
    have links : Links files f (IsChain files n) := h
    have depth : (docBehind chain f).chain.length < maxIncludeDepth := by
      show chain.length < maxIncludeDepth
      omega
    have limit' : (chain ++ [f.1]).length + n < maxIncludeDepth := by
      rw [List.length_append, List.length_singleton]
      omega
    refine exists_load_of_answers depth alone links.readable fun r hr m e refused => ?_
    have loads {g : NamedFile} (hg : g ∈ reached f r) (there : IsThere files g) :
        ∃ v, outcome (loadBehind files shelves (chain ++ [f.1]) g) = .ok v :=
      ih limit' (includer_of_mem_reached hg alone) (links.next r hr g hg there)
    have named := named_answers files shelves depth alone r m
    rw [refused] at named
    cases named with
    | @refused g mem _ he readable =>
      have hg := mem_reached mem
      by_cases there : IsThere files ((ofFile f.1).located r g.1, g.2)
      · obtain ⟨v, loaded⟩ := loads hg there
        exact nomatch he.symm.trans loaded
      · exact readable (loadBehind_missing there (by omega) he)
    | missing none =>
      obtain ⟨g, hg, there⟩ := links.there r hr
      obtain ⟨v, loaded⟩ := loads hg there
      obtain ⟨g, mem, rfl⟩ := List.mem_map.1 hg
      obtain ⟨e', he, -⟩ := none g mem
      exact nomatch he.symm.trans loaded

/-! ### Files with one statement -/

theorem reached_single {name : String} (ending : (DocumentSyntax.ofFileName? name).isSome = true) :
    reached f { name, isFileName := false, required := false }
      = [((ofFile f.1).neighbour name, f.2.inherited)] := by
  rw [reached, namedFiles, if_pos ending]
  rfl

/-- A file that does nothing but include another one. -/
theorem reads_including {name : String} (content : files.read f.1 = .ok (including name))
    (conf : (ofFile f.1).syntaxFor f.2 = .conf) :
    IsReadable files f
      ∧ statements files f = [{ name, isFileName := false, required := false }] := by
  have content' : (ofFile f.1).content files = .ok (including name) := content
  have syn : (ofFile f.1).syntaxFor f.2 ≠ .properties := by
    rw [conf]
    nofun
  let c := start .conf ((ofFile f.1).originFor f.2) noting (including name)
  obtain ⟨line, root⟩ := readRoot_inclusion (c := c) ⟨rfl, kind_stopOf _ _⟩
    (writesInclusion_plain name) (items_including name)
  have reads : (Document.read .conf ((ofFile f.1).originFor f.2) noting (including name)).run.run []
      = (.ok (.ofFields (c.originAt line) []),
        [IncludeRequest.note { name, isFileName := false, required := false }]) := by
    show (readRoot c (Item.ofTokens (Token.ofText .conf (including name).toList))).run.run [] = _
    rw [root]
    exact run_bind_of_ok (run_ask_noting ⟨_, c.originAt line⟩ []) _
  refine ⟨⟨⟨_, content⟩, .ofFields (c.originAt line) [], ?_⟩, ?_⟩
  · rw [loadAlone_eq_read content' syn, conf, outcome, run_bind_of_ok reads]
    rfl
  · rw [statements, requests_eq content' syn, conf, requestsIn, reads]
    rfl

/-- A file that does nothing but include one that is there. -/
theorem Links.including {P : NamedFile → Prop} (name : String)
    (content : files.read f.1 = .ok (Document.including name))
    (conf : (ofFile f.1).syntaxFor f.2 = .conf)
    (ending : (DocumentSyntax.ofFileName? name).isSome = true)
    (there : IsThere files ((ofFile f.1).neighbour name, f.2.inherited))
    (next : P ((ofFile f.1).neighbour name, f.2.inherited)) : Links files f P := by
  obtain ⟨readable, only⟩ := reads_including content conf
  have one {r : IncludeRequest} (h : r ∈ statements files f) :
      reached f r = [((ofFile f.1).neighbour name, f.2.inherited)] := by
    rw [only] at h
    cases List.mem_singleton.1 h
    exact reached_single ending
  refine ⟨readable, ?_, fun r hr => ?_, fun r hr g hg _ => ?_⟩
  · rw [only]
    exact List.cons_ne_nil _ _
  · rw [one hr]
    exact ⟨_, List.mem_singleton_self _, there⟩
  · rw [one hr] at hg
    cases List.mem_singleton.1 hg
    exact next

/-- A file that can be read and includes nothing. -/
theorem isChain_zero (text : String) (content : files.read f.1 = .ok text)
    (check : (outcome ((ofFile f.1).loadAlone files f.2)).isOk = true)
    (none : statements files f = []) : IsChain files 0 f := by
  refine ⟨⟨⟨text, content⟩, ?_⟩, none⟩
  cases reads : outcome ((ofFile f.1).loadAlone files f.2) with
  | ok v => exact ⟨v, rfl⟩
  | error e =>
    rw [reads] at check
    cases check

/-! ### The limit -/

/-- **The limit of includes.**  A file is refused for its depth only if so many include statements
as the limit lead on from each other; a chain of files is loaded if and only if it has fewer; and
where they lead on without end, the file is refused for that. -/
theorem parseFile_nested (files : FileTree) {o : ParseOptions} (alone : o.includer = none)
    (name : String) :
    (∀ e, outcome (parseFile files o name) = .error e → IsTooDeep e →
      LeadsOn files maxIncludeDepth (name, o))
    ∧ (∀ n, IsChain files n (name, o) →
      ((∃ v, outcome (parseFile files o name) = .ok v) ↔ n < maxIncludeDepth)
        ∧ (maxIncludeDepth ≤ n → ∃ e, outcome (parseFile files o name) = .error e ∧ IsTooDeep e))
    ∧ (IsEndless files (name, o) →
      ∃ e, outcome (parseFile files o name) = .error e ∧ IsTooDeep e) := by
  have limit : ([] : List String).length + maxIncludeDepth = maxIncludeDepth := Nat.zero_add _
  have file (h : IsDeep files maxIncludeDepth (name, o)) :
      ∃ e, outcome (parseFile files o name) = .error e ∧ IsTooDeep e :=
    tooDeep_of_isDeep (f := (name, o)) limit alone h
  refine ⟨fun e h deep => leadsOn_of_tooDeep (f := (name, o)) limit alone h deep, fun n h => ?_,
    fun h => file (h.isDeep _)⟩
  have deep (le : maxIncludeDepth ≤ n) := file (h.isDeep.of_le le)
  refine ⟨⟨fun ⟨v, loaded⟩ => ?_, fun lt => ?_⟩, deep⟩
  · by_contra ge
    obtain ⟨e, refused, -⟩ := deep (Nat.not_lt.1 ge)
    exact nomatch loaded.symm.trans refused
  · have limit : ([] : List String).length + n < maxIncludeDepth := by
      rw [List.length_nil, Nat.zero_add]
      exact lt
    exact exists_load_of_isChain (f := (name, o)) limit alone h

/-- A file that includes another one is loaded, and one that includes itself is not. -/
theorem parseFile_nested_example :
    let files := FileTree.ofNames [("a.conf", .text (including "b.conf")), ("b.conf", .text "x = 1"),
      ("c.conf", .text (including "c.conf"))]
    (∃ v, outcome (parseFile files {} "a.conf") = .ok v)
      ∧ ∃ e, outcome (parseFile files {} "c.conf") = .error e ∧ IsTooDeep e := by
  intro files
  have last : IsChain files 0 ("b.conf", {}) :=
    isChain_zero "x = 1" (by decide +kernel) (by decide +kernel) (by decide +kernel)
  have chain : IsChain files 1 ("a.conf", {}) :=
    Links.including "b.conf" (by decide +kernel) (by decide +kernel) (by decide +kernel)
      ⟨"x = 1", by decide +kernel⟩ last
  have circle (S : NamedFile → Prop) (h : S ("c.conf", {})) : Links files ("c.conf", {}) S :=
    .including "c.conf" (by decide +kernel) (by decide +kernel) (by decide +kernel)
      ⟨including "c.conf", by decide +kernel⟩ h
  have endless : IsEndless files ("c.conf", {}) := by
    refine ⟨fun g => g = ("c.conf", {}), rfl, ?_⟩
    rintro g rfl
    exact circle _ rfl
  refine ⟨?_, (parseFile_nested files rfl "c.conf").2.2 endless⟩
  exact (((parseFile_nested files rfl "a.conf").2.1 1 chain).1).2 (by decide)

/-- The names of the files of a chain. -/
def linkName (k : Nat) : String := "f" ++ toString k ++ ".conf"

/-- A chain of files. -/
def chainOf (n : Nat) : FileTree :=
  .ofNames ((List.range n).map (fun k => (linkName k, .text (including (linkName (k + 1)))))
    ++ [(linkName n, .text "a = 1")])

/-- Fifty statements that lead on from each other are refused already. -/
theorem parseFile_nested_counterexample :
    IsChain (chainOf 50) 50 (linkName 0, {}) ∧ ¬ LeadsOn (chainOf 50) 51 (linkName 0, {})
      ∧ ∃ e, outcome (parseFile (chainOf 50) {} (linkName 0)) = .error e ∧ IsTooDeep e := by
  have content : ∀ k < 50,
      (chainOf 50).read (linkName k) = .ok (including (linkName (k + 1))) := by decide +kernel
  have last : (chainOf 50).read (linkName 50) = .ok "a = 1" := by decide +kernel
  have names : ∀ k < 50, (ofFile (linkName k)).syntaxFor {} = .conf
      ∧ (DocumentSyntax.ofFileName? (linkName (k + 1))).isSome = true
      ∧ (ofFile (linkName k)).neighbour (linkName (k + 1)) = linkName (k + 1) := by
    decide +kernel
  have there (k : Nat) (le : k ≤ 50) : IsThere (chainOf 50) (linkName k, {}) := by
    rcases Nat.lt_or_eq_of_le le with lt | rfl
    · exact ⟨_, content k lt⟩
    · exact ⟨_, last⟩
  have chain (n : Nat) (le : n ≤ 50) : IsChain (chainOf 50) n (linkName (50 - n), {}) := by
    induction n with
    | zero => exact isChain_zero _ last (by decide +kernel) (by decide +kernel)
    | succ n ih =>
      obtain ⟨k, hk⟩ : ∃ k, 50 - (n + 1) = k := ⟨_, rfl⟩
      have step : 50 - n = k + 1 := by omega
      have lt : k < 50 := by omega
      obtain ⟨conf, ending, beside⟩ := names k lt
      rw [step] at ih
      rw [hk]
      refine Links.including _ (content k lt) conf ending ?_ ?_ <;> rw [beside]
      · exact there (k + 1) (by omega)
      · exact ih (by omega)
  have whole := chain 50 (Nat.le_refl _)
  have limit : ([] : List String).length + 50 = maxIncludeDepth := Nat.zero_add _
  exact ⟨whole, whole.not_leadsOn, tooDeep_of_isDeep (f := (linkName 0, {})) limit rfl whole.isDeep⟩

end Document

end Hocon
