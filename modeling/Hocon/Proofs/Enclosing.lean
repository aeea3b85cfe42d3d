import Mathlib
import Hocon.Proofs.Relocation
import Hocon.Proofs.Rendering

/-!
# Documents included under a key

A document that holds nothing but a key and an include statement below it.  It is read as what it
includes, put under the key, and that is resolved like the included document for itself, if no
substitution in it is looked up a second time.
-/

namespace Hocon

open Value Scan

/-! ### The items of such a document -/

/-- The text of a document that includes another one under a key. -/
def Document.enclosing (key name : String) : String :=
  Text.bareOrQuoted key ++ " \x7b include " ++ Text.quote name ++ " \x7d"

/-- The items are the key, the brace, the include statement with blanks in it, and a brace. -/
theorem exists_items_enclosing (key name : String) : ∃ kind, SpellsKey key kind ∧
    (Item.ofTokens (Token.ofText .conf (Document.enclosing key name).toList)).map Item.kind =
      [kind, .openBrace, .bare "include", .bare " ", .value (.string name), .closeBrace] := by
  have blank : [' '].all Cursor.isGap = true := rfl
  have close : Lexed true ([' '] ++ "\x7d".toList) [.closeBrace] := .sign rfl blank (.stop rfl)
  have quoted : Lexed true ([' '] ++ ((Text.quote name).toList ++ ([' '] ++ "\x7d".toList)))
      [.bare " ", .value (.string name), .closeBrace] :=
    lexed_spaced_quote blank nofun name (by decide) close
  have keyword : Lexed false ([' '] ++ ("include".toList
      ++ ([' '] ++ ((Text.quote name).toList ++ ([' '] ++ "\x7d".toList)))))
      [.bare "include", .bare " ", .value (.string name), .closeBrace] := by
    have scan (rest : List Char) : scanFlat true 'i' ("nclude".toList ++ ([' '] ++ rest))
        = (.bare "include", [' '] ++ rest) := rfl
    exact .token blank (by decide) (by decide) (scan _) rfl nofun quoted
  have braced : Lexed true ([' '] ++ '\x7b' :: ([' '] ++ ("include".toList
      ++ ([' '] ++ ((Text.quote name).toList ++ ([' '] ++ "\x7d".toList))))))
      [.openBrace, .bare "include", .bare " ", .value (.string name), .closeBrace] :=
    .sign rfl blank keyword
  have ends (rest : List Char) : EndsBare ([' '] ++ rest) ∧ ([' '] ++ rest).head? ≠ some '"' :=
    ⟨.inr rfl, by simp⟩
  obtain ⟨kind, spells, lexed⟩ := lexed_bareOrQuoted key (ends _).1 (ends _).2 braced
  refine ⟨kind, spells, ?_⟩
  have text : (Document.enclosing key name).toList = (Text.bareOrQuoted key).toList
      ++ ([' '] ++ '\x7b' :: ([' '] ++ ("include".toList
        ++ ([' '] ++ ((Text.quote name).toList ++ ([' '] ++ "\x7d".toList)))))) := by
    simp only [Document.enclosing, String.toList_append, List.append_assoc]
    rfl
  rw [text]
  exact lexed.items

namespace Document

/-! ### Reading it -/

/-- A failure that is looked at and passed on. -/
theorem attempt_eq_bind {α β : Type} (x : Loading α) {f : Except Error α → Loading β}
    (error : ∀ e, f (.error e) = throw e) :
    (liftM (x.run : StateM (List IncludeRecord) (Except Error α)) >>= f)
      = x >>= fun a => f (.ok a) := by
  funext m
  show (f (x.run.run m).1).run.run (x.run.run m).2 = (x >>= fun a => f (.ok a)).run.run m
  simp only [ExceptT.run_bind, StateT.run_bind]
  rcases x.run.run m with ⟨e | a, m'⟩
  · rw [error]
    rfl
  · rfl

theorem run_bind_of_ok {α β : Type} {x : Loading α} {m m' : List IncludeRecord} {a : α}
    (h : x.run.run m = (.ok a, m')) (f : α → Loading β) :
    (x >>= f).run.run m = (f a).run.run m' := by
  simp only [ExceptT.run_bind, StateT.run_bind, h]
  rfl

theorem run_bind_of_error {α β : Type} {x : Loading α} {m m' : List IncludeRecord} {e : Error}
    (h : x.run.run m = (.error e, m')) (f : α → Loading β) :
    (x >>= f).run.run m = (.error e, m') := by
  simp only [ExceptT.run_bind, StateT.run_bind, h]
  rfl

variable {c : Context}

/-- What becomes of an included document at this place. -/
def Context.moved (c : Context) (v : Value) : Value :=
  match c.place? with
  | some place => v.relocate place
  | none => v

/-- The fields of an included document over others; it has to be an object. -/
def Context.taken (c : Context) (line : Nat) (name : String) (fields : Entries Value) (v : Value) :
    Loading (Entries Value) :=
  match (c.moved v).fields? with
  | some included => pure (includeFields fields included)
  | none => throw (.notIncluded (c.originAt line) (.notAnObject name))

/-- An include statement with nothing but a name asks for this document. -/
theorem readInclude_plain (hc : c.InConf) (fields : Entries Value) (keyword : Item)
    {blank named : Item} {name : String} (s : List Item) (hblank : blank.kind = .bare " ")
    (hname : named.kind = .value (.string name)) :
    ∃ le, readInclude c fields keyword (blank :: named :: s) = (do
      let v ← c.answer { name, isFileName := false, required := false }
      let entries ← c.taken keyword.line name fields v
      return (entries, ⟨s, le⟩)) := by
  have isBlank : blank.isBlank = true := by
    rw [Item.isBlank, hblank]
    rfl
  have firm : Firm (blank :: named :: s) := .cons (by rw [hblank]; rfl) _
  have firm' : Firm (named :: s) := .cons (by rw [hname]; rfl) _
  obtain ⟨_, skip⟩ := skipNewlines_of_firm hc firm
  obtain ⟨_, skip'⟩ := skipNewlines_of_firm hc firm'
  have le : s.length ≤ (blank :: named :: s).length := by simp only [List.length_cons]; omega
  have readName : readIncludeName c "" (blank :: named :: s) = pure (⟨"", name, named⟩, ⟨s, le⟩) := by
    rw [readIncludeName]
    simp only [skip, pure_bind, hblank, isBlank, if_true]
    rw [readIncludeName]
    simp only [skip', pure_bind, hname]
  refine ⟨le, ?_⟩
  have words : includeWords c ⟨"", name, named⟩ = .ok (false, false, 0) := rfl
  have closing : readClosing c 0 s = pure ⟨s, Nat.le_refl _⟩ := by rw [readClosing, if_pos rfl]
  unfold readInclude
  simp only [readName, pure_bind, words]
  show (readClosing c 0 s >>= fun q => _) = _
  rw [closing, pure_bind]
  rw [attempt_eq_bind _ (by rintro (e | e) <;> rfl)]
  refine bind_congr fun v => ?_
  unfold Context.taken
  show (match (c.moved v).fields? with | some included => _ | none => _) = _
  cases (c.moved v).fields? <;> rfl

/-- Braces around nothing but an include statement. -/
theorem readFields_include (hc : c.InConf) {keyword blank named close : Item} {name : String}
    (hkeyword : keyword.kind = .bare "include") (hblank : blank.kind = .bare " ")
    (hname : named.kind = .value (.string name)) (hclose : close.kind = .closeBrace) :
    ∃ le, readFields c true {} [keyword, blank, named, close] = (do
      let v ← c.answer { name, isFileName := false, required := false }
      let entries ← c.taken keyword.line name [] v
      return (entries, ⟨[], le⟩)) := by
  have firm : Firm [keyword, blank, named, close] := .cons (by rw [hkeyword]; rfl) _
  have firm' : Firm [close] := .cons (by rw [hclose]; rfl) _
  obtain ⟨_, skip⟩ := skipNewlines_of_firm hc firm
  obtain ⟨_, missing⟩ := readSeparator_missing hc firm'
  obtain ⟨_, asks⟩ := readInclude_plain hc [] keyword [close] hblank hname
  have word : (TokenKind.bare "include").isInclude = true := rfl
  have conf : (c.syn != .json) = true := by rw [hc.syn]; rfl
  refine ⟨Nat.zero_le _, ?_⟩
  rw [readFields]
  simp only [skip, pure_bind, hkeyword, word, conf, Bool.true_and, if_true, asks, bind_assoc,
    missing, hclose]

/-- A field whose value is such an object. -/
theorem readField_include (hc : c.InConf) {key name : String} {t u keyword blank named close : Item}
    (ht : SpellsKey key t.kind) (hu : u.kind = .openBrace)
    (hkeyword : keyword.kind = .bare "include") (hblank : blank.kind = .bare " ")
    (hname : named.kind = .value (.string name)) (hclose : close.kind = .closeBrace) :
    ∃ (g : Value → Fields) (le : _), (∀ v, (g v).entries = [(key, v)])
      ∧ readField c {} t [u, keyword, blank, named, close] = (do
        let v ← c.answer { name, isFileName := false, required := false }
        let entries ← (c.enter (.ofKey key)).taken keyword.line name [] v
        return (g (withComments (.ofFields (c.originAt u.line) entries) (t.comments ++ u.comments)),
          ⟨[], le⟩)) := by
  obtain ⟨_, read⟩ := readKey_eq hc ht (s := [keyword, blank, named, close]) (.inr (.inr hu))
  have firm : Firm [u, keyword, blank, named, close] := .cons (by rw [hu]; rfl) _
  obtain ⟨_, skip⟩ := skipNewlines_of_firm hc firm
  have inner : (c.enter (.ofKey key)).InConf := ⟨hc.syn, hc.stop⟩
  obtain ⟨_, fields⟩ := readFields_include inner hkeyword hblank hname hclose
  have fresh : key ∉ Entries.keys ({} : Fields).entries := List.not_mem_nil
  refine ⟨fun v => { entries := [(key, v)], lastKey := some (.ofKey key) }, Nat.zero_le _,
    fun _ => rfl, ?_⟩
  rw [readField]
  simp only [read, pure_bind, skip, hu, hc.syn]
  rw [readValue]
  simp only [hu, fields, bind_assoc, pure_bind, putField_fresh fresh]
  rfl

/-- **A document that includes another one under a key** is an object with an object at the key:
the fields of the included document, moved under the key. -/
theorem readRoot_enclosing (hc : c.InConf) {key name : String} {kind : TokenKind}
    (hkey : SpellsKey key kind) {s : List Item} (hs : s.map Item.kind =
      [kind, .openBrace, .bare "include", .bare " ", .value (.string name), .closeBrace]) :
    ∃ (line : Nat) (o p : Origin) (comments : List String), readRoot c s = (do
      let v ← c.answer { name, isFileName := false, required := false }
      let entries ← (c.enter (.ofKey key)).taken line name [] v
      return .ofFields o [(key, withComments (.ofFields p entries) comments)]) := by
  obtain ⟨t, rest, rfl, rfl, hrest⟩ := List.map_eq_cons_iff.1 hs
  obtain ⟨u, s, rfl, hu, hs⟩ := List.map_eq_cons_iff.1 hrest
  obtain ⟨keyword, s, rfl, hkeyword, hs⟩ := List.map_eq_cons_iff.1 hs
  obtain ⟨blank, s, rfl, hblank, hs⟩ := List.map_eq_cons_iff.1 hs
  obtain ⟨named, s, rfl, hname, hs⟩ := List.map_eq_cons_iff.1 hs
  obtain ⟨close, s, rfl, hclose, hs⟩ := List.map_eq_cons_iff.1 hs
  cases List.map_eq_nil_iff.1 hs
  have firm := firm_of_key hkey [u, keyword, blank, named, close]
  obtain ⟨_, skip⟩ := skipNewlines_of_firm hc firm
  obtain ⟨_, skip'⟩ := skipNewlines_of_firm hc (s := []) nofun
  obtain ⟨_, missing⟩ := readSeparator_missing hc (s := []) nofun
  obtain ⟨g, _, entries, field⟩ := readField_include hc hkey hu hkeyword hblank hname hclose
  have noInclude := hkey.noInclude
  have conf : c.syn ≠ .json := by rw [hc.syn]; decide
  refine ⟨keyword.line, c.originAt t.line, c.originAt u.line, t.comments ++ u.comments, ?_⟩
  have fields : ∃ le, readFields c false {} [t, u, keyword, blank, named, close] = (do
      let v ← c.answer { name, isFileName := false, required := false }
      let entries ← (c.enter (.ofKey key)).taken keyword.line name [] v
      return ([(key, withComments (.ofFields (c.originAt u.line) entries)
        (t.comments ++ u.comments))], ⟨[], le⟩)) := by
    refine ⟨Nat.zero_le _, ?_⟩
    rw [readFields]
    obtain ⟨literal, kind⟩ | ⟨text, kind⟩ := hkey.literal_or_bare <;> rw [kind] at noInclude <;>
      simp only [skip, pure_bind, kind, noInclude, Bool.false_and, Bool.false_eq_true, if_false,
        field, bind_assoc, missing, entries]
  obtain ⟨_, fields⟩ := fields
  have noContainer : t.kind.opensContainer = false := by
    obtain ⟨literal, kind⟩ | ⟨text, kind⟩ := hkey.literal_or_bare <;> rw [kind] <;> rfl
  unfold readRoot
  simp only [skip, pure_bind, noContainer, Bool.false_eq_true, if_false, if_neg conf, fields,
    bind_assoc, skip']
  rfl

/-! ### Loading it -/

/-- What an included document is when it is loaded for itself, from beside the including one. -/
def besides (files : FileTree) (d : Document) (name : String) : Loading Value :=
  loadName {} name fun name o => parseFile files o (d.neighbour name)

/-- Included, a document is what it is for itself, unless documents include each other too
deeply. -/
theorem besides_tracks (files : FileTree) (d : Document) (name : String) :
    Tracks .depth (besides files d name)
      (loadName {} name fun name o => (d.child (d.neighbour name)).load files 1 o) IsOpenRoot := by
  refine loadName_tracks fun name o same => ?_
  have shelves : o.shelfDepth = 1 := by
    unfold ParseOptions.shelfDepth ParseOptions.allIncluders
    rw [same]
    rfl
  have asked : o.allIncluders = .files := by
    unfold ParseOptions.allIncluders
    rw [same]
  have includes : IncludesRoots o := by
    unfold IncludesRoots
    rw [asked]
    trivial
  rw [parseFile, shelves]
  exact load_tracks files 1 includes ⟨rfl, Nat.zero_le _, .inl asked⟩

theorem besides_yields (files : FileTree) (d : Document) (name : String) :
    Yields (besides files d name) IsOpenRoot := by
  refine loadName_tracks fun name o same => load_yields files _ _ (o := o) ?_
  unfold IncludesRoots ParseOptions.allIncluders
  rw [same]
  trivial

/-- Fields with new keys are put behind those that are there. -/
theorem includeFields_fresh (done fs : Entries Value) (nodup : (Entries.keys (done ++ fs)).Nodup) :
    includeFields done fs = done ++ fs := by
  unfold includeFields
  induction fs generalizing done with
  | nil => exact (List.append_nil done).symm
  | cons f fs ih =>
    have fresh : f.1 ∉ Entries.keys done := by
      rw [Entries.keys, List.map_append, List.nodup_append] at nodup
      exact fun there => nodup.2.2 _ there _ List.mem_cons_self rfl
    rw [List.foldl_cons, Entries.get?_eq_none_iff.2 fresh, Entries.put_of_not_mem fresh]
    have more := ih (done ++ [f]) (by rwa [List.append_assoc])
    rwa [List.append_assoc] at more

/-- Where nothing was before, the fields of an included document are taken as they are. -/
theorem taken_moved {c : Context} {place : Path} (there : c.place? = some place) (line : Nat)
    (name : String) {v : Value} {q : Provenance} {closed : Bool} {fs : Entries Value}
    (moved : v.relocate place = .object q closed fs) (nodup : (Entries.keys fs).Nodup) :
    c.taken line name [] v = pure fs := by
  have moved : (c.moved v).fields? = some fs := by
    unfold Context.moved
    rw [there]
    simp only [moved]
    rfl
  unfold Context.taken
  rw [moved]
  simp only [includeFields_fresh [] fs nodup]
  rfl

/-- A document is read with an answer for its include statements: the files that they name. -/
theorem exists_load_eq {files : FileTree} {d : Document} {o : ParseOptions} {text : String}
    (shelves : Nat) (depth : d.chain.length < maxIncludeDepth) (plain : o.includer = none)
    (conf : d.syntaxFor o = .conf) (content : d.content files = .ok text) :
    ∃ c : Context, c.InConf ∧ c.keys = []
      ∧ (∀ name, c.answer { name, isFileName := false, required := false } =
          loadName {} name fun name o => (d.child (d.neighbour name)).load files shelves o)
      ∧ d.load files shelves o =
          readRoot c (Item.ofTokens (Token.ofText .conf text.toList)) >>= fun v =>
            checkRoot (d.originFor o) v := by
  have inner : o.inherited = {} := by rw [ParseOptions.inherited, plain]
  rw [load, dif_pos depth, content, conf, inner]
  refine ⟨_, ?inConf, ?keys, ?answers, rfl⟩
  case inConf => exact ⟨rfl, kind_stopOf _ _⟩
  case keys => rfl
  case answers =>
    intro name
    show d.find files shelves depth {} { name, isFileName := false, required := false } .files = _
    rw [find]
    rfl

/-- **A document that includes another one under a key** is loaded as an object that holds the
fields of the other one, moved under the key; or documents include each other too deeply. -/
theorem load_enclosing {files : FileTree} {d : Document} {key name : String} (top : d.chain = [])
    (conf : d.syntaxFor {} = .conf) (content : d.content files = .ok (enclosing key name))
    {root : Value} (alone : ((besides files d name).run.run []).1 = .ok root) :
    (∃ e, ((d.load files 1 {}).run.run []).1 = .error e ∧ IsTooDeep e)
      ∨ ∃ v p fs, ((d.load files 1 {}).run.run []).1 = .ok v
        ∧ (∃ q, root.relocate (.ofKey key) = object q false fs)
        ∧ Below [key] (object p false fs) v ∧ v.Unmarked := by
  have depth : d.chain.length < maxIncludeDepth := by rw [top]; decide
  obtain ⟨kind, spells, items⟩ := exists_items_enclosing key name
  -- the document is read as what its include statement is answered with
  obtain ⟨c, inConf, keys, answers, eq⟩ := exists_load_eq 1 depth rfl conf content
  have there : (c.enter (.ofKey key)).place? = some (.ofKey key) := by
    unfold Context.place? Context.enter
    rw [keys]
    rfl
  obtain ⟨line, o, p, comments, read⟩ := readRoot_enclosing inConf spells items
  rw [read, answers, bind_assoc] at eq
  have tracks := besides_tracks files d name []
  rcases hx : (besides files d name).run.run [] with ⟨x, m⟩
  rw [hx] at alone tracks
  cases alone
  generalize hy : (loadName {} name _).run.run [] = y at tracks
  cases tracks with
  | @tooDeep _ e deep m' =>
    refine .inl ⟨e, ?_, deep⟩
    rw [eq, run_bind_of_error hy]
  | same isRoot =>
    obtain ⟨⟨sound, object⟩, open_⟩ := isRoot root rfl
    obtain ⟨p₀, closed, fs, rfl⟩ : ∃ p closed fs, root = .object p closed fs := by
      obtain ⟨fs, hfs⟩ := Option.isSome_iff_exists.1 object
      obtain ⟨p, closed, rfl⟩ := eq_object_of_fields? hfs
      exact ⟨p, closed, fs, rfl⟩
    cases (open_ : closed = false)
    obtain ⟨q, moved, -⟩ := exists_relocate_object p₀ false fs (.ofKey key)
    have nodup : (Entries.keys (relocateFields (.ofKey key) fs)).Nodup := by
      rw [relocateFields_eq]
      simpa only [Entries.keys, List.map_map, Function.comp_def] using sound.wellFormed.nodup
    obtain ⟨p', commented⟩ : ∃ p', withComments (.ofFields p (relocateFields (.ofKey key) fs)) comments
        = .object p' false (relocateFields (.ofKey key) fs) := by
      unfold withComments
      split <;> exact ⟨_, rfl⟩
    have loaded : ((d.load files 1 {}).run.run []).1 = .ok
        (.ofFields o [(key, .object p' false (relocateFields (.ofKey key) fs))]) := by
      rw [eq, run_bind_of_ok hy, taken_moved there line name moved nodup, pure_bind, pure_bind,
        commented]
      rfl
    have yields := load_yields files 1 d (o := {}) trivial
    refine .inr ⟨_, p', _, loaded, ⟨q, moved⟩, .inside (.here _), ?_⟩
    exact (yields.result (Prod.ext loaded rfl)).1.1.markable

/-! ### Loading from files alone -/

/-- Loads a document that includes files only, so many of which may still include each other. -/
def loadFiles (files : FileTree) : Nat → Document → ParseOptions → Loading Value
  | 0, d, o =>
    throw (.parse (d.originFor o) (.includesTooDeep maxIncludeDepth d.chain) .none none)
  | left + 1, d, o =>
    match d.content files with
    | .error fault =>
      if o.allowMissing then pure (.emptyObject (d.originFor o))
      else throw (.unreadable (d.originFor o) (.file fault))
    | .ok text => do
      let answer (r : IncludeRequest) : Loading Value :=
        loadName { allowMissing := !r.required } r.name fun name o =>
          loadFiles files left (d.child (if r.isFileName then name else d.neighbour name)) o
      let v ← match d.syntaxFor o with
        | .properties => Properties.read (d.originFor o) text
        | syn => Document.read syn (d.originFor o) answer text
      checkRoot (d.originFor o) v

/-- A name is loaded in the same way by readers that agree where no others are asked. -/
theorem loadName_congr {o : ParseOptions} (name : String)
    {read read' : String → ParseOptions → Loading Value}
    (h : ∀ name o', o'.includer = o.includer → read name o' = read' name o') :
    loadName o name read = loadName o name read' := by
  have forced : (fun s : DocumentSyntax => read (name ++ s.suffix)
        { o with allowMissing := false, syn := some s })
      = fun s => read' (name ++ s.suffix) { o with allowMissing := false, syn := some s } :=
    funext fun s => h _ _ rfl
  unfold loadName
  rw [h name o rfl]
  simp only [forced]

/-- Documents that include files only are loaded by recursion on how many more there may be. -/
theorem load_eq_loadFiles (files : FileTree) (shelves : Nat) {left : Nat} {d : Document}
    {o : ParseOptions} (plain : o.includer = none)
    (depth : d.chain.length + left = maxIncludeDepth) :
    d.load files shelves o = d.loadFiles files left o := by
  induction left generalizing d o with
  | zero =>
    rw [load, dif_neg (by omega)]
    rfl
  | succ left ih =>
    have shallow : d.chain.length < maxIncludeDepth := by omega
    have inner : o.inherited = {} := by rw [ParseOptions.inherited, plain]
    have answers (r : IncludeRequest) :
        d.find files shelves shallow (if r.required then { allowMissing := false } else {}) r .files
          = loadName { allowMissing := !r.required } r.name fun name o =>
            loadFiles files left (d.child (if r.isFileName then name else d.neighbour name)) o := by
      have asked : (if r.required then { allowMissing := false } else {} : ParseOptions)
          = { allowMissing := !r.required } := by
        cases r.required <;> rfl
      rw [asked, find]
      refine loadName_congr _ fun name o' same => ih same ?_
      rw [chain_child, List.length_append, List.length_singleton]
      omega
    have asks (r : IncludeRequest) : ParseOptions.allIncluders
        (if r.required then { allowMissing := false } else {} : ParseOptions) = .files := by
      cases r.required <;> rfl
    rw [load, dif_pos shallow, loadFiles]
    simp only [inner, asks, answers] <;> rfl

end Document

namespace Value

open Document

variable {files : FileTree} {file key name : String} {root r : Value}

/-! ### What it comes to -/

/-- The origin of an object does not matter. -/
theorem Sides.object_of {place : Path} {R : Value → Value → Prop} {v : Value} {q : Provenance}
    {closed : Bool} {fs : Entries Value} (h : Sides place R v (.object q closed fs))
    (p : Provenance) : Sides place R v (.object p closed fs) := by
  cases h with
  | object o _ closed fields => exact .object o p closed fields

/-- **A document that includes another one under a key** is parsed, unless the includes are too
deep, and comes to what the other one comes to for itself, put under the key, where no substitution
is looked up but where including put it; or both come to nothing. -/
theorem both_resolve_enclosing (written : files.read file = .ok (enclosing key name))
    (conf : (ofFile file).syntaxFor {} = .conf)
    (alone : ((Document.besides files (ofFile file) name).run.run []).1 = .ok root)
    (elsewhere : root.LeadsElsewhere (.ofKey key)) (next next' : Nat) :
    (∃ e, ((parseFile files {} file).run.run []).1 = .error e ∧ IsTooDeep e)
      ∨ ∃ v, ((parseFile files {} file).run.run []).1 = .ok v
        ∧ Both (fun r r' => r'.equals (r.atPath (.ofKey key)) = true)
          (root.confined.resolve {} next) (v.resolve {} next') := by
  refine (load_enclosing (d := ofFile file) rfl conf written alone).imp_right ?_
  rintro ⟨v, p, fs, parsed, ⟨q, moved⟩, below, unmarked⟩
  obtain ⟨document, object⟩ := ((besides_yields files _ name).result (Prod.ext alone rfl)).1
  have twin := twin_relocate (W := fun _ => none) document.markable elsewhere
  rw [moved] at twin
  have object' : root.confined.fields?.isSome = true := by
    rw [← Option.not_isNone, Bool.not_eq_true', Option.isNone_eq_false_iff, Option.isSome_iff_ne_none]
    exact fun none => by simp [(fields?_confined root).1 none] at object
  exact ⟨v, parsed, both_resolve_equals document.confined object' (twin.sides.object_of p) below
    unmarked next next'⟩

/-- **Including a document under a key keeps it working**, if nothing in it refers to the key, and
it comes to the same where its substitutions are looked up only where including put them. -/
theorem resolve_enclosing (written : files.read file = .ok (enclosing key name))
    (conf : (ofFile file).syntaxFor {} = .conf)
    (alone : ((Document.besides files (ofFile file) name).run.run []).1 = .ok root)
    (elsewhere : root.LeadsElsewhere (.ofKey key)) (next next' : Nat)
    (works : root.resolve {} next = .ok r)
    (once : root.confined.resolve {} next = root.resolve {} next) :
    (∃ e, ((parseFile files {} file).run.run []).1 = .error e ∧ IsTooDeep e)
      ∨ ∃ v r', ((parseFile files {} file).run.run []).1 = .ok v ∧ v.resolve {} next' = .ok r'
        ∧ r'.equals (r.atPath (.ofKey key)) = true := by
  refine (both_resolve_enclosing written conf alone elsewhere next next').imp_right ?_
  rintro ⟨v, parsed, both⟩
  rw [once, works] at both
  generalize comes : v.resolve {} next' = x at both
  cases both with
  | ok equal => exact ⟨v, _, parsed, comes, equal⟩


/-! ### Where a substitution is looked up a second time -/

/-- A document in a file that may include `e.conf`, and one that includes it under a key. -/
def nested (d e : String) : FileTree :=
  .ofNames [("top.conf", .text (enclosing "k" "d.conf")), ("d.conf", .text d), ("e.conf", .text e)]

variable {d e : String}

theorem parsed_of_loadFiles
    (h : (((ofFile name).loadFiles files maxIncludeDepth {}).run.run []).1.toOption = some root) :
    ((parseFile files {} name).run.run []).1 = .ok root := by
  rw [parseFile, load_eq_loadFiles files _ rfl (show _ + maxIncludeDepth = _ from Nat.zero_add _)]
  generalize (((ofFile name).loadFiles files maxIncludeDepth {}).run.run []).1 = x at h ⊢
  cases x with
  | error => cases h
  | ok => exact congrArg _ (Option.some.inj h)

theorem besides_nested (h : (((ofFile "d.conf").loadFiles (nested d e) maxIncludeDepth {}).run.run
      []).1.toOption = some root) :
    ((Document.besides (nested d e) (ofFile "top.conf") "d.conf").run.run []).1 = .ok root := by
  have named : (DocumentSyntax.ofFileName? "d.conf").isSome = true := by decide +kernel
  have beside : (ofFile "top.conf").neighbour "d.conf" = "d.conf" := by decide +kernel
  rw [Document.besides, loadName, if_pos named, beside]
  exact parsed_of_loadFiles h

theorem leadsElsewhere_of_check {place : Path} {v : Value}
    (check : v.allNodes (referencePasses fun r =>
      (r.target.path.drop? r.included).all (·.first != place.first)) = true) :
    v.LeadsElsewhere place := by
  intro p r hr q hq
  have := hr.check check
  simpa [referencePasses, hq] using this

/-- Where all stands in a file of one line. -/
def inFile (name : String) : Provenance := { origin := (Origin.ofFile name).atLine 1 }

/-- A reference in such a file, included from the file of another one under some keys. -/
def includedRef (name : String) (path : Path) (included : Nat) : Value :=
  .reference (inFile name) { target := { path, optional := false }, included }

/-- A whole number in such a file. -/
def fileNumber (name : String) (n : Nat) : Value :=
  .number (inFile name) (.whole (.ofNat n)) (some (toString n))

/-- An included document one field of which is included in turn. -/
def including (others included : Entries Value) : Value :=
  .object (inFile "d.conf") false (others ++ [("p", .object (inFile "d.conf") false included)])

/-- A substitution in a document that is included twice is not looked up in the document between. -/
theorem resolve_enclosing_counterexample :
    let files := nested "x = 1, p \x7b include \"e.conf\" \x7d" "s = $\x7bx\x7d"
    ∃ root r v e, files.read "top.conf" = .ok (enclosing "k" "d.conf")
      ∧ (ofFile "top.conf").syntaxFor {} = .conf
      ∧ ((Document.besides files (ofFile "top.conf") "d.conf").run.run []).1 = .ok root
      ∧ root.LeadsElsewhere (.ofKey "k") ∧ root.resolve {} = .ok r
      ∧ ((parseFile files {} "top.conf").run.run []).1 = .ok v ∧ v.resolve {} = .error e := by
  intro files
  let x := fileNumber "d.conf" 1
  let root := including [("x", x)] [("s", includedRef "e.conf" ⟨"p", ["x"]⟩ 1)]
  let v : Value := .object (inFile "top.conf") false [("k", .object (inFile "top.conf") false
    [("x", x), ("p", .object (inFile "d.conf") false
      [("s", includedRef "e.conf" ⟨"k", ["p", "x"]⟩ 2)])])]
  have works : (root.resolve {}).toOption.isSome = true := by cbv
  have fails : (v.resolve {}).toOption = none := by cbv
  cases hr : root.resolve {} with
  | error =>
    rw [hr] at works
    cases works
  | ok r =>
    cases hv : v.resolve {} with
    | ok =>
      rw [hv] at fails
      cases fails
    | error e =>
      exact ⟨root, r, v, e, by decide +kernel, by decide +kernel, besides_nested (by decide +kernel),
        leadsElsewhere_of_check (by decide +kernel), hr, parsed_of_loadFiles (by decide +kernel), hv⟩

/-- A document that refers into what it includes, which has a substitution of its own. -/
theorem resolve_enclosing_example :
    let files := nested "y = $\x7bp.s\x7d, p \x7b include \"e.conf\" \x7d" "x = 1, s = $\x7bx\x7d"
    ∃ root r, files.read "top.conf" = .ok (enclosing "k" "d.conf")
      ∧ (ofFile "top.conf").syntaxFor {} = .conf
      ∧ ((Document.besides files (ofFile "top.conf") "d.conf").run.run []).1 = .ok root
      ∧ root.LeadsElsewhere (.ofKey "k") ∧ root.resolve {} = .ok r
      ∧ root.confined.resolve {} = root.resolve {}
      ∧ ((∃ e, ((parseFile files {} "top.conf").run.run []).1 = .error e ∧ IsTooDeep e)
        ∨ ∃ v r', ((parseFile files {} "top.conf").run.run []).1 = .ok v ∧ v.resolve {} = .ok r'
          ∧ r'.equals (r.atPath (.ofKey "k")) = true) := by
  intro files
  let root := including [("y", includedRef "d.conf" ⟨"p", ["s"]⟩ 0)]
    [("x", fileNumber "e.conf" 1), ("s", includedRef "e.conf" ⟨"p", ["x"]⟩ 1)]
  have written : files.read "top.conf" = .ok (enclosing "k" "d.conf") := by decide +kernel
  have conf : (ofFile "top.conf").syntaxFor {} = .conf := by decide +kernel
  have alone : ((Document.besides files (ofFile "top.conf") "d.conf").run.run []).1 = .ok root :=
    besides_nested (by decide +kernel)
  have elsewhere : root.LeadsElsewhere (.ofKey "k") := leadsElsewhere_of_check (by decide +kernel)
  have once : root.confined.resolve {} = root.resolve {} := by cbv
  have works : (root.resolve {}).toOption.isSome = true := by cbv
  cases hr : root.resolve {} with
  | error =>
    rw [hr] at works
    cases works
  | ok r =>
    exact ⟨root, r, written, conf, alone, elsewhere, hr, hr ▸ once,
      resolve_enclosing written conf alone elsewhere 0 0 hr once⟩

end Value

end Hocon
