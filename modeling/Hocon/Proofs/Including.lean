import Hocon.Proofs.Reading

/-!
# The trees of documents

Whatever a document includes, its tree is well formed and has no marks (`Document.load_yields`).
What is included is loaded in the same way, from a file or from a shelf, and then moved under the
path of the including field; and documents in other syntaxes give such trees too.
-/

namespace Hocon

open Value

/-- A tree as some document gives it. -/
abbrev Value.FromDocument (v : Value) : Prop := v.FromText fun _ => True

namespace Value

variable {v w : Value}

/-! ### Moving under a path -/

theorem relocateFields_eq (place : Path) (fs : Entries Value) :
    relocateFields place fs = fs.map fun f => (f.1, f.2.relocate place) := by
  induction fs with
  | nil => rfl
  | cons f fs ih => rw [relocateFields, ih, List.map_cons]

theorem relocateItems_eq (place : Path) (xs : List Value) :
    relocateItems place xs = xs.map (relocate place) := by
  induction xs with
  | nil => rfl
  | cons x xs ih => rw [relocateItems, ih, List.map_cons]

theorem isMerge_relocate (v : Value) (place : Path) : (v.relocate place).isMerge = v.isMerge := by
  cases v <;> unfold relocate <;> first | rfl | (split <;> rfl)

theorem isObjectValued_relocate (v : Value) (place : Path) :
    (v.relocate place).isObjectValued = v.isObjectValued := by
  cases v with
  | merge p k ls => cases k <;> (unfold relocate; rfl)
  | _ => unfold relocate; first | rfl | (split <;> rfl)

theorem isPending_relocate (v : Value) (place : Path) :
    (v.relocate place).isPending = v.isPending := by
  cases v <;> unfold relocate <;> first | rfl | (split <;> rfl)

theorem isClosed_relocate (v : Value) (place : Path) : (v.relocate place).isClosed = v.isClosed := by
  cases v <;> unfold relocate <;> first | rfl | (split <;> rfl)

theorem fields?_relocate (v : Value) (place : Path) :
    (v.relocate place).fields? = none ↔ v.fields? = none := by
  cases v <;> unfold relocate <;> first | rfl | (split <;> simp [fields?])

/-- Layers that are changed, but not in what makes them layers. -/
theorem Stacked.map {f : Value → Value} (isMerge : ∀ v, (f v).isMerge = v.isMerge)
    (fields : ∀ v, (f v).fields? = none ↔ v.fields? = none)
    (isObjectValued : ∀ v, (f v).isObjectValued = v.isObjectValued)
    (isClosed : ∀ v, (f v).isClosed = v.isClosed) {k : MergeKind} {ls : List Value}
    (h : Stacked k ls) : Stacked k (ls.map f) where
  flat := List.forall_mem_map.2 fun x hx => (isMerge x).trans (h.flat x hx)
  waits := by
    obtain ⟨x, hx, waits⟩ := h.waits
    exact ⟨_, List.mem_map_of_mem hx, (fields x).2 waits⟩
  kind l hl := by
    rw [List.head?_map] at hl
    obtain ⟨x, hx, rfl⟩ := Option.map_eq_some_iff.1 hl
    rw [isObjectValued]
    exact h.kind x hx
  lasting := List.pairwise_map.2 (h.lasting.imp fun open_ => (isClosed _).trans open_)

theorem Stacked.relocate {k : MergeKind} {ls : List Value} (h : Stacked k ls) (place : Path) :
    Stacked k (ls.map (Value.relocate place)) :=
  h.map (isMerge_relocate · place) (fields?_relocate · place) (isObjectValued_relocate · place)
    (isClosed_relocate · place)

/-- A tree that is moved under a path is one that a document may give. -/
theorem FromText.relocate (h : v.FromDocument) (place : Path) :
    (v.relocate place).FromDocument := by
  induction v using parts_induction with
  | node v ih =>
    have parts (x : Value) (hx : x ∈ v.parts) : (x.relocate place).FromDocument :=
      ih x hx (h.parts x hx)
    have items (xs : List Value) (hxs : ∀ x ∈ xs, x ∈ v.parts) :
        ∀ x ∈ xs.map (Value.relocate place), x.FromDocument := by
      intro x hx
      obtain ⟨y, hy, rfl⟩ := List.mem_map.1 hx
      exact parts y (hxs y hy)
    have lines := h.wellFormed.lines
    cases v with
    | object p c fs =>
      rw [Value.relocate]
      split
      · exact h
      rw [relocateFields_eq]
      refine .ofFields rfl lines ?_ fun k u hu => ?_
      · simpa only [Entries.keys, List.map_map, Function.comp_def] using h.wellFormed.nodup
      · obtain ⟨f, hf, e⟩ := List.mem_map.1 hu
        cases e
        exact parts f.2 (mem_parts_of_mem_fields hf)
    | list p xs =>
      rw [Value.relocate]
      split
      · exact h
      rw [relocateItems_eq]
      exact .ofItems lines (items xs fun _ => id)
    | reference p r =>
      rw [Value.relocate]
      exact FromText.leaf (.reference (p := { origin := p.origin }) lines trivial) rfl rfl
    | concat p ps =>
      rw [Value.relocate, relocateItems_eq]
      have pieces := items ps fun _ => id
      exact ⟨.concat (p := { origin := p.origin }) lines trivial fun x hx => (pieces x hx).wellFormed,
        .fresh rfl (fun _ => trivial) fun x hx => (pieces x hx).markable⟩
    | merge p k ls =>
      rw [Value.relocate, relocateItems_eq]
      have layers := items ls fun _ => id
      -- moving changes neither the layers nor which of them wait
      have stacked : Stacked k ls := by
        cases h.wellFormed with
        | merge _ stacked _ => exact stacked
      exact ⟨.merge (p := { origin := p.origin }) lines (stacked.relocate place)
          fun l hl => (layers l hl).wellFormed,
        .fresh rfl (fun _ => trivial) fun l hl => (layers l hl).markable⟩
    | _ => unfold Value.relocate; exact h

end Value

/-! ### Trees from paths -/

/-- A tree under construction of values that have a property. -/
inductive PathTree.Holds (P : Value → Prop) : PathTree → Prop
  | leaf {v : Value} (h : P v) : Holds P (.leaf v)
  | branch {ts : Entries PathTree} (nodup : (Entries.keys ts).Nodup)
      (children : ∀ k t, (k, t) ∈ ts → Holds P t) : Holds P (.branch ts)

namespace PathTree.Holds

variable {P : Value → Prop}

theorem empty : Holds P (.branch []) :=
  .branch List.nodup_nil fun _ _ h => (List.not_mem_nil h).elim

theorem put {ts : Entries PathTree} (h : Holds P (.branch ts)) (key : String) {t : PathTree}
    (ht : t.Holds P) : Holds P (.branch (Entries.put ts key t)) := by
  cases h with
  | branch nodup children =>
    have nodup' := Entries.nodup_keys_put nodup key t
    refine .branch nodup' fun k u hu => ?_
    have hu := Entries.get?_of_mem nodup' hu
    rw [Entries.get?_put] at hu
    split at hu
    · cases hu
      exact ht
    · exact children k u (Entries.mem_of_get? hu)

theorem child {ts : Entries PathTree} (h : Holds P (.branch ts)) {key : String}
    {t : PathTree} (ht : Entries.get? ts key = some t) : t.Holds P := by
  cases h with
  | branch _ children => exact children key t (Entries.mem_of_get? ht)

theorem insert? {v : Value} (hv : P v) {keys : List String} {ts ts' : Entries PathTree}
    (h : Holds P (.branch ts)) (hi : PathTree.insert? v keys ts = some ts') :
    Holds P (.branch ts') := by
  induction keys generalizing ts ts' with
  | nil =>
    cases hi
    exact h
  | cons key keys ih =>
    cases keys with
    | nil =>
      cases hi
      exact h.put key (.leaf hv)
    | cons next keys =>
      rw [PathTree.insert?] at hi
      · split at hi
        · obtain ⟨inner, hinner, rfl⟩ := Option.map_eq_some_iff.1 hi
          exact h.put key (ih empty hinner)
        · next inner there =>
          obtain ⟨inner', hinner, rfl⟩ := Option.map_eq_some_iff.1 hi
          exact h.put key (ih (h.child there) hinner)
        · cases hi
      · exact List.cons_ne_nil _ _

theorem toValue [grammatical : Document.Grammatical P] {t : PathTree} (h : t.Holds P) {o : Origin}
    (lines : o.Commented IsLine) : P (t.toValue o) := by
  have childValues_eq (ts : Entries PathTree) :
      childValues o ts = ts.map fun t => (t.1, t.2.toValue o) := by
    induction ts with
    | nil => rfl
    | cons t ts ih => rw [childValues, ih, List.map_cons]
  induction h with
  | leaf h => rwa [PathTree.toValue]
  | branch nodup _ ih =>
    rw [PathTree.toValue, childValues_eq]
    refine grammatical.fields lines ?_ fun k u hu => ?_
    · simpa only [Entries.keys, List.map_map, Function.comp_def] using nodup
    · obtain ⟨t, ht, e⟩ := List.mem_map.1 hu
      cases e
      exact ih t.1 t.2 ht

end PathTree.Holds

theorem PathMap.holds_build {P : Value → Prop} {all rest : List (Path × Value)} {objectsWin : Bool}
    (hrest : ∀ e ∈ rest, P e.2) {ts ts' : Entries PathTree} (hts : PathTree.Holds P (.branch ts))
    (hb : build all objectsWin rest ts = .ok ts') : PathTree.Holds P (.branch ts') := by
  induction rest generalizing ts with
  | nil =>
    cases hb
    exact hts
  | cons e rest ih =>
    obtain ⟨he, hrest⟩ := List.forall_mem_cons.1 hrest
    rw [build] at hb
    split at hb
    · split at hb
      · exact ih hrest hts hb
      · cases hb
    · split at hb
      · next inserted => exact ih hrest (hts.insert? he inserted) hb
      · cases hb

section

variable {P : Value → Prop} [grammatical : Document.Grammatical P]

theorem PathMap.grammatical_toValue? {o : Origin} (lines : o.Commented IsLine)
    {entries : List (Path × Value)} (h : ∀ e ∈ entries, P e.2) {objectsWin : Bool}
    {v : Value} (hv : PathMap.toValue? o entries objectsWin = .ok v) : Document.Piece P v := by
  unfold PathMap.toValue? at hv
  cases hb : build entries objectsWin entries [] with
  | error e =>
    rw [hb] at hv
    cases hv
  | ok ts =>
    rw [hb] at hv
    cases hv
    exact ⟨(holds_build h .empty hb).toValue lines, rfl⟩

theorem Properties.grammatical_read {o : Origin} (lines : o.Commented IsLine) {text : String}
    {v : Value} (hv : Properties.read o text = .ok v) : Document.Piece P v := by
  refine PathMap.grammatical_toValue? lines (fun e he => ?_) hv
  obtain ⟨e, -, rfl⟩ := List.mem_map.1 he
  have text : P (Document.literalValue o (.string e.2)) := grammatical.literal lines trivial
  exact text

end

/-! ### Loading -/

namespace Document

/-- Where `x` gives a result, it has the property `P`. -/
abbrev Yields {α : Type} (x : Loading α) (P : α → Prop) : Prop := Tracks .depth x x P

/-- A computation whose outcome is looked at, failures included; it does not help with includes
that are too deep. -/
theorem Tracks.outcome {α β : Type} {x y : Loading α} {P : α → Prop} {Q : β → Prop}
    {f g : Except Error α → Loading β} (hx : Tracks .depth x y P)
    (h : ∀ r, (∀ a, r = .ok a → P a) → Tracks .depth (f r) (g r) Q)
    (deep : ∀ e, IsTooDeep e → g (.error e) = throw e) :
    Tracks .depth (liftM (x.run : StateM (List IncludeRecord) (Except Error α)) >>= f)
      (liftM (y.run : StateM (List IncludeRecord) (Except Error α)) >>= g) Q := by
  intro m
  show Leeway.depth.Allows Q ((f (x.run.run m).1).run.run (x.run.run m).2)
    ((g (y.run.run m).1).run.run (y.run.run m).2)
  generalize hp : x.run.run m = p
  generalize hq : y.run.run m = q
  have := hx m
  rw [hp, hq] at this
  cases this with
  | same all => exact h p.1 all p.2
  | @tooDeep _ e isDeep m'' =>
    rw [deep e isDeep]
    exact .tooDeep _ isDeep m''

/-- The tree of a whole document: an object that a document may give. -/
def IsRoot (v : Value) : Prop := v.FromDocument ∧ v.fields?.isSome = true

/-- The tree of a document that was read: a root that is open to fallbacks. -/
def IsOpenRoot (v : Value) : Prop := IsRoot v ∧ v.isClosed = false

theorem isOpenRoot_emptyObject {o : Origin} (lines : o.Commented IsLine) :
    IsOpenRoot (.emptyObject o) :=
  ⟨⟨.ofFields rfl lines List.nodup_nil nofun, rfl⟩, rfl⟩

theorem IsRoot.withFallback {v w : Value} (hv : IsRoot v) (hw : IsRoot w) :
    IsRoot (v.withFallback w) := by
  refine ⟨hv.1.withFallback hw.1, ?_⟩
  refine withFallback_cases (motive := fun v w u => v.fields?.isSome = true →
    w.fields?.isSome = true → u.fields?.isSome = true)
    ?self ?fields ?closing ?waiting hv.1.wellFormed hw.1.wellFormed hv.2 hw.2
  case self => exact fun v w _ hv _ => hv
  case fields => intros; rfl
  case closing => intros; rfl
  case waiting =>
    intro v w _ notObject _ hv hw
    rcases notObject with h | h
    · rw [h] at hv
      cases hv
    · rw [h] at hw
      cases hw

theorem IsOpenRoot.withFallback {v w : Value} (hv : IsOpenRoot v) (hw : IsOpenRoot w) :
    IsOpenRoot (v.withFallback w) := by
  refine ⟨hv.1.withFallback hw.1, ?_⟩
  refine withFallback_cases (motive := fun v w u => w.fields?.isSome = true →
    v.isClosed = false → w.isClosed = false → u.isClosed = false)
    ?self ?fields ?closing ?waiting hv.1.1.wellFormed hw.1.1.wellFormed hw.1.2 hv.2 hw.2
  case self => exact fun v w _ _ hv _ => hv
  case fields => intros; assumption
  case closing =>
    intro p own w notObject _ _ object _ _
    rw [notObject] at object
    cases object
  case waiting => intros; rfl

variable {files : FileTree} {o : ParseOptions}

theorem commented_originFor (d : Document) (o : ParseOptions) :
    (d.originFor o).Commented IsLine := by
  unfold originFor
  split <;> exact .of_nil rfl

theorem loadCandidates_tracks {read read' : DocumentSyntax → Loading Value}
    {ss : List DocumentSyntax} (h : ∀ s ∈ ss, Tracks .depth (read s) (read' s) IsOpenRoot)
    {c : Candidates} (hc : ∀ v, c.found = some v → IsOpenRoot v) :
    Tracks .depth (loadCandidates read ss c) (loadCandidates read' ss c)
      fun c => ∀ v, c.found = some v → IsOpenRoot v := by
  induction ss generalizing c with
  | nil => exact .pure hc
  | cons s ss ih =>
    obtain ⟨hs, hss⟩ := List.forall_mem_cons.1 h
    rw [loadCandidates, loadCandidates]
    refine Tracks.outcome hs (fun r hr => ?_) ?deep
    case deep =>
      rintro _ ⟨_, _, _, _, _, rfl⟩
      rfl
    refine (Tracks.of_ok (P := fun c => ∀ v, c.found = some v → IsOpenRoot v) _
      fun c' added => ?_).bind fun c hc => ih hss hc
    unfold Candidates.add at added
    split at added
    · next v =>
      cases added
      rintro _ ⟨⟩
      split
      · next found hf => exact (hc found hf).withFallback (hr v rfl)
      · exact hr v rfl
    · cases added
      exact hc
    · cases added
      exact hc
    · cases added

theorem loadName_tracks {name : String} {read read' : String → ParseOptions → Loading Value}
    (h : ∀ name o', o'.includer = o.includer → Tracks .depth (read name o') (read' name o') IsOpenRoot) :
    Tracks .depth (loadName o name read) (loadName o name read') IsOpenRoot := by
  unfold loadName
  split
  · exact h name o rfl
  · have none (v : Value) (hv : ({} : Candidates).found = some v) : IsOpenRoot v := nomatch hv
    have tried := loadCandidates_tracks (fun s (_ : s ∈ candidateSyntaxes o) =>
      h (name ++ s.suffix) { o with allowMissing := false, syn := some s } rfl) none
    simp only []
    refine tried.bind fun c hc => ?_
    refine .of_ok _ fun v hv => ?_
    unfold Candidates.result at hv
    split at hv
    · next found =>
      cases hv
      exact hc _ found
    · split at hv
      · cases hv
        exact isOpenRoot_emptyObject (.of_nil rfl)
      · split at hv <;> cases hv

/-- Whether the trees that an includer keeps are such as documents give. -/
def GivesRoots : Includer → Prop
  | .files => True
  | .shelf s => ∀ name v, Entries.get? s.trees name = some v → IsRoot v
  | .both first second => GivesRoots first ∧ GivesRoots second

/-- What is asked for included documents gives the roots of documents. -/
abbrev IncludesRoots (o : ParseOptions) : Prop := GivesRoots o.allIncluders

theorem IncludesRoots.of_includer {o o' : ParseOptions} (h : IncludesRoots o)
    (same : o'.includer = o.includer) : IncludesRoots o' := by
  unfold IncludesRoots ParseOptions.allIncluders at *
  rwa [same]

/-- A document, and the same document that others may include; only the files are asked for what
it includes in turn, or nothing changes. -/
structure Deeper (i : Includer) (d d' : Document) : Prop where
  source : d'.source = d.source
  chain : d.chain.length ≤ d'.chain.length
  plain : i = .files ∨ d' = d

namespace Deeper

variable {i : Includer} {d d' : Document}

theorem of_includer {o o' : ParseOptions} (h : Deeper o.allIncluders d d')
    (same : o'.includer = o.includer) : Deeper o'.allIncluders d d' := by
  unfold ParseOptions.allIncluders at *
  rwa [same]

protected theorem refl (i : Includer) (d : Document) : Deeper i d d := ⟨rfl, Nat.le_refl _, .inr rfl⟩

theorem describe (h : Deeper i d d') : d'.describe = d.describe := by
  unfold Document.describe
  rw [h.source]

theorem neighbour (h : Deeper i d d') (name : String) : d'.neighbour name = d.neighbour name := by
  unfold Document.neighbour
  rw [h.source]

theorem child (h : Deeper i d d') (name : String) : Deeper i (d.child name) (d'.child name) where
  source := rfl
  chain := by
    rw [chain_child, chain_child, List.length_append, List.length_append]
    exact Nat.add_le_add_right h.chain 1
  plain := h.plain.imp_right fun same => by rw [same]

theorem originFor (h : Deeper i d d') (o : ParseOptions) : d'.originFor o = d.originFor o := by
  unfold Document.originFor
  rw [h.source, h.describe]

theorem syntaxFor (h : Deeper i d d') (o : ParseOptions) : d'.syntaxFor o = d.syntaxFor o := by
  unfold Document.syntaxFor syntaxOfName?
  rw [h.source]

theorem content (h : Deeper i d d') (files : FileTree) : d'.content files = d.content files := by
  unfold Document.content
  rw [h.source]

end Deeper

/-- What an includer finds, if what it loads gives roots. -/
theorem find_tracks {files : FileTree} {shelves : Nat} {d d' : Document}
    {depth : d.chain.length < maxIncludeDepth} {depth' : d'.chain.length < maxIncludeDepth}
    {o : ParseOptions} (deeper : Deeper o.allIncluders d d') (r : IncludeRequest)
    (child : ∀ name o', o'.includer = o.includer →
      Tracks .depth ((d.child name).load files shelves o') ((d'.child name).load files shelves o')
        IsOpenRoot)
    (shelved : ∀ fewer text, fewer < shelves →
      Yields ((Document.ofText text).load files fewer o) IsOpenRoot)
    {i : Includer} (gives : GivesRoots i) (plain : i = .files ∨ d' = d) :
    Tracks .depth (d.find files shelves depth o r i) (d'.find files shelves depth' o r i) IsRoot := by
  induction i with
  | files =>
    rw [Document.find, Document.find]
    simp only [deeper.neighbour]
    exact (loadName_tracks fun name o' same => child _ o' same).mono fun _ => And.left
  | shelf s =>
    obtain rfl := plain.resolve_left (by rintro ⟨⟩)
    rw [Document.find]
    refine Tracks.bind (P := fun _ => True) (.of_results fun _ _ _ _ => trivial) fun _ _ => ?_
    split
    · next v there => exact .pure (gives _ v there)
    · cases shelves with
      | zero => exact .throw
      | succ fewer => exact (shelved fewer _ (Nat.lt_succ_self _)).mono fun _ => And.left
    · exact .pure (isOpenRoot_emptyObject (.of_nil rfl)).1
  | both first second ihFirst ihSecond =>
    have same : d' = d := plain.resolve_left (by rintro ⟨⟩)
    rw [Document.find, Document.find]
    exact (ihFirst gives.1 (.inr same)).bind fun v hv => (ihSecond gives.2 (.inr same)).bind
      fun w hw => .pure (hv.withFallback hw)

/-- **Documents give well formed trees without marks**, whatever they include, and the same trees
further down a chain of includes if that does not become too long.  A document on a shelf leaves
fewer shelves, and any other makes the chain longer. -/
theorem load_tracks (files : FileTree) (shelves : Nat) {d d' : Document} {o : ParseOptions}
    (includes : IncludesRoots o) (deeper : Deeper o.allIncluders d d') :
    Tracks .depth (d.load files shelves o) (d'.load files shelves o) IsOpenRoot := by
  induction shelves using Nat.strongRecOn generalizing d d' o with
  | ind shelves ihShelves =>
    obtain ⟨n, hn⟩ : ∃ n, maxIncludeDepth - d.chain.length = n := ⟨_, rfl⟩
    induction n using Nat.strongRecOn generalizing d d' o with
    | ind n ih =>
      have lines := commented_originFor d o
      have le := deeper.chain
      rw [Document.load, Document.load, deeper.originFor, deeper.syntaxFor, deeper.content]
      by_cases depth' : d'.chain.length < maxIncludeDepth
      · have depth : d.chain.length < maxIncludeDepth := Nat.lt_of_le_of_lt deeper.chain depth'
        rw [dif_pos depth, dif_pos depth']
        split
        · split
          · exact .pure (isOpenRoot_emptyObject lines)
          · exact .throw
        · next text _ =>
          -- what is included is further down the chain, or off a shelf
          have found (o' : ParseOptions) (same : o'.includer = o.includer) (r : IncludeRequest) :
              Tracks .depth (d.find files shelves depth o' r o'.allIncluders)
                (d'.find files shelves depth' o' r o'.allIncluders) IsRoot := by
            have includes' := includes.of_includer same
            have deeper' := deeper.of_includer same
            refine find_tracks deeper' r (fun name o'' same' => ?_)
              (fun fewer text lt => ihShelves fewer lt includes' (.refl _ _)) includes' deeper'.plain
            refine ih _ ?_ (includes'.of_includer same') ((deeper'.of_includer same').child name) rfl
            rw [chain_child, List.length_append, List.length_singleton]
            omega
          -- the root of a document is an object
          have root (v : Value) (hv : Piece Value.FromDocument v) :
              Yields (liftM (checkRoot (d.originFor o) v)) IsOpenRoot := by
            refine .of_ok _ fun w hw => ?_
            unfold checkRoot at hw
            split at hw
            · next object =>
              cases hw
              refine ⟨⟨hv.1, object⟩, ?_⟩
              have piece := hv.2
              cases v with
              | object p closed fs => simpa [isPiece, isClosed] using piece
              | _ => cases object
            · cases hw
          simp only []
          split
          · refine (Tracks.of_ok _ fun v hv => ?_).bind root
            exact Properties.grammatical_read lines hv
          · refine (tracks_read (fun r => ?_) lines text).bind root
            refine Tracks.mono (P := IsRoot) ?_ fun v hv => ⟨hv.1, hv.1.relocate⟩
            split
            · exact found { o.inherited with allowMissing := false } rfl r
            · exact found o.inherited rfl r
      · -- there is no way further down
        rw [dif_neg depth']
        exact fun m => .tooDeep _ ⟨_, _, _, _, _, rfl⟩ m

/-- Documents give the roots of documents. -/
theorem load_yields (files : FileTree) (shelves : Nat) (d : Document) {o : ParseOptions}
    (includes : IncludesRoots o) : Yields (d.load files shelves o) IsOpenRoot :=
  load_tracks files shelves includes (.refl _ d)

end Document

/-! ### Whatever is parsed -/

/-- A tree that parsing gives, of a text, of a file, or of a name that may lack its ending.  If
others than the files are asked for what the document includes, they give the trees of
documents. -/
inductive Value.Parsed (v : Value) : Prop
  | text (files : FileTree) {o : ParseOptions} (includes : Document.IncludesRoots o) (text : String)
      (parsed : ((parseText files o text).run.run []).1 = .ok v) : Parsed v
  | file (files : FileTree) {o : ParseOptions} (includes : Document.IncludesRoots o) (name : String)
      (parsed : ((parseFile files o name).run.run []).1 = .ok v) : Parsed v
  | anySyntax (files : FileTree) {o : ParseOptions} (includes : Document.IncludesRoots o)
      (name : String) (parsed : ((parseAnySyntax files o name).run.run []).1 = .ok v) : Parsed v

/-- What is parsed is the root of a document, and open to fallbacks. -/
theorem Value.Parsed.isOpenRoot {v : Value} (h : v.Parsed) : Document.IsOpenRoot v := by
  have result {x : Loading Value} (hx : Document.Yields x Document.IsOpenRoot)
      (parsed : (x.run.run []).1 = .ok v) : Document.IsOpenRoot v :=
    hx.result (Prod.ext parsed rfl)
  cases h with
  | text files includes _ parsed => exact result (Document.load_yields files _ _ includes) parsed
  | file files includes _ parsed => exact result (Document.load_yields files _ _ includes) parsed
  | anySyntax files includes _ parsed =>
    refine result (Document.loadName_tracks fun name o' same => ?_) parsed
    exact Document.load_yields files _ _ (includes.of_includer same)

theorem Value.Parsed.isRoot {v : Value} (h : v.Parsed) : Document.IsRoot v := h.isOpenRoot.1

/-- A tree that can be resolved: an object whose numbers are spelled and of which each mark is on
one node. -/
structure Value.Resolvable (v : Value) : Prop where
  coherent : v.Coherent
  wellFormed : v.WellFormed .spelled
  object : v.fields?.isSome = true

theorem Document.IsRoot.resolvable {v : Value} (h : Document.IsRoot v) : v.Resolvable where
  coherent := ⟨_, h.1.markable⟩
  wellFormed := h.1.wellFormed.mono (fun _ _ _ => trivial) (fun _ _ => trivial) fun _ _ => id
  object := h.2

end Hocon
