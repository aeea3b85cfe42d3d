import Hocon.Proofs.Appending

/-!
# Documents over each other

There are three ways of putting one document over another: writing it behind the other, merging
the two trees, and including the other in front of it.  The three come to the same
(`Document.parse_layers`), because merging is associative: the fields of a document are put over
others one by one, and that is what their object comes to when it is put over the others at once.
-/

namespace Hocon

namespace Document

open Value

/-! ### What comes of a document over fields -/

/-- What fields hold where nothing is referred to. -/
abbrev held (fs : Entries Value) : String → Content := contentOfFields (fun _ => .absent) fs

/-- Where the same fields are put over others, the others hold what those hold upon what they held
before. -/
theorem Overlays.held_eq {es fs gs : Entries Value} (h : Overlays [] es fs gs)
    (final : FinalFields fs) :
    FinalFields es ∧ FinalFields gs ∧ held gs = fun key => (held es key).upon (held fs key) := by
  obtain ⟨own, own', copies, rfl, rfl⟩ := h
  obtain ⟨left, right⟩ := forall_mem_of_forall₂ (fun _ _ h => ⟨h.2.left, h.2.right⟩) copies
  have alone : Overlays [] (includeFields [] own) [] (includeFields [] own') :=
    ⟨own, own', copies, rfl, rfl⟩
  have same : held (includeFields [] own) = held (includeFields [] own') := by
    have := (alone.ofFields (.named "") (.named "")).content_eq fun _ => .absent
    exact (Content.fields.inj this).2
  refine ⟨FinalFields.nil.includeFields left, final.includeFields right, ?_⟩
  rw [same]
  exact content_includeFields _ final right

theorem final_ofFields {fs : Entries Value} (final : FinalFields fs) (o : Origin) :
    (Value.ofFields o fs).Final := .ofFields _ _ final.nodup final.final

/-- Fields that hold the same make the same object. -/
theorem same_ofFields {fs gs : Entries Value} (hf : FinalFields fs) (hg : FinalFields gs)
    (same : held fs = held gs) (o o' : Origin) :
    Same (Value.ofFields o fs) (Value.ofFields o' gs) :=
  (final_ofFields hf o).same_of_content_eq (fun _ => .absent) (final_ofFields hg o')
    (congrArg (Content.fields false) same)

end Document

namespace Value

variable {v w : Value}

theorem Same.withProv (h : Same v w) (p q : Provenance) : Same (v.withProv p) (w.withProv q) := by
  cases h with
  | null => exact .null _ _
  | bool => exact .bool _ _ _
  | number => exact .number _ _ _ _
  | string => exact .string _ _ _ _
  | object _ _ closed keys fields => exact .object _ _ closed keys fields
  | list _ _ length items => exact .list _ _ length items

theorem Same.withComments (h : Same v w) (comments comments' : List String) :
    Same (Document.withComments v comments) (Document.withComments w comments') := by
  have provenance (v : Value) (comments : List String) :
      ∃ p, Document.withComments v comments = v.withProv p := by
    unfold Document.withComments
    split
    · exact ⟨v.prov, by cases v <;> rfl⟩
    · exact ⟨_, rfl⟩
  obtain ⟨p, hp⟩ := provenance v comments
  obtain ⟨q, hq⟩ := provenance w comments'
  rw [hp, hq]
  exact h.withProv p q

theorem Same.field (h : Same v w) (key : String) (o o' : Origin) :
    Same (Value.ofFields o [(key, v)]) (Value.ofFields o' [(key, w)]) := by
  refine .object _ _ false (.refl _) fun k x y hx hy => ?_
  rw [Entries.get?] at hx hy
  split at hx
  · next here =>
    rw [if_pos here] at hy
    cases hx
    cases hy
    exact h
  · cases hx

theorem Same.nest (h : Same v w) (keys : List String) :
    Same (Document.nest v keys) (Document.nest w keys) := by
  induction keys with
  | nil => exact h
  | cons key keys ih => exact ih.field key _ _

end Value

namespace Document

open Value

/-! ### Texts that come to fields -/

/-- Read for itself, the text comes to these fields; nothing in it refers to anything. -/
structure Lays (text : String) (es : Entries Value) : Prop where
  plain : ∀ t ∈ itemsOf text, t.kind.refers = false
  read : ∃ c m m', c.InConf ∧ (∀ r, Fails (c.answer r))
    ∧ FieldsRead c false {} (itemsOf text) m es [] m'

theorem exists_ahead {s s' : List Item} {ks : List TokenKind}
    (plain : ∀ t ∈ s, t.kind.refers = false)
    (items : s'.map Item.kind = s.map Item.kind ++ ks) :
    ∃ w, w.map Item.kind = ks ∧ Ahead w s s' := by
  induction s generalizing s' with
  | nil => exact ⟨s', items, .done⟩
  | cons t s ih =>
    obtain ⟨t', s', rfl, kind, items⟩ := List.map_eq_cons_iff.1 items
    obtain ⟨here, plain⟩ := List.forall_mem_cons.1 plain
    obtain ⟨w, kinds, ahead⟩ := ih plain items
    exact ⟨w, kinds, .item kind here ahead⟩

namespace Lays

variable {text : String} {es : Entries Value}

/-- What was read to its end has no problems in it. -/
theorem flat (h : Lays text es) : ∀ t ∈ itemsOf text, t.kind.isFlat = true := by
  obtain ⟨plain, c, m, m', inConf, refused, read⟩ := h
  have whole : (itemsOf text).map Item.kind = (itemsOf text).map Item.kind ++ [] :=
    (List.append_nil _).symm
  obtain ⟨w, kinds, ahead⟩ := exists_ahead plain whole
  cases List.map_eq_nil_iff.1 kinds
  have beside : c.Beside c := ⟨inConf, inConf, refused⟩
  have nothing : Breaks [] := fun t ht => by cases ht
  obtain ⟨⟨items, same, clean⟩, -⟩ := read.follow beside nothing {} ahead
  rw [List.append_nil] at same
  intro t ht
  have plain := plain t ht
  have clean := clean t (same ▸ ht)
  cases kind : t.kind with
  | substitution optional expression =>
    rw [kind] at plain
    cases plain
  | problem p => exact absurd kind (clean p)
  | _ => rfl

/-- Elsewhere the text puts its fields over those that are there. -/
theorem follow (h : Lays text es) {c : Context} (inConf : c.InConf) {ks : List TokenKind}
    (breaks : ∀ k ∈ ks.head?, k = .newline) {s : List Item}
    (items : s.map Item.kind = (itemsOf text).map Item.kind ++ ks) (f : Fields) :
    ∃ w g, w.map Item.kind = ks ∧ Overlays [] es f.entries g.entries
      ∧ ∀ b n gs r n', FieldsRead c b g w n gs r n' → FieldsRead c b f s n gs r n' := by
  obtain ⟨plain, c₀, m, m', inConf₀, refused, read⟩ := h
  obtain ⟨w, kinds, ahead⟩ := exists_ahead plain items
  have breaks : Breaks w := by
    intro t ht
    refine breaks t.kind ?_
    rw [← kinds, List.head?_map, show w.head? = some t from ht]
    rfl
  obtain ⟨-, g, overlays, goes⟩ := read.follow ⟨inConf₀, inConf, refused⟩ breaks f ahead
  exact ⟨w, g, kinds, overlays, goes⟩

end Lays

/-! ### Fields over fields -/

/-- Reading `s` comes to what `gs` holds upon what `es` holds, and goes on with items of the kinds
`ks`. -/
def Stacks (c : Context) (es gs : Entries Value) (s : List Item) (ks : List TokenKind) : Prop :=
  ∃ w f, w.map Item.kind = ks ∧ FinalFields f.entries
    ∧ held f.entries = (fun key => (held gs key).upon (held es key))
    ∧ ∀ b n hs r n', FieldsRead c b f w n hs r n' → FieldsRead c b {} s n hs r n'

variable {c : Context} {es gs : Entries Value} {upper : String} {s : List Item} {ks : List TokenKind}

/-- Line ends in front of fields do not matter. -/
theorem FieldsRead.newline {b : Bool} {f : Fields} {t : Item} {hs : Entries Value} {r : List Item}
    {n n' : List IncludeRecord} (kind : t.kind = .newline) (h : FieldsRead c b f s n hs r n') :
    FieldsRead c b f (t :: s) n hs r n' := by
  refine h.of_front ?_
  rw [List.dropWhile_cons, Item.isNewline, kind]
  rfl

/-- A text over the fields of what is above it. -/
theorem stacks_over (upperLays : Lays upper gs) (inConf : c.InConf) {f : Fields} {s' : List Item}
    (breaks : ∀ k ∈ ks.head?, k = .newline)
    (items : s'.map Item.kind = .newline :: ((itemsOf upper).map Item.kind ++ ks))
    (final : FinalFields f.entries) (same : held f.entries = held es)
    (goes : ∀ b n hs r n', FieldsRead c b f s' n hs r n' → FieldsRead c b {} s n hs r n') :
    Stacks c es gs s ks := by
  obtain ⟨t, s', rfl, kind, items⟩ := List.map_eq_cons_iff.1 items
  obtain ⟨w, g, kinds, overlays, goes'⟩ := upperLays.follow inConf breaks items f
  obtain ⟨-, final', holds⟩ := overlays.held_eq final
  refine ⟨w, g, kinds, final', same ▸ holds, ?_⟩
  intro b n hs r n' read
  exact goes b n hs r n' ((goes' b n hs r n' read).newline kind)

/-- A text behind another one. -/
theorem stacks_behind {lower : String} (lowerLays : Lays lower es) (upperLays : Lays upper gs)
    (inConf : c.InConf) (breaks : ∀ k ∈ ks.head?, k = .newline)
    (items : s.map Item.kind = (itemsOf lower).map Item.kind
      ++ .newline :: ((itemsOf upper).map Item.kind ++ ks)) : Stacks c es gs s ks := by
  have line : ∀ k ∈ (TokenKind.newline :: ((itemsOf upper).map Item.kind ++ ks)).head?,
      k = .newline := by
    rintro k ⟨⟩
    rfl
  obtain ⟨w, f, kinds, overlays, goes⟩ := lowerLays.follow inConf line items {}
  obtain ⟨-, final, holds⟩ := overlays.held_eq .nil
  refine stacks_over upperLays inConf breaks kinds final ?_ goes
  rw [holds]
  exact funext fun key => Content.upon_absent _

/-- A text behind a statement that includes another one. -/
theorem stacks_include {name : String} {fs : Entries Value} (upperLays : Lays upper gs)
    (inConf : c.InConf) (breaks : ∀ k ∈ ks.head?, k = .newline)
    (items : s.map Item.kind = [.bare "include", .bare " ", .value (.string name)]
      ++ .newline :: ((itemsOf upper).map Item.kind ++ ks))
    (answered : ∀ n, ∃ o, (c.answer { name, isFileName := false, required := false }).run.run n
      = (.ok (.ofFields o fs), n)) (overlays : Overlays [] es [] fs) : Stacks c es gs s ks := by
  obtain ⟨keyword, s, rfl, hkeyword, items⟩ := List.map_eq_cons_iff.1 items
  obtain ⟨blank, s, rfl, hblank, items⟩ := List.map_eq_cons_iff.1 items
  obtain ⟨named, s, rfl, hnamed, items⟩ := List.map_eq_cons_iff.1 items
  obtain ⟨-, final, holds⟩ := overlays.held_eq .nil
  have moved (o : Origin) : (c.moved (.ofFields o fs)).fields? = some fs := by
    unfold Context.moved
    split
    · rw [relocate_of_isResolved (final_ofFields final o).resolved]
      rfl
    · rfl
  have fresh : includeFields [] fs = fs := includeFields_fresh [] fs final.nodup
  have breaks' : Breaks s := by
    intro t ht
    cases s with
    | nil => cases ht
    | cons u s =>
      cases ht
      exact (List.cons.inj items).1
  have front : (keyword :: blank :: named :: s).dropWhile Item.isNewline
      = keyword :: blank :: named :: s := by
    rw [List.dropWhile_cons, Item.isNewline, hkeyword]
    rfl
  let f : Fields := { entries := fs, afterSeparator := true }
  refine stacks_over (f := f) upperLays inConf breaks items final ?_ ?_
  · rw [holds]
    exact funext fun key => Content.upon_absent _
  · intro b n hs r n' read
    obtain ⟨o, answered⟩ := answered n
    refine .include inConf breaks' front hkeyword hblank hnamed answered (moved o) ?_
    rw [fresh]
    exact read

/-! ### The texts -/

/-- A text with another one behind it, which comes over it. -/
def behind (lower upper : String) : String := lower ++ "\n" ++ upper

/-- A statement that includes a document, with a text behind it. -/
def includingFirst (name upper : String) : String :=
  "include " ++ Text.quote name ++ "\n" ++ upper

/-- A text in braces behind a key. -/
def inBraces (key text : String) : String := key ++ " \x7b\n" ++ text ++ "\n\x7d"

theorem lexed_include (name : String) {rest : List Char} {kinds : List TokenKind}
    (more : Lexed false rest kinds) :
    Lexed false ("include".toList ++ ([' '] ++ ((Text.quote name).toList ++ '\n' :: rest)))
      ([.bare "include", .bare " ", .value (.string name)] ++ .newline :: kinds) := by
  have line : Lexed true ('\n' :: rest) (.newline :: kinds) := .firstSign rfl more
  have blank : [' '].all Cursor.isGap = true := rfl
  have quoted : Lexed true ([' '] ++ ((Text.quote name).toList ++ '\n' :: rest))
      (.bare " " :: .value (.string name) :: .newline :: kinds) :=
    lexed_spaced_quote blank nofun name (by simp) line
  have scan (rest : List Char) : Scan.scanFlat true 'i' ("nclude".toList ++ ([' '] ++ rest))
      = (.bare "include", [' '] ++ rest) := rfl
  exact .front (by decide) (by decide) (scan _) rfl quoted

/-- The text is in front of `tail`, and falls into its own items and then into `ks`. -/
def FallsInto (text : String) (tail : List Char) (ks : List TokenKind) : Prop :=
  Lexed false (text.toList ++ tail) ((itemsOf text).map Item.kind ++ ks)

theorem Lays.atEnd (h : Lays upper gs) : FallsInto upper [] [] := by
  rw [FallsInto, List.append_nil, List.append_nil]
  exact lexed_text h.flat

theorem Lays.beforeBrace (h : Lays upper gs) :
    FallsInto upper ['\n', '\x7d'] [.newline, .closeBrace] :=
  lexed_line h.flat (.firstSign rfl (.stop rfl))

variable {lower name : String} {tail : List Char}

theorem lexed_behind (lowerLays : Lays lower es) (falls : FallsInto upper tail ks) :
    Lexed false ((behind lower upper).toList ++ tail) ((itemsOf lower).map Item.kind
      ++ .newline :: ((itemsOf upper).map Item.kind ++ ks)) := by
  simp only [behind, String.toList_append, List.append_assoc]
  exact lexed_line lowerLays.flat falls

theorem lexed_includingFirst (falls : FallsInto upper tail ks) :
    Lexed false ((includingFirst name upper).toList ++ tail)
      ([.bare "include", .bare " ", .value (.string name)]
        ++ .newline :: ((itemsOf upper).map Item.kind ++ ks)) := by
  simp only [includingFirst, String.toList_append, List.append_assoc]
  exact lexed_include name falls

theorem lexed_inBraces {text : String} {key : String} {path : Path} {kinds : List TokenKind}
    (spelled : IsKey key path) (inner : Lexed false (text.toList ++ ['\n', '\x7d']) kinds) :
    Lexed false (inBraces key text).toList
      (Path.expressionTokens key.toList ++ .openBrace :: .newline :: kinds) := by
  simp only [inBraces, String.toList_append, List.append_assoc]
  exact spelled.lexed (.firstSign rfl inner)

/-! ### Loading them -/

/-- A document that can be put over others: it is read for itself, is in neither braces nor
brackets, refers to nothing and includes nothing. -/
structure Layer (files : FileTree) (text : String) (v : Value) : Prop where
  parsed : ((parseText files {} text).run.run []).1 = .ok v
  alone : IncludesNothing text
  braceless : ∀ t ∈ ((itemsOf text).dropWhile Item.isNewline).head?, t.kind.opensContainer = false
  plain : ∀ t ∈ itemsOf text, t.kind.refers = false

/-- The text is that of the only file whose name is this one with an ending. -/
structure HasFile (files : FileTree) (name text : String) : Prop where
  noSyntax : DocumentSyntax.ofFileName? name = none
  text : files.read (name ++ DocumentSyntax.conf.suffix) = .ok text
  others : ∀ s, s ≠ .conf → ∃ fault, files.read (name ++ DocumentSyntax.suffix s) = .error fault

variable {files : FileTree}

theorem Layer.lays {text : String} {v : Value} (layer : Layer files text v) :
    ∃ o es, v = .ofFields o es ∧ Lays text es := by
  obtain ⟨read, -, -⟩ := parseText_spec layer.parsed layer.alone
  unfold readAlone Document.read at read
  obtain ⟨o, es, m, rfl, fields⟩ := fieldsRead_of_readRoot rfl layer.braceless (Prod.ext read rfl)
  exact ⟨o, es, rfl, layer.plain, _, _, _, ⟨rfl, kind_stopOf _ _⟩, fun _ => .throw, fields⟩

theorem Lays.final (h : Lays upper gs) : FinalFields gs := by
  obtain ⟨c, inConf⟩ : ∃ c : Context, c.InConf := h.read.imp fun c ⟨_, _, inConf, _⟩ => inConf
  have items : (itemsOf upper).map Item.kind = (itemsOf upper).map Item.kind ++ [] :=
    (List.append_nil _).symm
  obtain ⟨w, f, -, overlays, -⟩ := h.follow inConf (fun k hk => by cases hk) items {}
  exact (overlays.held_eq .nil).1

/-- What is read as fields is loaded as an object of them. -/
theorem load_of_fieldsRead {d : Document} {o o' : ParseOptions} {shelves : Nat}
    {m m' : List IncludeRecord} (inConf : c.InConf)
    (eq : d.load files shelves o = readRoot c s >>= fun v => checkRoot (d.originFor o') v)
    (read : FieldsRead c false {} s m es [] m') :
    ∃ origin, (d.load files shelves o).run.run m = (.ok (.ofFields origin es), m') := by
  obtain ⟨origin, root⟩ := read.readRoot inConf
  refine ⟨origin, ?_⟩
  rw [eq, run_bind_of_ok root]
  rfl

/-- One candidate is read, and then the others. -/
theorem run_loadCandidates {read : DocumentSyntax → Loading Value} {s : DocumentSyntax}
    {rest : List DocumentSyntax} {found found' : Candidates} {m : List IncludeRecord}
    {x : Except Error Value} (run : (read s).run.run m = (x, m)) (added : found.add x = .ok found') :
    (loadCandidates read (s :: rest) found).run.run m
      = (loadCandidates read rest found').run.run m := by
  show ((found.add ((read s).run.run m).1 : Loading Candidates) >>= loadCandidates read rest).run.run
    ((read s).run.run m).2 = _
  rw [run, added]
  rfl

/-- A name is loaded as the fields of its only file. -/
theorem load_file (has : HasFile files name lower) (lowerLays : Lays lower es) (text : String) :
    ∃ fs, Overlays [] es [] fs ∧ ∀ m, ∃ o,
      (loadName {} name fun name o =>
        ((ofText text).child ((ofText text).neighbour name)).load files 1 o).run.run m
      = (.ok (.ofFields o fs), m) := by
  let d (s : DocumentSyntax) : Document := (ofText text).child (name ++ s.suffix)
  let o (s : DocumentSyntax) : ParseOptions := { allowMissing := false, syn := some s }
  have depth (s : DocumentSyntax) : (d s).chain.length < maxIncludeDepth := by
    show (0 + 1 : Nat) < 50
    decide
  obtain ⟨c, inConf, -, -, eq⟩ :=
    exists_load_eq (d := d .conf) (o := o .conf) 1 (depth _) rfl rfl has.text
  have items : (itemsOf lower).map Item.kind = (itemsOf lower).map Item.kind ++ [] :=
    (List.append_nil _).symm
  obtain ⟨w, f, kinds, overlays, goes⟩ :=
    lowerLays.follow inConf (fun k hk => by cases hk) items {}
  cases List.map_eq_nil_iff.1 kinds
  refine ⟨f.entries, overlays, fun m => ?_⟩
  have read : FieldsRead c false {} (itemsOf lower) m f.entries [] m :=
    goes false m f.entries [] m (.none rfl .stop)
  obtain ⟨origin, found⟩ := load_of_fieldsRead inConf eq read
  have away (s : DocumentSyntax) (other : s ≠ .conf) : ∃ fault,
      ((d s).load files 1 (o s)).run.run m
        = (.error (.unreadable ((d s).originFor (o s)) (.file fault)), m) := by
    obtain ⟨fault, unreadable⟩ := has.others s other
    refine ⟨fault, ?_⟩
    rw [load, dif_pos (depth s)]
    simp only [show (d s).content files = .error fault from unreadable]
    rfl
  obtain ⟨fault, json⟩ := away .json (by decide)
  obtain ⟨fault', properties⟩ := away .properties (by decide)
  -- the other candidates are passed over
  obtain ⟨result, candidates, holds⟩ : ∃ result : Candidates,
      (loadCandidates (fun s => (d s).load files 1 (o s)) [.conf, .json, .properties] {}).run.run m
        = (.ok result, m) ∧ result.found = some (.ofFields origin f.entries) := by
    rw [run_loadCandidates found rfl, run_loadCandidates json rfl, run_loadCandidates properties rfl]
    exact ⟨_, rfl, rfl⟩
  refine ⟨origin, ?_⟩
  rw [loadName, if_neg (by rw [has.noSyntax]; decide)]
  show (loadCandidates (fun s => (d s).load files 1 (o s)) [.conf, .json, .properties] {} >>=
    fun candidates => (candidates.result name true : Loading Value)).run.run m = _
  rw [run_bind_of_ok candidates, Candidates.result, holds]
  rfl

/-! ### Three ways to the same -/

/-- What comes to the fields `gs` over the fields `es`. -/
structure IsOver (es gs hs : Entries Value) : Prop where
  final : FinalFields hs
  held : held hs = fun key => (held gs key).upon (held es key)

theorem IsOver.same {hs hs' : Entries Value} (h : IsOver es gs hs) (h' : IsOver es gs hs')
    (o o' : Origin) : Same (Value.ofFields o hs) (Value.ofFields o' hs') :=
  same_ofFields h.final h'.final (h.held.trans h'.held.symm) o o'

/-- Merging the trees comes to the same as reading the fields over each other. -/
theorem IsOver.same_withFallback {hs : Entries Value} (h : IsOver es gs hs) (lower : FinalFields es)
    (upper : FinalFields gs) (o o₁ o₂ : Origin) :
    Same (Value.ofFields o hs) ((Value.ofFields o₂ gs).withFallback (Value.ofFields o₁ es)) := by
  have above := final_ofFields upper o₂
  have below := final_ofFields lower o₁
  refine (final_ofFields h.final o).same_of_content_eq (fun _ => .absent) (above.withFallback below) ?_
  rw [content_withFallback above.wellFormed below.wellFormed]
  exact congrArg (Content.fields false) h.held

theorem Stacks.exists_fieldsRead (h : Stacks c es gs s ks) {b : Bool}
    (ends : ∀ w : List Item, w.map Item.kind = ks → Closes b (w.dropWhile Item.isNewline) [])
    (m : List IncludeRecord) : ∃ hs, IsOver es gs hs ∧ FieldsRead c b {} s m hs [] m := by
  obtain ⟨w, f, kinds, final, holds, goes⟩ := h
  exact ⟨f.entries, ⟨final, holds⟩, goes b m f.entries [] m (.none rfl (ends w kinds))⟩

/-- Include statements of the text are answered with files. -/
structure Context.OfText (files : FileTree) (text : String) (c : Context) : Prop where
  inConf : c.InConf
  answers : ∀ name, c.answer { name, isFileName := false, required := false } =
    loadName {} name fun name o =>
      ((ofText text).child ((ofText text).neighbour name)).load files 1 o

/-- A text is parsed as the object of the fields that are read from it. -/
theorem parsed_of_fieldsRead {text : String} {P : Entries Value → Prop}
    (read : ∀ c : Context, c.OfText files text →
      ∃ hs, P hs ∧ FieldsRead c false {} (itemsOf text) [] hs [] []) :
    ∃ o hs, P hs ∧ ((parseText files {} text).run.run []).1 = .ok (.ofFields o hs) := by
  have content : (ofText text).content files = .ok text := rfl
  have depth : (ofText text).chain.length < maxIncludeDepth := Nat.zero_lt_succ _
  obtain ⟨c, inConf, -, answers, eq⟩ := exists_load_eq (o := {}) 1 depth rfl rfl content
  obtain ⟨hs, holds, read⟩ := read c ⟨inConf, answers⟩
  obtain ⟨o, loaded⟩ := load_of_fieldsRead inConf eq read
  exact ⟨o, hs, holds, congrArg Prod.fst loaded⟩

/-- Nothing but the end of the text is left. -/
theorem closes_stop {w : List Item} (kinds : w.map Item.kind = []) :
    Closes false (w.dropWhile Item.isNewline) [] := by
  cases List.map_eq_nil_iff.1 kinds
  exact .stop

/-- A brace on a line of its own is left. -/
theorem closes_brace {w : List Item} (kinds : w.map Item.kind = [.newline, .closeBrace]) :
    Closes true (w.dropWhile Item.isNewline) [] := by
  obtain ⟨line, w, rfl, newline, kinds⟩ := List.map_eq_cons_iff.1 kinds
  obtain ⟨brace, w, rfl, closes, kinds⟩ := List.map_eq_cons_iff.1 kinds
  cases List.map_eq_nil_iff.1 kinds
  rw [List.dropWhile_cons, Item.isNewline, newline, if_pos rfl, List.dropWhile_cons, Item.isNewline,
    closes]
  exact .brace closes []

/-- A text behind a statement that includes the document of a file. -/
theorem Context.OfText.stacks {text : String} (ofText : c.OfText files text)
    (has : HasFile files name lower) (lowerLays : Lays lower es) (upperLays : Lays upper gs)
    (breaks : ∀ k ∈ ks.head?, k = .newline)
    (items : s.map Item.kind = [.bare "include", .bare " ", .value (.string name)]
      ++ .newline :: ((itemsOf upper).map Item.kind ++ ks)) : Stacks c es gs s ks := by
  obtain ⟨fs, overlays, answered⟩ := load_file has lowerLays text
  rw [← ofText.answers] at answered
  exact stacks_include upperLays ofText.inConf breaks items answered overlays

/-- What one of the texts is parsed as, where `lexed` are its items. -/
theorem parsed_of_stacks {text : String} {kinds : List TokenKind}
    (lexed : Lexed false (text.toList ++ []) kinds)
    (stacked : ∀ c : Context, c.OfText files text → ∀ s : List Item, s.map Item.kind = kinds →
      Stacks c es gs s []) :
    ∃ o hs, IsOver es gs hs ∧ ((parseText files {} text).run.run []).1 = .ok (.ofFields o hs) := by
  rw [List.append_nil] at lexed
  refine parsed_of_fieldsRead fun c text => ?_
  exact (stacked c text _ lexed.items).exists_fieldsRead (fun _ => closes_stop) []

/-- A text in braces behind a key is parsed as the object of its fields, put at the key. -/
theorem parsed_inBraces {key text : String} {path : Path} {kinds : List TokenKind}
    {P : Entries Value → Prop} (isKey : IsKey key path)
    (lexed : Lexed false (text.toList ++ ['\n', '\x7d']) kinds)
    (read : ∀ c : Context, c.OfText files (inBraces key text) → ∀ s : List Item,
      s.map Item.kind = kinds → ∃ hs, P hs ∧ FieldsRead c true {} s [] hs [] []) :
    ∃ o o' hs comments, P hs ∧ ((parseText files {} (inBraces key text)).run.run []).1 =
      .ok (.ofFields o [(path.first, nest (withComments (.ofFields o' hs) comments) path.rest)]) := by
  have items := (lexed_inBraces isKey lexed).items
  obtain ⟨o, fs, ⟨hs, o', comments, holds, rfl⟩, parsed⟩ := parsed_of_fieldsRead
    (P := fun fs => ∃ hs o' comments, P hs
      ∧ fs = [(path.first, nest (withComments (.ofFields o' hs) comments) path.rest)])
    fun (c : Context) (text : c.OfText files (inBraces key text)) => by
      have inner (rest : List Item) (kinds' : rest.map Item.kind = .newline :: kinds) :
          ∃ hs, P hs ∧ FieldsRead (c.enter path) true {} rest [] hs [] [] := by
        obtain ⟨t, rest, rfl, newline, kinds'⟩ := List.map_eq_cons_iff.1 kinds'
        have within : (c.enter path).OfText files _ :=
          ⟨⟨text.inConf.syn, text.inConf.stop⟩, text.answers⟩
        obtain ⟨hs, holds, fields⟩ := read (c.enter path) within rest kinds'
        exact ⟨hs, holds, fields.newline newline⟩
      obtain ⟨hs, o', comments, holds, fields⟩ := FieldsRead.block text.inConf isKey.spelled
        isKey.pieces isKey.noInclude items inner
      exact ⟨_, ⟨hs, o', comments, holds, rfl⟩, fields⟩
  exact ⟨o, o', hs, comments, holds, parsed⟩

/-- The same in braces behind a key. -/
theorem parsed_inBraces_of_stacks {key text : String} {path : Path} {kinds : List TokenKind}
    (isKey : IsKey key path) (lexed : Lexed false (text.toList ++ ['\n', '\x7d']) kinds)
    (stacked : ∀ c : Context, c.OfText files (inBraces key text) → ∀ s : List Item,
      s.map Item.kind = kinds → Stacks c es gs s [.newline, .closeBrace]) :
    ∃ o o' hs comments, IsOver es gs hs
      ∧ ((parseText files {} (inBraces key text)).run.run []).1 =
        .ok (.ofFields o [(path.first, nest (withComments (.ofFields o' hs) comments) path.rest)]) := by
  refine parsed_inBraces isKey lexed fun c text s items => ?_
  exact (stacked c text s items).exists_fieldsRead (fun _ => closes_brace) []

/-- **Three ways of putting a document over another one** come to the same: writing it behind the
other, including the other in front of it, and merging their trees.  The first two also come to the
same in braces behind a key. -/
theorem parse_layers {v w : Value} (below : Layer files lower v) (above : Layer files upper w)
    (has : HasFile files name lower) :
    (∃ a b, ((parseText files {} (behind lower upper)).run.run []).1 = .ok a
      ∧ ((parseText files {} (includingFirst name upper)).run.run []).1 = .ok b
      ∧ Same a (w.withFallback v) ∧ Same b (w.withFallback v) ∧ Same a b)
    ∧ ∀ key path, IsKey key path → ∃ a b,
      ((parseText files {} (inBraces key (includingFirst name upper))).run.run []).1 = .ok a
        ∧ ((parseText files {} (inBraces key (behind lower upper))).run.run []).1 = .ok b
        ∧ Same a b := by
  obtain ⟨o₁, es, rfl, lowerLays⟩ := below.lays
  obtain ⟨o₂, gs, rfl, upperLays⟩ := above.lays
  have nothing : ∀ k ∈ ([] : List TokenKind).head?, k = .newline := fun k hk => by cases hk
  have line : ∀ k ∈ [TokenKind.newline, .closeBrace].head?, k = .newline := by
    rintro k ⟨⟩
    rfl
  constructor
  · obtain ⟨o, hs, stacked, parsed⟩ :=
      parsed_of_stacks (lexed_behind lowerLays upperLays.atEnd)
        fun c (text : c.OfText files _) s items =>
          stacks_behind lowerLays upperLays text.inConf nothing items
    obtain ⟨o', hs', stacked', parsed'⟩ :=
      parsed_of_stacks (lexed_includingFirst upperLays.atEnd)
        fun c text s items => text.stacks has lowerLays upperLays nothing items
    exact ⟨_, _, parsed, parsed', stacked.same_withFallback lowerLays.final upperLays.final ..,
      stacked'.same_withFallback lowerLays.final upperLays.final .., stacked.same stacked' ..⟩
  · intro key path isKey
    obtain ⟨o, p, hs, comments, stacked, parsed⟩ :=
      parsed_inBraces_of_stacks isKey (lexed_includingFirst upperLays.beforeBrace)
        fun c text s items => text.stacks has lowerLays upperLays line items
    obtain ⟨o', p', hs', comments', stacked', parsed'⟩ :=
      parsed_inBraces_of_stacks isKey (lexed_behind lowerLays upperLays.beforeBrace)
        fun c (text : c.OfText files _) s items =>
          stacks_behind lowerLays upperLays text.inConf line items
    have inside := (stacked.same stacked' p p').withComments comments comments'
    exact ⟨_, _, parsed, parsed', (inside.nest path.rest).field path.first o o'⟩

theorem exists_layer {text : String} (files : FileTree)
    (parsed : (readAlone text).toOption.any (·.fields?.isSome) = true)
    (braceless : ((itemsOf text).dropWhile Item.isNewline).head?.all
      (!·.kind.opensContainer) = true)
    (plain : (itemsOf text).all (!·.kind.refers) = true) : ∃ v, Layer files text v := by
  obtain ⟨v, parsed, alone⟩ := exists_parsed files parsed
  refine ⟨v, parsed, alone, fun t ht => ?_, fun t ht => ?_⟩
  · simpa [show _ = some t from ht] using braceless
  · simpa using List.all_eq_true.1 plain t ht

/-- A number hides an object, and an object over it is put together with nothing below. -/
theorem parse_layers_example :
    let lower := "a = \x7b b = 1 \x7d, c = 2 # below"
    let upper := "a = 3, a.d = 4"
    let files := FileTree.ofNames [("d1.conf", .text lower)]
    ∃ v w, Layer files lower v ∧ Layer files upper w ∧ HasFile files "d1" lower
      ∧ IsKey "k.\"l\"" ⟨"k", ["l"]⟩
      ∧ (∃ a b, ((parseText files {} (behind lower upper)).run.run []).1 = .ok a
        ∧ ((parseText files {} (includingFirst "d1" upper)).run.run []).1 = .ok b
        ∧ Same a (w.withFallback v) ∧ Same b (w.withFallback v) ∧ Same a b)
      ∧ ∃ a b,
        ((parseText files {} (inBraces "k.\"l\"" (includingFirst "d1" upper))).run.run []).1 = .ok a
          ∧ ((parseText files {} (inBraces "k.\"l\"" (behind lower upper))).run.run []).1 = .ok b
          ∧ Same a b := by
  intro lower upper files
  obtain ⟨v, below⟩ : ∃ v, Layer files lower v :=
    exists_layer files (by decide +kernel) (by decide +kernel) (by decide +kernel)
  obtain ⟨w, above⟩ : ∃ w, Layer files upper w :=
    exists_layer files (by decide +kernel) (by decide +kernel) (by decide +kernel)
  have has : HasFile files "d1" lower :=
    ⟨by decide +kernel, by decide +kernel, fun s other =>
      ⟨.notFound, by cases s <;> first | exact absurd rfl other | decide +kernel⟩⟩
  have isKey : IsKey "k.\"l\"" ⟨"k", ["l"]⟩ := ⟨by decide +kernel, by decide +kernel⟩
  obtain ⟨layered, enclosed⟩ := parse_layers below above has
  exact ⟨v, w, below, above, has, isKey, layered, enclosed _ _ isKey⟩

end Document

end Hocon
