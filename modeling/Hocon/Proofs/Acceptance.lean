import Hocon.Proofs.Following
import Hocon.Proofs.JsonWriting
import Hocon.Proofs.Superset

/-!
# JSON is read

However a JSON value is written, the JSON reader takes the text and gives the tree of the value.
The proof follows the grammar of `JsonValue.Writes`: for each way to write a value, a field or a
row of them it tells which tokens the text falls into, and what is read from items of these kinds
(`ReadsValue`, `ReadsItems`, `ReadsFields`).  Line ends may stand between any two tokens, and the
reader skips them wherever it looks at the next one.
-/

namespace Hocon

open JsonValue

/-! ### Trees of JSON values -/

mutual

/-- `v.Depicts j` tells that `v` is the tree of the JSON value `j`: strings are quoted, objects
take fallbacks and hold their fields in order, and numbers keep their literals. -/
inductive Value.Depicts : Value → JsonValue → Prop
  | null (p : Provenance) : Depicts (.null p) .null
  | bool (p : Provenance) (b : Bool) : Depicts (.bool p b) (.bool b)
  | whole (p : Provenance) {n : Int64} {text : List Char} (plain : hasPlaces text = false)
      (value : n.toInt = integer text) :
      Depicts (.number p (.whole n) (some (String.ofList text))) (.number text)
  | double (p : Provenance) {d : Double} {text : List Char} (places : hasPlaces text = true)
      (value : Double.ofText? text = some d) :
      Depicts (.number p (.double d) (some (String.ofList text))) (.number text)
  | string (p : Provenance) (s : String) : Depicts (.string p s true) (.string s)
  | array (p : Provenance) {vs : List Value} {js : List JsonValue} (items : DepictItems vs js) :
      Depicts (.list p vs) (.array js)
  | object (p : Provenance) {fs : Entries Value} {gs : List (String × JsonValue)}
      (fields : DepictFields fs gs) : Depicts (.object p false fs) (.object gs)

/-- Trees of JSON values one by one. -/
inductive Value.DepictItems : List Value → List JsonValue → Prop
  | nil : DepictItems [] []
  | cons {v : Value} {j : JsonValue} {vs : List Value} {js : List JsonValue} (head : Depicts v j)
      (tail : DepictItems vs js) : DepictItems (v :: vs) (j :: js)

/-- Fields with trees of JSON values, one by one and under the same keys. -/
inductive Value.DepictFields : Entries Value → List (String × JsonValue) → Prop
  | nil : DepictFields [] []
  | cons (k : String) {v : Value} {j : JsonValue} {fs : Entries Value}
      {gs : List (String × JsonValue)} (head : Depicts v j) (tail : DepictFields fs gs) :
      DepictFields ((k, v) :: fs) ((k, j) :: gs)

end

/-- A JSON value of which no object has a key twice, and whose numbers all fit. -/
inductive JsonValue.Plain : JsonValue → Prop
  | null : Plain .null
  | bool (b : Bool) : Plain (.bool b)
  | number {text : List Char} (fits : Fits text) : Plain (.number text)
  | string (s : String) : Plain (.string s)
  | array {js : List JsonValue} (items : ∀ j ∈ js, Plain j) : Plain (.array js)
  | object {fs : List (String × JsonValue)} (keys : (fs.map Prod.fst).Nodup)
      (fields : ∀ f ∈ fs, Plain f.2) : Plain (.object fs)

theorem Value.Depicts.withComments {v : Value} {j : JsonValue} (h : v.Depicts j)
    (comments : List String) : (Document.withComments v comments).Depicts j := by
  unfold Document.withComments
  split
  · exact h
  · cases h with
    | null => exact .null _
    | bool => exact .bool _ _
    | whole _ plain value => exact .whole _ plain value
    | double _ places value => exact .double _ places value
    | string => exact .string _ _
    | array _ items => exact .array _ items
    | object _ fields => exact .object _ fields

namespace Document

open Value (DepictItems DepictFields)

variable {c : Context}

/-! ### Moving on in JSON -/

/-- The front item is one that JSON has, and no line end. -/
abbrev Solid (s : List Item) : Prop :=
  ∀ t ∈ s.head?, t.kind.isStrict = true ∧ t.isNewline = false

/-- JSON skips line ends up to the item behind them. -/
theorem skipNewlines_json (hc : c.Strict) {nls s : List Item} (hn : LineEnds nls) (hs : Solid s) :
    ∃ le, skipNewlines c (nls ++ s) = pure ⟨s, le⟩ := by
  have drop : (nls ++ s).dropWhile Item.isNewline = s := by
    rw [List.dropWhile_append_of_pos hn]
    cases s with
    | nil => rfl
    | cons t s => rw [List.dropWhile_cons, (hs t rfl).2]; rfl
  have strict : (c.front s).kind.isStrict = true := by
    cases s with
    | nil => rw [Context.front, List.headD_nil, hc.stop]; rfl
    | cons t s => exact (hs t rfl).1
  have passes : checkFront c s = pure () := by
    have none : c.refusal? (c.front s) = none := by
      unfold Context.refusal?
      rw [hc.syn]
      cases hk : (c.front s).kind <;> rw [hk] at strict <;> first | rfl | cases strict
    rw [checkFront, none]
  refine ⟨by rw [List.length_append]; omega, ?_⟩
  unfold skipNewlines
  simp only [drop, passes, pure_bind]

/-- Nothing is left behind line ends. -/
theorem skipNewlines_json_end (hc : c.Strict) {nls : List Item} (hn : LineEnds nls) :
    ∃ le, skipNewlines c nls = pure ⟨[], le⟩ := by
  have skip := skipNewlines_json hc (s := []) hn nofun
  rwa [List.append_nil] at skip

theorem readJoined_lineEnds (hc : c.Strict) {nls s : List Item} (hn : LineEnds nls) (hs : Solid s)
    (comments : List String) :
    ∃ le, readJoined c comments (nls ++ s) = pure (none, ⟨s, le⟩) := by
  obtain ⟨le, skip⟩ := skipNewlines_json hc hn hs
  refine ⟨le, ?_⟩
  rw [readJoined_json hc, skip]
  rfl

theorem solid_of_kind {t : Item} (strict : t.kind.isStrict = true) (line : t.kind ≠ .newline)
    (s : List Item) : Solid (t :: s) := by
  intro u hu
  cases hu
  refine ⟨strict, ?_⟩
  unfold Item.isNewline
  split
  · next kind => exact absurd kind line
  · rfl

theorem solid_of_opensValue {t : Item} (opens : t.kind.opensValue = true) (s : List Item) :
    Solid (t :: s) := by
  refine solid_of_kind ?_ ?_ s
  · cases hk : t.kind <;> rw [hk] at opens <;> first | rfl | cases opens
  · intro line
    rw [line] at opens
    cases opens

/-- A comma with line ends in front of it is a separator. -/
theorem readSeparator_json_comma (hc : c.Strict) {nls : List Item} {t : Item}
    (hn : LineEnds nls) (rest : List Item) (ht : t.kind = .comma) :
    ∃ lt, readSeparator c (nls ++ t :: rest) = pure (.found ⟨rest, lt⟩) := by
  obtain ⟨le, skip⟩ :=
    skipNewlines_json hc hn (solid_of_kind (by rw [ht]; rfl) (by rw [ht]; nofun) rest)
  refine ⟨le, ?_⟩
  unfold readSeparator
  simp only [skip, pure_bind, ht]

/-- The end of a list or an object is none. -/
theorem readSeparator_json_missing (hc : c.Strict) {nls : List Item} {t : Item}
    (hn : LineEnds nls) (rest : List Item) (ht : t.kind = .closeBracket ∨ t.kind = .closeBrace) :
    ∃ le, readSeparator c (nls ++ t :: rest) = pure (.missing ⟨t :: rest, le⟩) := by
  have solid : Solid (t :: rest) := by
    obtain ht | ht := ht <;> exact solid_of_kind (by rw [ht]; rfl) (by rw [ht]; nofun) rest
  obtain ⟨le, skip⟩ := skipNewlines_json hc hn solid
  refine ⟨le, ?_⟩
  unfold readSeparator
  simp only [skip, pure_bind, hc.syn, ne_eq, not_true, false_and, dif_neg, not_false_eq_true]
  obtain ht | ht := ht <;> simp only [ht]

/-! ### Texts that are read -/

/-- What may stand behind a value: white space, a comma, a colon or a closing sign. -/
abbrev Ends (rest : List Char) : Prop :=
  ∀ c ∈ rest.head?, isSpace c = true ∨ c ∈ [',', ':', ']', '\x7d']

theorem Ends.not {rest : List Char} (ends : Ends rest) {p : Char → Bool}
    (apart : [' ', '\t', '\n', '\r', ',', ':', ']', '\x7d'].any p = false) :
    ∀ c ∈ rest.head?, p c = false := by
  intro c hc
  have listed : c ∈ [' ', '\t', '\n', '\r', ',', ':', ']', '\x7d'] := by
    have := ends c hc
    simp only [isSpace, Bool.or_eq_true, beq_iff_eq, List.mem_cons, List.not_mem_nil, or_false]
      at this ⊢
    tauto
  exact Bool.eq_false_iff.2 (List.any_eq_false.1 apart c listed)

theorem Ends.noQuote {rest : List Char} (ends : Ends rest) : rest.head? ≠ some '"' := fun h =>
  Bool.noConfusion (Ends.not ends (p := (· == '"')) (by decide) '"' h)

theorem ends_space {ws rest : List Char} (space : ws.all isSpace = true) (ends : Ends rest) :
    Ends (ws ++ rest) := by
  cases ws with
  | nil => exact ends
  | cons c ws =>
    intro d hd
    cases hd
    exact .inl ((Bool.and_eq_true _ _).mp (List.all_cons ▸ space)).1

theorem ends_sign {c : Char} (h : c ∈ [',', ':', ']', '\x7d']) (rest : List Char) :
    Ends (c :: rest) := by
  intro d hd
  cases hd
  exact .inr h

/-- A text falls into a token of this kind and tokens of these kinds, and from items of these
kinds the value is read. -/
structure ReadsValue (j : JsonValue) (text : List Char) (kind : TokenKind) (kinds : List TokenKind)
    (after : Bool) : Prop where
  opens : kind.opensValue = true
  passes : ∀ {rest}, Ends rest → Passes false false (text ++ rest) (kind :: kinds) after rest
  reads : ∀ {c : Context}, c.Strict → ∀ {t : Item} {s : List Item}, t.kind = kind →
    s.map Item.kind = kinds → ∀ comments r,
      ∃ w le, readValue c t comments (s ++ r) = pure (w, ⟨r, le⟩) ∧ w.Depicts j

/-- A text, in front of a closing bracket, from which the items of a list are read, at the front
of the list as well as behind a separator. -/
structure ReadsItems (js : List JsonValue) (text : List Char) (kinds : List TokenKind) : Prop where
  passes : ∀ {rest}, Passes false false (text ++ ']' :: rest) (kinds ++ [.closeBracket]) false rest
  reads : ∀ {c : Context}, c.Strict → ∀ {s : List Item} {t : Item}, s.map Item.kind = kinds →
    t.kind = .closeBracket → ∀ r,
      (∃ ws le, readList c (s ++ t :: r) = pure (ws, ⟨r, le⟩) ∧ DepictItems ws js) ∧
      ∀ s' lt, readSeparator c s' = pure (.found ⟨s ++ t :: r, lt⟩) →
        ∃ ws le, readItems c s' = pure (ws, ⟨r, le⟩) ∧ DepictItems ws js

/-- A text with `m` line ends at its front and `n` at its back, from which a field is read. -/
structure ReadsField (f : String × JsonValue) (text : List Char) (m : Nat)
    (kinds : List TokenKind) (n : Nat) : Prop where
  passes : ∀ {rest c kind}, Scan.punctuation? c = some kind → c ∈ [',', '\x7d'] →
    Passes false false (text ++ c :: rest)
      (newlines m ++ .value (.string f.1) :: (kinds ++ (newlines n ++ [kind]))) false rest
  reads : ∀ {c : Context}, c.Strict → ∀ {fields : Fields} {t : Item} {s : List Item},
    t.kind = .value (.string f.1) → s.map Item.kind = kinds →
    f.1 ∉ Entries.keys fields.entries → ∀ r, ∃ g w le,
      readField c fields t (s ++ r) = pure (g, ⟨r, le⟩)
        ∧ g.entries = fields.entries ++ [(f.1, w)] ∧ w.Depicts f.2

/-- A text, in front of a closing brace, from which fields are read. -/
structure ReadsFields (gs : List (String × JsonValue)) (text : List Char)
    (kinds : List TokenKind) : Prop where
  passes : ∀ {rest},
    Passes false false (text ++ '\x7d' :: rest) (kinds ++ [.closeBrace]) false rest
  reads : ∀ {c : Context}, c.Strict → ∀ {f : Fields} {s : List Item} {t : Item},
    s.map Item.kind = kinds → t.kind = .closeBrace →
    (Entries.keys f.entries ++ gs.map Prod.fst).Nodup → ∀ r, ∃ fs le,
      readFields c true f (s ++ t :: r) = pure (f.entries ++ fs, ⟨r, le⟩) ∧ DepictFields fs gs

/-! ### Scalars -/

theorem readsValue_literal {j : JsonValue} {text : List Char} {literal : Literal}
    (depicts : ∀ o, (literalValue o literal).Depicts j)
    (passes : ∀ {rest}, Ends rest → Passes false false (text ++ rest) [.value literal] true rest) :
    ReadsValue j text (.value literal) [] true where
  opens := rfl
  passes := passes
  reads {c} hc t s ht hs comments r := by
    cases List.map_eq_nil_iff.1 hs
    refine ⟨_, Nat.le_refl _, ?_,
      (depicts (c.originAt t.line)).withComments (comments ++ t.comments)⟩
    rw [readValue]
    simp only [ht]
    rfl

theorem readsValue_keyword {j : JsonValue} {literal : Literal} {word : List Char}
    (h : (literal, word) ∈ [(Literal.null, "null".toList), (.bool true, "true".toList),
      (.bool false, "false".toList)]) (depicts : ∀ o, (literalValue o literal).Depicts j) :
    ReadsValue j word (.value literal) [] true := by
  obtain ⟨first, cs, rfl, solid, flat⟩ : ∃ first cs, word = first :: cs
      ∧ Cursor.isGap first = false ∧ first ≠ '$' := by
    simp only [List.mem_cons, List.not_mem_nil, or_false, Prod.mk.injEq] at h
    obtain ⟨-, rfl⟩ | ⟨-, rfl⟩ | ⟨-, rfl⟩ := h <;> exact ⟨_, _, rfl, by decide, by decide⟩
  exact readsValue_literal depicts fun _ => .front solid flat (Scan.scanFlat_keyword h _)

theorem readsValue_number {text : List Char} (h : IsNumber text) (fits : Fits text) :
    ∃ literal, ReadsValue (.number text) text (.value literal) [] true := by
  obtain ⟨literal, value, holds⟩ := h.exists_literal fits
  refine ⟨literal, readsValue_literal (fun o => ?_) fun ends => ?_⟩
  · cases holds with
    | whole plain same => exact .whole _ plain same
    | double places same => exact .double _ places same
  · exact passes_number h value (Ends.not ends (by decide))

theorem readsValue_string {s : String} {text : List Char} (h : WritesString s text) :
    ReadsValue (.string s) text (.value (.string s)) [] true :=
  readsValue_literal (fun _ => .string _ s) fun ends => passes_string h ends.noQuote

/-! ### Lists -/

theorem readsValue_emptyArray {ws : List Char} (space : ws.all isSpace = true) :
    ReadsValue (.array []) ('[' :: (ws ++ [']'])) .openBracket
      (newlines (ws.count '\n') ++ [.closeBracket]) false where
  opens := rfl
  passes {rest} _ := by
    rw [List.cons_append, List.append_assoc]
    exact (Passes.sign rfl).trans (passes_sign space rfl rfl)
  reads {c} hc t s ht hs comments r := by
    obtain ⟨nls, s, rfl, hn, hs⟩ := List.map_eq_append_iff.1 hs
    obtain ⟨u, s, rfl, hu, hs⟩ := List.map_eq_cons_iff.1 hs
    cases List.map_eq_nil_iff.1 hs
    have solid : Solid (u :: r) := solid_of_kind (by rw [hu]; rfl) (by rw [hu]; nofun) r
    obtain ⟨le, joined⟩ := readJoined_lineEnds hc (lineEnds_of_kinds hn) solid []
    obtain ⟨le', skip⟩ := skipNewlines_json hc lineEnds_nil solid
    have skip : skipNewlines c (u :: r) = pure ⟨u :: r, le'⟩ := skip
    have list : ∃ le, readList c (nls ++ u :: r) = pure ([], ⟨r, le⟩) := by
      refine ⟨Nat.le_of_succ_le le, ?_⟩
      rw [readList, joined]
      simp only [pure_bind, skip, hu]
    obtain ⟨le, list⟩ := list
    rw [List.append_assoc]
    refine ⟨_, le, ?_, (Value.Depicts.array { origin := c.originAt t.line } .nil).withComments
      (comments ++ t.comments)⟩
    rw [readValue]
    simp only [ht, List.singleton_append, list, pure_bind]
    rfl

theorem readsValue_array {js : List JsonValue} {text : List Char} {kinds : List TokenKind}
    (items : ReadsItems js text kinds) :
    ReadsValue (.array js) ('[' :: (text ++ [']'])) .openBracket (kinds ++ [.closeBracket])
      false where
  opens := rfl
  passes {rest} _ := by
    rw [List.cons_append, List.append_assoc]
    exact (Passes.sign rfl).trans items.passes
  reads {c} hc t s ht hs comments r := by
    obtain ⟨row, s', rfl, hrow, hs'⟩ := List.map_eq_append_iff.1 hs
    obtain ⟨u, s', rfl, hu, hs'⟩ := List.map_eq_cons_iff.1 hs'
    cases List.map_eq_nil_iff.1 hs'
    obtain ⟨⟨ws, le, list, depicts⟩, -⟩ := items.reads hc hrow hu r
    rw [List.append_assoc]
    refine ⟨_, le, ?_, (Value.Depicts.array { origin := c.originAt t.line } depicts).withComments
      (comments ++ t.comments)⟩
    rw [readValue]
    simp only [ht, List.singleton_append, list, pure_bind]
    rfl

/-- An item in front of items that are read, at the front of a list and behind a separator. -/
theorem readItems_value (hc : c.Strict) {j : JsonValue} {js : List JsonValue} {text : List Char}
    {kind : TokenKind} {kinds : List TokenKind} {after : Bool}
    (value : ReadsValue j text kind kinds after) {nls s rest r : List Item} {t : Item}
    {ws : List Value} {le : r.length ≤ rest.length} (hn : LineEnds nls) (ht : t.kind = kind)
    (hs : s.map Item.kind = kinds) (items : readItems c rest = pure (ws, ⟨r, le⟩))
    (depicts : DepictItems ws js) :
    (∃ ws le, readList c (nls ++ t :: (s ++ rest)) = pure (ws, ⟨r, le⟩)
        ∧ DepictItems ws (j :: js)) ∧
      ∀ s' lt, readSeparator c s' = pure (.found ⟨nls ++ t :: (s ++ rest), lt⟩) →
        ∃ ws le, readItems c s' = pure (ws, ⟨r, le⟩) ∧ DepictItems ws (j :: js) := by
  have opens : t.kind.opensValue = true := ht ▸ value.opens
  have solid : Solid (t :: (s ++ rest)) := solid_of_opensValue opens _
  obtain ⟨le₁, joined⟩ := readJoined_lineEnds hc hn solid []
  obtain ⟨le₂, skip⟩ := skipNewlines_json hc lineEnds_nil solid
  have skip : skipNewlines c (t :: (s ++ rest)) = pure ⟨t :: (s ++ rest), le₂⟩ := skip
  obtain ⟨w, le₃, read, depict⟩ := value.reads hc ht hs [] rest
  have starts : t.opensValue = true := by
    obtain ⟨kind, span, line, comments⟩ := t
    cases kind <;> first | rfl | cases opens
  refine ⟨⟨w :: ws, ?_, ?_, .cons depict depicts⟩,
    fun s' lt found => ⟨w :: ws, ?_, ?_, .cons depict depicts⟩⟩
  · simp only [List.length_append, List.length_cons]
    omega
  · rw [readList, joined]
    simp only [pure_bind, skip, starts, if_true, read, items]
    cases closes : t.kind with
    | closeBracket =>
      rw [closes] at opens
      cases opens
    | _ => rfl
  · simp only [List.length_append, List.length_cons] at lt
    omega
  · rw [readItems, found]
    simp only [pure_bind, joined, skip, starts, if_true, read, items]

theorem readsItems_last {j : JsonValue} {text before after : List Char} {kind : TokenKind}
    {kinds : List TokenKind} {flag : Bool} (space : before.all isSpace = true)
    (value : ReadsValue j text kind kinds flag) (space' : after.all isSpace = true) :
    ReadsItems [j] (before ++ (text ++ after))
      (newlines (before.count '\n') ++ kind :: (kinds ++ newlines (after.count '\n'))) where
  passes {rest} := by
    have ends : Ends (after ++ ']' :: rest) := ends_space space' (ends_sign (by decide) rest)
    have behind := (value.passes ends).trans (passes_sign space' rfl rfl)
    rw [List.cons_append] at behind
    have whole := passes_space space behind nofun
    simpa only [List.append_assoc, List.cons_append] using whole
  reads {c} hc s t hs ht r := by
    obtain ⟨nls, s, rfl, hn, hs⟩ := List.map_eq_append_iff.1 hs
    obtain ⟨u, s, rfl, hu, hs⟩ := List.map_eq_cons_iff.1 hs
    obtain ⟨s, nls', rfl, hs, hn'⟩ := List.map_eq_append_iff.1 hs
    obtain ⟨le, missing⟩ := readSeparator_json_missing hc (lineEnds_of_kinds hn') r (.inl ht)
    have last : ∃ le, readItems c (nls' ++ t :: r) = pure ([], ⟨r, le⟩) := by
      refine ⟨Nat.le_of_succ_le le, ?_⟩
      rw [readItems, missing]
      simp only [pure_bind, ht]
    obtain ⟨le, last⟩ := last
    have assoc : nls ++ u :: (s ++ nls') ++ t :: r = nls ++ u :: (s ++ (nls' ++ t :: r)) := by
      simp only [List.append_assoc, List.cons_append]
    rw [assoc]
    exact readItems_value hc value (lineEnds_of_kinds hn) hu hs last .nil

theorem readsItems_cons {j : JsonValue} {js : List JsonValue} {text before after more : List Char}
    {kind : TokenKind} {kinds kinds' : List TokenKind} {flag : Bool}
    (space : before.all isSpace = true) (value : ReadsValue j text kind kinds flag)
    (space' : after.all isSpace = true) (items : ReadsItems js more kinds') :
    ReadsItems (j :: js) (before ++ (text ++ (after ++ ',' :: more)))
      (newlines (before.count '\n') ++ kind :: (kinds ++ (newlines (after.count '\n')
        ++ .comma :: kinds'))) where
  passes {rest} := by
    have ends : Ends (after ++ ',' :: (more ++ ']' :: rest)) :=
      ends_space space' (ends_sign (by decide) _)
    have behind := ((value.passes ends).trans (passes_sign space' rfl rfl)).trans items.passes
    rw [List.cons_append, List.cons_append] at behind
    have whole := passes_space space behind nofun
    simpa only [List.append_assoc, List.cons_append, List.nil_append] using whole
  reads {c} hc s t hs ht r := by
    obtain ⟨nls, s, rfl, hn, hs⟩ := List.map_eq_append_iff.1 hs
    obtain ⟨u, s, rfl, hu, hs⟩ := List.map_eq_cons_iff.1 hs
    obtain ⟨p, s, rfl, hp, hs⟩ := List.map_eq_append_iff.1 hs
    obtain ⟨nls', s, rfl, hn', hs⟩ := List.map_eq_append_iff.1 hs
    obtain ⟨comma, s, rfl, hcomma, hs⟩ := List.map_eq_cons_iff.1 hs
    obtain ⟨lt, found⟩ := readSeparator_json_comma hc (lineEnds_of_kinds hn') (s ++ t :: r) hcomma
    obtain ⟨ws, le, read, depicts⟩ := (items.reads hc hs ht r).2 _ lt found
    have assoc : nls ++ u :: (p ++ (nls' ++ comma :: s)) ++ t :: r
        = nls ++ u :: (p ++ (nls' ++ comma :: (s ++ t :: r))) := by
      simp only [List.append_assoc, List.cons_append]
    rw [assoc]
    exact readItems_value hc value (lineEnds_of_kinds hn) hu hp read depicts

/-! ### Fields -/

/-- A key is a string, taken as it is. -/
theorem readKey_json (hc : c.Strict) {k : String} {t : Item} (ht : t.kind = .value (.string k))
    (s : List Item) : readKey c t s = pure (.ofKey k, ⟨s, Nat.le_refl _⟩) := by
  unfold readKey
  rw [if_pos hc.syn, ht]

theorem readFieldValue_json (hc : c.Strict) {j : JsonValue} {text : List Char} {kind : TokenKind}
    {kinds : List TokenKind} {flag : Bool} (value : ReadsValue j text kind kinds flag)
    {nls s : List Item} {t : Item} (hn : LineEnds nls) (ht : t.kind = kind)
    (hs : s.map Item.kind = kinds) (comments : List String) (r : List Item) :
    ∃ w le, readFieldValue c comments (nls ++ t :: (s ++ r)) = pure (w, ⟨r, le⟩) ∧ w.Depicts j := by
  have solid : Solid (t :: (s ++ r)) := solid_of_opensValue (ht ▸ value.opens) _
  obtain ⟨le, joined⟩ := readJoined_lineEnds hc hn solid comments
  obtain ⟨le', skip⟩ := skipNewlines_json hc lineEnds_nil solid
  have skip : skipNewlines c (t :: (s ++ r)) = pure ⟨t :: (s ++ r), le'⟩ := skip
  obtain ⟨w, le'', read, depicts⟩ := value.reads hc ht hs comments r
  refine ⟨w, Nat.le_trans le'' (Nat.le_of_succ_le le), ?_, depicts⟩
  rw [readFieldValue, joined]
  simp only [pure_bind, skip, read]

theorem readsField {k : String} {j : JsonValue}
    {before key beforeColon afterColon text after : List Char} {kind : TokenKind}
    {kinds : List TokenKind} {flag : Bool} (space : before.all isSpace = true)
    (hkey : WritesString k key) (spaceColon : beforeColon.all isSpace = true)
    (spaceValue : afterColon.all isSpace = true) (value : ReadsValue j text kind kinds flag)
    (spaceEnd : after.all isSpace = true) :
    ReadsField (k, j) (before ++ (key ++ (beforeColon ++ ':' :: (afterColon ++ (text ++ after)))))
      (before.count '\n') (newlines (beforeColon.count '\n') ++ .colon ::
        (newlines (afterColon.count '\n') ++ kind :: kinds)) (after.count '\n') where
  passes {rest c sign} h hc := by
    have facts : sign.isSimpleValue = false ∧ c ∈ [',', ':', ']', '\x7d'] := by
      simp only [List.mem_cons, List.not_mem_nil, or_false] at hc
      obtain rfl | rfl := hc <;> cases h <;> decide
    have ends : Ends (after ++ c :: rest) := ends_space spaceEnd (ends_sign facts.2 rest)
    have behind := (value.passes ends).trans (passes_sign spaceEnd h facts.1)
    rw [List.cons_append] at behind
    have colon {cs : List Char} : Passes false true (beforeColon ++ ':' :: cs) _ false cs :=
      passes_sign spaceColon rfl rfl
    have ends' (cs : List Char) : Ends (beforeColon ++ ':' :: cs) :=
      ends_space spaceColon (ends_sign (by decide) cs)
    have front {cs : List Char} (ends : Ends cs) : Passes false false (key ++ cs) _ true cs :=
      passes_string hkey ends.noQuote
    have member := ((front (ends' _)).trans colon).trans (passes_space spaceValue behind nofun)
    rw [List.append_assoc, List.singleton_append] at member
    have whole := passes_space space member nofun
    simpa only [List.append_assoc, List.cons_append, List.nil_append] using whole
  reads {c} hc f t s ht hs fresh r := by
    obtain ⟨nls, s, rfl, hn, hs⟩ := List.map_eq_append_iff.1 hs
    obtain ⟨u, s, rfl, hu, hs⟩ := List.map_eq_cons_iff.1 hs
    obtain ⟨nls', s, rfl, hn', hs⟩ := List.map_eq_append_iff.1 hs
    obtain ⟨t', s, rfl, ht', hs⟩ := List.map_eq_cons_iff.1 hs
    obtain ⟨w, le, fieldValue, depicts⟩ := readFieldValue_json
      (c := { c.enter (.ofKey k) with afterEquals := c.afterEquals || false })
      ⟨hc.syn, hc.stop⟩ value (lineEnds_of_kinds hn') ht' hs (t.comments ++ u.comments) r
    have solid : Solid (u :: (nls' ++ t' :: (s ++ r))) :=
      solid_of_kind (by rw [hu]; rfl) (by rw [hu]; nofun) _
    obtain ⟨le', skip⟩ := skipNewlines_json hc (lineEnds_of_kinds hn) solid
    have assoc : nls ++ u :: (nls' ++ t' :: s) ++ r = nls ++ u :: (nls' ++ t' :: (s ++ r)) := by
      simp only [List.append_assoc, List.cons_append]
    rw [assoc]
    refine ⟨{ f with
      entries := f.entries ++ [(k, w)], lastKey := some (.ofKey k), lastAfterEquals := false },
      w, Nat.le_trans le (Nat.le_of_succ_le le'), ?_, rfl, depicts⟩
    rw [readField, readKey_json hc ht]
    simp only [pure_bind, skip, hu, hc.syn, isKeySeparator, if_true, TokenKind.isPlusEquals,
      TokenKind.isEquals, fieldValue, putField_fresh fresh]
    rfl

/-! ### Objects -/

/-- Fields are read up to a brace or a separator behind the first of them. -/
theorem readFields_json (hc : c.Strict) {k : String} {f g : Fields} {nls s q : List Item} {t : Item}
    {le : q.length ≤ s.length} (hn : LineEnds nls) (ht : t.kind = .value (.string k))
    (field : readField c f t s = pure (g, ⟨q, le⟩)) :
    (∀ {nls' r u}, q = nls' ++ u :: r → LineEnds nls' → u.kind = .closeBrace →
      ∃ le', readFields c true f (nls ++ t :: s) = pure (g.entries, ⟨r, le'⟩)) ∧
    ∀ {p r fs} {lt : p.length < q.length} {le' : r.length ≤ p.length},
      readSeparator c q = pure (.found ⟨p, lt⟩) →
      readFields c true { g with afterSeparator := true } p = pure (fs, ⟨r, le'⟩) →
      ∃ le'', readFields c true f (nls ++ t :: s) = pure (fs, ⟨r, le''⟩) := by
  have solid : Solid (t :: s) := solid_of_kind (by rw [ht]; rfl) (by rw [ht]; nofun) s
  obtain ⟨le₁, skip⟩ := skipNewlines_json hc hn solid
  have noInclude : (TokenKind.value (.string k)).isInclude = false := rfl
  refine ⟨?_, ?_⟩
  · rintro nls' r u rfl hn' hu
    obtain ⟨le₂, missing⟩ := readSeparator_json_missing hc hn' r (.inr hu)
    have le' : r.length ≤ (nls ++ t :: s).length := by
      simp only [List.length_append, List.length_cons] at le ⊢
      omega
    refine ⟨le', ?_⟩
    rw [readFields]
    simp only [skip, pure_bind, ht, noInclude, Bool.false_and, Bool.false_eq_true, if_false, field,
      missing, hu, if_true]
  · intro p r fs lt le' found more
    have le'' : r.length ≤ (nls ++ t :: s).length := by
      simp only [List.length_append, List.length_cons]
      omega
    refine ⟨le'', ?_⟩
    rw [readFields]
    simp only [skip, pure_bind, ht, noInclude, Bool.false_and, Bool.false_eq_true, if_false, field,
      found, more]

theorem readsFields_last {f : String × JsonValue} {text : List Char} {m n : Nat}
    {kinds : List TokenKind} (field : ReadsField f text m kinds n) :
    ReadsFields [f] text (newlines m ++ .value (.string f.1) :: (kinds ++ newlines n)) where
  passes {rest} := by
    have whole : Passes false false (text ++ '\x7d' :: rest) _ false rest :=
      field.passes rfl (by decide)
    simpa only [List.append_assoc, List.cons_append] using whole
  reads {c} hc fields s t hs ht nodup r := by
    obtain ⟨nls, s, rfl, hn, hs⟩ := List.map_eq_append_iff.1 hs
    obtain ⟨u, s, rfl, hu, hs⟩ := List.map_eq_cons_iff.1 hs
    obtain ⟨s, nls', rfl, hs, hn'⟩ := List.map_eq_append_iff.1 hs
    have fresh : f.1 ∉ Entries.keys fields.entries := fun hk =>
      (List.nodup_append.1 nodup).2.2 f.1 hk f.1 List.mem_cons_self rfl
    obtain ⟨g, w, le, read, entries, depicts⟩ := field.reads hc hu hs fresh (nls' ++ t :: r)
    obtain ⟨le', all⟩ := (readFields_json hc (lineEnds_of_kinds hn) hu read).1 rfl
      (lineEnds_of_kinds hn') ht
    have assoc : nls ++ u :: (s ++ nls') ++ t :: r = nls ++ u :: (s ++ (nls' ++ t :: r)) := by
      simp only [List.append_assoc, List.cons_append]
    rw [assoc]
    exact ⟨[(f.1, w)], le', entries ▸ all, .cons f.1 depicts .nil⟩

theorem readsFields_cons {f : String × JsonValue} {gs : List (String × JsonValue)}
    {text more : List Char} {m n : Nat} {kinds kinds' : List TokenKind}
    (field : ReadsField f text m kinds n) (fields : ReadsFields gs more kinds') :
    ReadsFields (f :: gs) (text ++ ',' :: more)
      (newlines m ++ .value (.string f.1) :: (kinds ++ (newlines n ++ .comma :: kinds'))) where
  passes {rest} := by
    have first {cs : List Char} : Passes false false (text ++ ',' :: cs) _ false cs :=
      field.passes rfl (by decide)
    have others : Passes false false (more ++ '\x7d' :: rest) _ false rest := fields.passes
    have whole := first.trans others
    simpa only [List.append_assoc, List.cons_append, List.nil_append] using whole
  reads {c} hc before s t hs ht nodup r := by
    obtain ⟨nls, s, rfl, hn, hs⟩ := List.map_eq_append_iff.1 hs
    obtain ⟨u, s, rfl, hu, hs⟩ := List.map_eq_cons_iff.1 hs
    obtain ⟨p, s, rfl, hp, hs⟩ := List.map_eq_append_iff.1 hs
    obtain ⟨nls', s, rfl, hn', hs⟩ := List.map_eq_append_iff.1 hs
    obtain ⟨comma, s, rfl, hcomma, hs⟩ := List.map_eq_cons_iff.1 hs
    have fresh : f.1 ∉ Entries.keys before.entries := fun hk =>
      (List.nodup_append.1 nodup).2.2 f.1 hk f.1 List.mem_cons_self rfl
    obtain ⟨g, w, le, read, entries, depicts⟩ :=
      field.reads hc hu hp fresh (nls' ++ comma :: (s ++ t :: r))
    obtain ⟨lt, found⟩ := readSeparator_json_comma hc (lineEnds_of_kinds hn') (s ++ t :: r) hcomma
    have nodup' : (Entries.keys g.entries ++ gs.map Prod.fst).Nodup := by
      rw [entries, Entries.keys, List.map_append, List.append_assoc]
      exact nodup
    obtain ⟨fs, le', rest, depict⟩ :=
      fields.reads hc (f := { g with afterSeparator := true }) hs ht nodup' r
    obtain ⟨le'', all⟩ := (readFields_json hc (lineEnds_of_kinds hn) hu read).2 found rest
    have assoc : nls ++ u :: (p ++ (nls' ++ comma :: s)) ++ t :: r
        = nls ++ u :: (p ++ (nls' ++ comma :: (s ++ t :: r))) := by
      simp only [List.append_assoc, List.cons_append]
    rw [assoc]
    refine ⟨(f.1, w) :: fs, le'', ?_, .cons f.1 depicts depict⟩
    rw [all]
    simp only [entries, List.append_assoc, List.cons_append, List.nil_append]

theorem readsValue_emptyObject {ws : List Char} (space : ws.all isSpace = true) :
    ReadsValue (.object []) ('\x7b' :: (ws ++ ['\x7d'])) .openBrace
      (newlines (ws.count '\n') ++ [.closeBrace]) false where
  opens := rfl
  passes {rest} _ := by
    rw [List.cons_append, List.append_assoc]
    exact (Passes.sign rfl).trans (passes_sign space rfl rfl)
  reads {c} hc t s ht hs comments r := by
    obtain ⟨nls, s, rfl, hn, hs⟩ := List.map_eq_append_iff.1 hs
    obtain ⟨u, s, rfl, hu, hs⟩ := List.map_eq_cons_iff.1 hs
    cases List.map_eq_nil_iff.1 hs
    have solid : Solid (u :: r) := solid_of_kind (by rw [hu]; rfl) (by rw [hu]; nofun) r
    obtain ⟨le, skip⟩ := skipNewlines_json hc (lineEnds_of_kinds hn) solid
    have fields : ∃ le, readFields c true {} (nls ++ u :: r) = pure ([], ⟨r, le⟩) := by
      refine ⟨Nat.le_of_succ_le le, ?_⟩
      rw [readFields]
      simp only [skip, pure_bind, hu, Bool.false_eq_true, and_false, if_false, Bool.not_true]
    obtain ⟨le, fields⟩ := fields
    rw [List.append_assoc]
    refine ⟨_, le, ?_, (Value.Depicts.object { origin := c.originAt t.line } .nil).withComments
      (comments ++ t.comments)⟩
    rw [readValue]
    simp only [ht, List.singleton_append, fields, pure_bind]
    rfl

theorem readsValue_object {gs : List (String × JsonValue)} {text : List Char}
    {kinds : List TokenKind} (keys : (gs.map Prod.fst).Nodup) (fields : ReadsFields gs text kinds) :
    ReadsValue (.object gs) ('\x7b' :: (text ++ ['\x7d'])) .openBrace (kinds ++ [.closeBrace])
      false where
  opens := rfl
  passes {rest} _ := by
    rw [List.cons_append, List.append_assoc]
    exact (Passes.sign rfl).trans fields.passes
  reads {c} hc t s ht hs comments r := by
    obtain ⟨row, s', rfl, hrow, hs'⟩ := List.map_eq_append_iff.1 hs
    obtain ⟨u, s', rfl, hu, hs'⟩ := List.map_eq_cons_iff.1 hs'
    cases List.map_eq_nil_iff.1 hs'
    obtain ⟨fs, le, read, depicts⟩ := fields.reads hc (f := {}) hrow hu keys r
    rw [List.append_assoc]
    refine ⟨_, le, ?_, (Value.Depicts.object { origin := c.originAt t.line } depicts).withComments
      (comments ++ t.comments)⟩
    rw [readValue]
    simp only [ht, List.singleton_append, read, pure_bind]
    rfl

/-! ### All values -/

mutual

/-- **What is written is read.** -/
theorem exists_readsValue {j : JsonValue} {text : List Char} : Writes j text → j.Plain →
    ∃ kind kinds after, ReadsValue j text kind kinds after
  | .null, _ => ⟨.value .null, _, _, readsValue_keyword (by simp) fun _ => .null _⟩
  | .false, _ => ⟨.value (.bool false), _, _, readsValue_keyword (by simp) fun _ => .bool _ false⟩
  | .true, _ => ⟨.value (.bool true), _, _, readsValue_keyword (by simp) fun _ => .bool _ true⟩
  | .number h, .number fits =>
    let ⟨_, reads⟩ := readsValue_number h fits
    ⟨_, _, _, reads⟩
  | .string h, _ => ⟨_, _, _, readsValue_string h⟩
  | .emptyArray space, _ => ⟨_, _, _, readsValue_emptyArray space⟩
  | .array items, .array plain =>
    let ⟨_, reads⟩ := exists_readsItems items plain
    ⟨_, _, _, readsValue_array reads⟩
  | .emptyObject space, _ => ⟨_, _, _, readsValue_emptyObject space⟩
  | .object fields, .object keys plain =>
    let ⟨_, reads⟩ := exists_readsFields fields plain
    ⟨_, _, _, readsValue_object keys reads⟩

theorem exists_readsItems {js : List JsonValue} {text : List Char} : WritesItems js text →
    (∀ j ∈ js, j.Plain) → ∃ kinds, ReadsItems js text kinds
  | .last space value space', plain =>
    let ⟨_, _, _, reads⟩ := exists_readsValue value (plain _ List.mem_cons_self)
    ⟨_, readsItems_last space reads space'⟩
  | .cons space value space' items, plain =>
    let ⟨_, _, _, reads⟩ := exists_readsValue value (plain _ List.mem_cons_self)
    let ⟨_, more⟩ := exists_readsItems items fun j hj => plain j (.tail _ hj)
    ⟨_, readsItems_cons space reads space' more⟩

theorem exists_readsField {f : String × JsonValue} {text : List Char} : WritesField f text →
    f.2.Plain → ∃ m kinds n, ReadsField f text m kinds n
  | .mk space hkey spaceColon spaceValue value spaceEnd, plain =>
    let ⟨_, _, _, reads⟩ := exists_readsValue value plain
    ⟨_, _, _, readsField space hkey spaceColon spaceValue reads spaceEnd⟩

theorem exists_readsFields {fs : List (String × JsonValue)} {text : List Char} :
    WritesFields fs text → (∀ f ∈ fs, f.2.Plain) → ∃ kinds, ReadsFields fs text kinds
  | .last field, plain =>
    let ⟨_, _, _, reads⟩ := exists_readsField field (plain _ List.mem_cons_self)
    ⟨_, readsFields_last reads⟩
  | .cons field fields, plain =>
    let ⟨_, _, _, reads⟩ := exists_readsField field (plain _ List.mem_cons_self)
    let ⟨_, more⟩ := exists_readsFields fields fun f hf => plain f (.tail _ hf)
    ⟨_, readsFields_cons reads more⟩

end

/-! ### Whole texts -/

/-- JSON has no comments, so all of its tokens are items. -/
theorem isItem_of_passes {after after' : Bool} {cs rest : List Char} {kinds : List TokenKind}
    (h : Passes false after cs kinds after' rest) : ∀ kind ∈ kinds, kind.isItem = true := by
  induction h with
  | refl => exact nofun
  | @token _ _ _ cs _ _ first _ _ _ _ _ scan _ _ ih =>
    have item := Scan.isItem_scanFlat_of_closed (Scan.opensComment_false (first :: cs))
    rw [scan] at item
    exact List.forall_mem_cons.2 ⟨item, ih⟩

/-- White space at the end of a text. -/
theorem passes_space_end (after : Bool) {ws : List Char} (space : ws.all isSpace = true) :
    ∃ after' gap, Passes false after ws (newlines (ws.count '\n')) after' gap
      ∧ gap.all Cursor.isGap = true := by
  induction ws generalizing after with
  | nil => exact ⟨after, [], .refl _ _, rfl⟩
  | cons c ws ih =>
    obtain ⟨hc, space⟩ := (Bool.and_eq_true _ _).mp (List.all_cons ▸ space)
    by_cases line : c = '\n'
    · subst line
      obtain ⟨after', gap, passes, blank⟩ := ih false space
      refine ⟨after', gap, ?_, blank⟩
      rw [List.count_cons_self, newlines, List.replicate_succ]
      exact (Passes.sign rfl).trans passes
    · obtain ⟨after', gap, passes, blank⟩ := ih after space
      have front : [c].all Cursor.isGap = true := by
        rw [List.all_cons, isGap_of_isSpace hc line]
        rfl
      rw [List.count_cons_of_ne line]
      cases lines : ws.count '\n' with
      | zero =>
        -- what is left is one gap
        rw [lines] at passes
        cases passes
        refine ⟨after, c :: ws, .refl _ _, ?_⟩
        rw [List.all_cons, blank, Bool.and_true]
        simpa using front
      | succ n =>
        rw [lines] at passes
        exact ⟨after', gap, passes.blanks (fun _ => rfl) front, blank⟩

/-- The root is read, and nothing is left behind it. -/
theorem readRoot_json (hc : c.Strict) {gs : List (String × JsonValue)} {text : List Char}
    {kinds : List TokenKind} {after : Bool}
    (value : ReadsValue (.object gs) text .openBrace kinds after) {m n : Nat} {s : List Item}
    (hs : s.map Item.kind = newlines m ++ .openBrace :: (kinds ++ newlines n)) :
    ∃ v, readRoot c s = pure v ∧ v.Depicts (.object gs) := by
  obtain ⟨nls, s, rfl, hn, hs⟩ := List.map_eq_append_iff.1 hs
  obtain ⟨t, s, rfl, ht, hs⟩ := List.map_eq_cons_iff.1 hs
  obtain ⟨s, nls', rfl, hs, hn'⟩ := List.map_eq_append_iff.1 hs
  have solid : Solid (t :: (s ++ nls')) := solid_of_kind (by rw [ht]; rfl) (by rw [ht]; nofun) _
  obtain ⟨le, skip⟩ := skipNewlines_json hc (lineEnds_of_kinds hn) solid
  obtain ⟨v, le', read, depicts⟩ := value.reads hc ht hs [] nls'
  obtain ⟨le'', skip'⟩ := skipNewlines_json_end hc (lineEnds_of_kinds hn')
  refine ⟨v, ?_, depicts⟩
  unfold readRoot
  simp only [skip, pure_bind, ht, TokenKind.opensContainer, if_true, read, skip']

/-- A text that is written as an object is read as its tree. -/
theorem exists_read_json {gs : List (String × JsonValue)} {text : String}
    (written : WritesDocument (.object gs) text.toList) (plain : (JsonValue.object gs).Plain)
    (origin : Origin) (answer : IncludeRequest → Loading Value) :
    ∃ v, read .json origin answer text = pure v ∧ v.Depicts (.object gs) := by
  obtain ⟨before, cs, after, space, value, space', whole⟩ : ∃ before cs after,
      before.all isSpace = true ∧ Writes (.object gs) cs ∧ after.all isSpace = true
        ∧ text.toList = before ++ (cs ++ after) := by
    generalize text.toList = whole at written
    cases written with
    | mk space value space' => exact ⟨_, _, _, space, value, space', rfl⟩
  obtain ⟨kinds, reads⟩ : ∃ kinds, ReadsValue (.object gs) cs .openBrace kinds false := by
    cases plain with
    | object keys fields =>
      cases value with
      | emptyObject space => exact ⟨_, readsValue_emptyObject space⟩
      | object h =>
        obtain ⟨_, reads⟩ := exists_readsFields h fields
        exact ⟨_, readsValue_object keys reads⟩
  have ends : Ends after := by
    have ends : Ends (after ++ []) := ends_space space' nofun
    rwa [List.append_nil] at ends
  obtain ⟨after', gap, behind, blank⟩ := passes_space_end false space'
  have passes := (reads.passes ends).trans behind
  rw [List.cons_append] at passes
  have passes := passes_space space passes nofun
  rw [← whole] at passes
  have items := (show Passes (DocumentSyntax.json != .json) _ _ _ _ _ from passes).items blank
  rw [List.filter_eq_self.2 (isItem_of_passes passes)] at items
  exact readRoot_json ⟨rfl, kind_stopOf _ _⟩ reads items

end Document

/-- **JSON is read.**  However a JSON object is written, if it has no key twice and its numbers
fit, the text is parsed as JSON, and what comes out is the tree of the object. -/
theorem exists_parseText_json {files : FileTree} {o : ParseOptions} {text : String}
    {gs : List (String × JsonValue)} (written : WritesDocument (.object gs) text.toList)
    (plain : (JsonValue.object gs).Plain) (m : List IncludeRecord) :
    ∃ v, (parseText files { o with syn := some .json } text).run.run m = (.ok v, m)
      ∧ v.Depicts (.object gs) := by
  obtain ⟨origin, answer, eq⟩ := parseText_eq_read files o text
  obtain ⟨v, read, depicts⟩ := Document.exists_read_json written plain origin answer
  refine ⟨v, ?_, depicts⟩
  rw [eq .json (by decide), read, pure_bind]
  cases depicts
  rfl

/-- White space in many places, a surrogate pair, and an empty key. -/
theorem exists_parseText_json_example :
    let text := "\r\n\x7b\"\\uD83d\\ude00\\/\" : [1, -2.50e+1\r\n,true]\r\n,\"\":\x7b \x7d\x7d"
    let gs : List (String × JsonValue) := [
      ("😀/", .array [.number "1".toList, .number "-2.50e+1".toList, .bool true]), ("", .object [])]
    WritesDocument (.object gs) text.toList ∧ (JsonValue.object gs).Plain ∧
      ∃ v, (parseText {} { syn := some .json } text).run.run [] = (.ok v, [])
        ∧ v.Depicts (.object gs) := by
  intro text gs
  have lead : WritesUnit (0xD800 + 0x3D) ['D', '8', '3', 'd'] :=
    .mk (x := 13) (y := 8) (z := 3) (w := 13) (by decide) (by decide) (by decide) (by decide)
  have trail : WritesUnit (0xDC00 + 0x200) ['d', 'e', '0', '0'] :=
    .mk (x := 13) (y := 14) (z := 0) (w := 0) (by decide) (by decide) (by decide) (by decide)
  have slash : WritesChar '/' ['\\', '/'] := .short (by decide)
  have key : WritesText "😀/".toList _ :=
    .cons (.pair (by decide) (by decide) (by decide) lead trail) (.cons slash .nil)
  have one : IsNumber ([] ++ (['1'] ++ ([] ++ []))) :=
    .mk (.inl rfl) (.digits (by decide) (by decide) (by decide)) .none .none
  have double : IsNumber (['-'] ++ (['2'] ++ (['.', '5', '0'] ++ ('e' :: (['+'] ++ ['1']))))) :=
    .mk (.inr rfl) (.digits (by decide) (by decide) (by decide)) (.places (by decide))
      (.power (.inl rfl) (.inr (.inl rfl)) (by decide))
  have nothing : [].all isSpace = true := rfl
  have blank : [' '].all isSpace = true := rfl
  have line : ['\r', '\n'].all isSpace = true := rfl
  have items : WritesItems [.number "1".toList, .number "-2.50e+1".toList, .bool true] _ :=
    .cons nothing (.number one) nothing
      (.cons blank (.number double) line (.last nothing .true nothing))
  have fields : WritesFields gs _ :=
    .cons (.mk nothing (.mk key) blank blank (.array items) line)
      (.last (.mk nothing (.mk .nil) nothing nothing (.emptyObject blank) nothing))
  have written : WritesDocument (.object gs) text.toList := by
    have written := WritesDocument.mk line (.object fields) nothing
    refine (?_ : text.toList = _) ▸ written
    decide +kernel
  have small : Fits "1".toList := .inr (by decide)
  have places : Fits "-2.50e+1".toList := .inl (by decide)
  have plainItems : ∀ j ∈ [JsonValue.number "1".toList, .number "-2.50e+1".toList, .bool true],
      j.Plain := by
    simp only [List.forall_mem_cons]
    exact ⟨.number small, .number places, .bool true, nofun⟩
  have plain : (JsonValue.object gs).Plain := by
    refine .object (by decide) ?_
    simp only [gs, List.forall_mem_cons]
    exact ⟨.array plainItems, .object .nil nofun, nofun⟩
  exact ⟨written, plain, @exists_parseText_json {} {} text gs written plain []⟩

end Hocon
