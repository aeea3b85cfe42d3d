import Hocon.Value.Render
import Hocon.Proofs.Lexing
import Hocon.Proofs.Spelling

/-!
# The text of a value spells it

`Value.render` writes a tree that is resolved as a text that falls into tokens, and these spell
the tree, whatever the options: `Value.lexed_render`.  The text is looked at from the back.  What
a value is written as is put in front of a text that falls into tokens already and that starts
with something that ends every token (`Behind`).
-/

namespace Hocon

open Scan

/-! ### Keys -/

theorem spellsKey_quoted (k : String) : SpellsKey k (.value (.string k)) where
  path := by
    have named : (k.toList.isEmpty && !k.toList.isEmpty) = false := by
      cases k.toList <;> rfl
    simp only [Path.ofTokens?, Path.addTokens, Path.addToken, Path.Draft.addQuoted,
      List.nil_append, Bool.false_or, List.isEmpty_cons, Bool.false_eq_true, if_false,
      Path.Draft.toPath?, Path.Draft.keys, List.reverse_cons, List.reverse_nil, List.any_cons,
      List.any_nil, Bool.or_false, named, List.map_cons, List.map_nil, Path.ofKeys?,
      String.ofList_toList]
    rfl
  piece := rfl
  noInclude := rfl

theorem Path.Draft.addBare_word (d : Path.Draft) {cs : List Char} (h : '.' ∉ cs) :
    d.addBare cs = { d with openKey := { d.openKey with text := d.openKey.text ++ cs } } := by
  induction cs generalizing d with
  | nil => rw [Path.Draft.addBare, List.append_nil]
  | cons c cs ih =>
    obtain ⟨hc, hcs⟩ := not_or.1 (mt List.mem_cons.2 h)
    rw [Path.Draft.addBare, if_neg (Ne.symm hc), ih _ hcs]
    simp only [List.append_assoc, List.cons_append, List.nil_append]

theorem spellsKey_bare {k : String} (h : Text.readsBare k = true) : SpellsKey k (.bare k) where
  path := by
    have word : '.' ∉ k.toList := fun hc => (forall_mem_of_readsBare h '.' hc).2.2.2 rfl
    have nonempty : k.toList.isEmpty = false := by
      unfold Text.readsBare at h
      split at h
      · cases h
      · next hk => rw [hk]; rfl
    simp only [Path.ofTokens?, Path.addTokens, Path.addToken, Path.Draft.addBare_word _ word,
      List.nil_append, List.isEmpty_cons, Bool.false_eq_true, if_false,
      Path.Draft.toPath?, Path.Draft.keys, List.reverse_cons, List.reverse_nil, List.any_cons,
      List.any_nil, Bool.or_false, nonempty, Bool.false_and, List.map_cons, List.map_nil,
      Path.ofKeys?, String.ofList_toList]
    rfl
  piece := rfl
  noInclude := by
    have word : Text.readsBare "include" = false := by decide +kernel
    refine beq_false_of_ne ?_
    rintro rfl
    rw [word] at h
    cases h

namespace Value

/-! ### Writings that take nothing back -/

namespace Writing

/-- The characters of a writing. -/
abbrev chars (w : Writing) : List Char := w.text.toList

theorem chars_append (a : Writing) {b : Writing} (h : b.back = 0) :
    (a ++ b).chars = a.chars ++ b.chars := by
  show (before a b).text.toList = _
  rw [before, if_pos h, String.toList_append]

theorem back_append (a : Writing) {b : Writing} (h : b.back = 0) : (a ++ b).back = a.back := by
  show (before a b).back = _
  rw [before, if_pos h]

theorem chars_plain (text : String) : (plain text).chars = text.toList := rfl

theorem back_plain (text : String) : (plain text).back = 0 := rfl

theorem back_append_eq_zero {a b : Writing} (ha : a.back = 0) (hb : b.back = 0) :
    (a ++ b).back = 0 := (back_append a hb).trans ha

/-- Writings are joined one after the other. -/
theorem join_spec (separator : String) (ws : List Writing) (h : ∀ w ∈ ws, w.back = 0) (w : Writing) :
    (join separator (w :: ws)).back = w.back ∧ (join separator (w :: ws)).chars
      = w.chars ++ ws.flatMap fun v => separator.toList ++ v.chars := by
  show (ws.foldl (fun out v => out ++ plain separator ++ v) w).back = _
    ∧ (ws.foldl (fun out v => out ++ plain separator ++ v) w).chars = _
  induction ws generalizing w with
  | nil => exact ⟨rfl, (List.append_nil _).symm⟩
  | cons v ws ih =>
    obtain ⟨hv, hws⟩ := List.forall_mem_cons.1 h
    obtain ⟨back, chars⟩ := ih hws (w ++ plain separator ++ v)
    refine ⟨?_, ?_⟩
    · rw [List.foldl_cons, back, back_append _ hv, back_append _ (back_plain _)]
    · rw [List.foldl_cons, chars, chars_append _ hv, chars_append _ (back_plain _), chars_plain,
        List.flatMap_cons]
      simp only [List.append_assoc]

theorem back_join {separator : String} {ws : List Writing} (h : ∀ w ∈ ws, w.back = 0) :
    (join separator ws).back = 0 := by
  cases ws with
  | nil => rfl
  | cons w ws =>
    obtain ⟨hw, hws⟩ := List.forall_mem_cons.1 h
    exact (join_spec separator ws hws w).1.trans hw

theorem chars_join_cons_cons {separator : String} {v w : Writing} {ws : List Writing}
    (h : ∀ x ∈ v :: w :: ws, x.back = 0) :
    (join separator (v :: w :: ws)).chars
      = v.chars ++ (separator.toList ++ (join separator (w :: ws)).chars) := by
  obtain ⟨-, hws⟩ := List.forall_mem_cons.1 h
  rw [(join_spec separator _ hws v).2, (join_spec separator _ (List.forall_mem_cons.1 hws).2 w).2,
    List.flatMap_cons, List.append_assoc]

end Writing

open Writing

mutual

/-- The text of a tree that is resolved stands behind its key and takes nothing back. -/
theorem exists_renderAt (o : RenderOptions) (depth : Nat) (atRoot : Bool) : (v : Value) →
    v.isResolved = true →
    ∃ w, w.back = 0 ∧ ∀ key, renderAt o depth atRoot key v = keyHead o key v ++ w
  | null _, _ => ⟨_, rfl, fun _ => rfl⟩
  | bool _ _, _ => ⟨_, rfl, fun _ => rfl⟩
  | number _ _ _, _ => ⟨_, rfl, fun _ => rfl⟩
  | string _ _ _, _ => ⟨_, rfl, fun _ => rfl⟩
  | reference _ _, h => nomatch h
  | concat _ _, h => nomatch h
  | merge _ _ _, h => nomatch h
  | object p c fs, h => by
    refine ⟨_, ?_, fun key => by rw [renderAt]⟩
    split
    · rfl
    · refine back_append_eq_zero (back_append_eq_zero rfl (back_join fun w hw => ?_)) rfl
      obtain ⟨f, hf, rfl⟩ := List.mem_map.1 hw
      exact back_fieldParts o _ fs h f ((sortFields_perm _).mem_iff.1 hf)
  | list p xs, h => by
    refine ⟨_, ?_, fun key => by rw [renderAt]⟩
    split
    · rfl
    · exact back_append_eq_zero (back_append_eq_zero rfl (back_join (back_itemParts o _ xs h))) rfl

theorem back_fieldParts (o : RenderOptions) (depth : Nat) :
    (fs : Entries Value) → fieldsResolved fs = true → ∀ f ∈ fieldParts o depth fs, f.2.back = 0
  | [], _ => List.forall_mem_nil _
  | (k, v) :: fs, h => by
    obtain ⟨hv, hfs⟩ := (Bool.and_eq_true _ _).mp h
    obtain ⟨w, back, eq⟩ := exists_renderAt o depth false v hv
    refine List.forall_mem_cons.2 ⟨back_append_eq_zero rfl ?_, back_fieldParts o depth fs hfs⟩
    rw [eq]
    exact back_append_eq_zero rfl back

theorem back_itemParts (o : RenderOptions) (depth : Nat) :
    (xs : List Value) → itemsResolved xs = true → ∀ w ∈ itemParts o depth xs, w.back = 0
  | [], _ => List.forall_mem_nil _
  | x :: xs, h => by
    obtain ⟨hx, hxs⟩ := (Bool.and_eq_true _ _).mp h
    obtain ⟨w, back, eq⟩ := exists_renderAt o depth false x hx
    refine List.forall_mem_cons.2 ⟨back_append_eq_zero rfl ?_, back_itemParts o depth xs hxs⟩
    rw [eq]
    exact back_append_eq_zero rfl back

end

variable {o : RenderOptions} {depth : Nat} {atRoot : Bool} {v : Value}

theorem back_renderAt (h : v.isResolved = true) (key : Option String) :
    (renderAt o depth atRoot key v).back = 0 := by
  obtain ⟨w, back, eq⟩ := exists_renderAt o depth atRoot v h
  rw [eq]
  exact back_append_eq_zero rfl back

/-- The key stands in front of the value. -/
theorem chars_renderAt_key (h : v.isResolved = true) (k : String) :
    (renderAt o depth atRoot (some k) v).chars
      = (renderKey o v k).toList ++ (renderAt o depth atRoot none v).chars := by
  obtain ⟨w, back, eq⟩ := exists_renderAt o depth atRoot v h
  rw [eq, eq, chars_append _ back, chars_append _ back]
  rfl

/-- Fields in the order of their keys, each written after the other. -/
abbrev fieldsText (o : RenderOptions) (depth : Nat) (fs : Entries Value) : Writing :=
  join o.fieldEnd ((sortFields (fieldParts o depth fs)).map (·.2))

theorem back_fieldsText {fs : Entries Value} (h : fieldsResolved fs = true) :
    (fieldsText o depth fs).back = 0 := by
  refine back_join fun w hw => ?_
  obtain ⟨f, hf, rfl⟩ := List.mem_map.1 hw
  exact back_fieldParts o _ fs h f ((sortFields_perm _).mem_iff.1 hf)

theorem chars_renderAt_noFields {p : Provenance} {c : Bool} {fs : Entries Value}
    (empty : fs.isEmpty = true) :
    (renderAt o depth atRoot none (object p c fs)).chars = ['\x7b', '\x7d'] := by
  rw [renderAt]
  simp only [empty, if_true]
  rw [chars_append _ rfl]
  rfl

theorem chars_renderAt_noItems {p : Provenance} {xs : List Value} (empty : xs.isEmpty = true) :
    (renderAt o depth atRoot none (list p xs)).chars = ['[', ']'] := by
  rw [renderAt]
  simp only [empty, if_true]
  rw [chars_append _ rfl]
  rfl

/-- An object between braces. -/
theorem chars_renderAt_braces {p : Provenance} {c : Bool} {fs : Entries Value}
    (braces : (o.json || !atRoot) = true) (nonempty : fs.isEmpty = false)
    (resolved : fieldsResolved fs = true) :
    (renderAt o depth atRoot none (object p c fs)).chars
      = '\x7b' :: (o.lineEnd.toList ++ ((fieldsText o (depth + 1) fs).chars
        ++ (o.lineEnd.toList ++ ((o.indent depth).toList ++ ['\x7d'])))) := by
  have back : (fieldsText o (depth + 1) fs).back = 0 := back_fieldsText resolved
  rw [renderAt]
  simp only [braces, if_true, nonempty, Bool.false_eq_true, if_false]
  rw [chars_append _ (back_append_eq_zero (back_append_eq_zero rfl back) rfl), chars_append _ rfl,
    chars_append _ back]
  simp [chars_plain, keyHead, String.toList_append]

/-- A list between brackets. -/
theorem chars_renderAt_list {p : Provenance} {xs : List Value} (nonempty : xs.isEmpty = false)
    (resolved : itemsResolved xs = true) :
    (renderAt o depth atRoot none (list p xs)).chars
      = '[' :: (o.lineEnd.toList ++ ((join o.itemEnd (itemParts o (depth + 1) xs)).chars
        ++ (o.lineEnd.toList ++ ((o.indent depth).toList ++ [']'])))) := by
  have back : (join o.itemEnd (itemParts o (depth + 1) xs)).back = 0 :=
    back_join (back_itemParts o (depth + 1) xs resolved)
  rw [renderAt]
  simp only [nonempty, Bool.false_eq_true, if_false]
  rw [chars_append _ (back_append_eq_zero (back_append_eq_zero rfl back) rfl), chars_append _ rfl,
    chars_append _ back]
  simp [chars_plain, keyHead, String.toList_append]

/-! ### Scalars and keys -/

/-- Whether such a character ends every token in front of it. -/
def endsToken (c : Char) : Bool := [',', '\n', '\x7d', ']'].contains c

/-- A text that may stand behind a value, and the kinds of tokens that it falls into. -/
structure Behind (rest : List Char) (kinds : List TokenKind) : Prop where
  ends : ∀ c ∈ rest.head?, endsToken c = true
  lexed : ∀ after, Lexed after rest kinds

theorem Behind.of_cons {c : Char} {rest : List Char} {kind : TokenKind} {kinds : List TokenKind}
    (ends : endsToken c = true) (h : punctuation? c = some kind) (more : Lexed false rest kinds) :
    Behind (c :: rest) (kind :: kinds) where
  ends d hd := by
    cases hd
    exact ends
  lexed _ := .firstSign h more

theorem Behind.head?_ne {rest : List Char} {kinds : List TokenKind} (h : Behind rest kinds) {c : Char}
    (hc : endsToken c = false) : rest.head? ≠ some c := by
  intro e
  have := h.ends c e
  rw [hc] at this
  cases this

theorem lexed_quote {after : Bool} (t : String) {rest : List Char} {kinds : List TokenKind}
    (head : rest.head? ≠ some '"') (more : Lexed true rest kinds) :
    Lexed after ((Text.quote t).toList ++ rest) (.value (.string t) :: kinds) := by
  have scan := scanFlat_quote t head
  rw [Text.quote, String.toList_ofList, List.cons_append, List.append_assoc]
  exact .front (by decide) (by decide) scan rfl more

/-- A quoted text that blanks keep apart from the value in front of it. -/
theorem lexed_spaced_quote {gap : List Char} (blank : gap.all Cursor.isGap = true)
    (present : gap ≠ []) (t : String) {rest : List Char} {kinds : List TokenKind}
    (head : rest.head? ≠ some '"') (more : Lexed true rest kinds) :
    Lexed true (gap ++ ((Text.quote t).toList ++ rest))
      (.bare (String.ofList gap) :: .value (.string t) :: kinds) := by
  have scan := scanFlat_quote t head
  rw [Text.quote, String.toList_ofList, List.cons_append, List.append_assoc]
  exact .spaced blank present (by decide) (by decide) scan rfl rfl more

theorem lexed_keyword {after : Bool} {literal : Literal} {word : String}
    (h : (literal, word) ∈ [(Literal.null, "null"), (.bool true, "true"), (.bool false, "false")])
    {rest : List Char} {kinds : List TokenKind} (more : Lexed true rest kinds) :
    Lexed after (word.toList ++ rest) (.value literal :: kinds) := by
  simp only [List.mem_cons, List.not_mem_nil, or_false, Prod.mk.injEq] at h
  rcases h with ⟨rfl, rfl⟩ | ⟨rfl, rfl⟩ | ⟨rfl, rfl⟩ <;>
    exact .front (by decide) (by decide) (scanFlat_keyword (by decide) rest) rfl more

theorem lexed_number {n : Number} {t : String} (h : Spelled n (some t)) :
    ∃ literal, (∀ p, Spells (number p n (some t)) [.value literal])
      ∧ ∀ rest kinds, Behind rest kinds →
        Lexed false (t.toList ++ rest) (.value literal :: kinds) := by
  obtain ⟨first, cs, ht, hf, hcs, hn⟩ := h
  cases ht
  have lexed (literal : Literal) (hl : numberLiteral? (first :: cs) = some literal)
      (rest : List Char) (kinds : List TokenKind) (behind : Behind rest kinds) :
      Lexed false ((String.ofList (first :: cs)).toList ++ rest) (.value literal :: kinds) := by
    have next : ∀ c ∈ rest.head?, continuesNumber c = false := by
      intro c hc
      have ends := behind.ends c hc
      simp only [endsToken, List.contains_iff_mem, List.mem_cons, List.not_mem_nil,
        or_false] at ends
      rcases ends with rfl | rfl | rfl | rfl <;> decide
    have solid : Cursor.isGap first = false := by
      rw [Cursor.isGap, Text.isBlank_of_startsNumber hf, Bool.and_false]
    have flat : first ≠ '$' := by
      rintro rfl
      exact absurd hf (by decide)
    rw [String.toList_ofList, List.cons_append]
    exact .front solid flat (scanFlat_number hf hcs hl next) rfl (behind.lexed true)
  cases n with
  | whole w => exact ⟨_, fun p => .whole p w _, lexed _ hn⟩
  | double d => exact ⟨_, fun p => .double p d _, lexed _ hn⟩

theorem lexed_bareOrQuoted (k : String) {rest : List Char} {kinds : List TokenKind}
    (ends : EndsBare rest) (head : rest.head? ≠ some '"') (more : Lexed true rest kinds) :
    ∃ kind, SpellsKey k kind ∧ Lexed false ((Text.bareOrQuoted k).toList ++ rest) (kind :: kinds) := by
  unfold Text.bareOrQuoted
  split
  · next bare =>
    obtain ⟨first, cs, hk⟩ : ∃ first cs, k.toList = first :: cs := by
      rcases hk : k.toList with _ | ⟨first, cs⟩
      · rw [Text.readsBare, hk] at bare
        cases bare
      · exact ⟨first, cs, rfl⟩
    have word := forall_mem_of_readsBare bare first (hk ▸ List.mem_cons_self)
    have solid : Cursor.isGap first = false := by
      rw [Cursor.isGap, word.2.1, Bool.and_false]
    have flat : first ≠ '$' := by
      rintro rfl
      exact absurd word.1 (by decide)
    refine ⟨_, spellsKey_bare bare, ?_⟩
    rw [hk, List.cons_append]
    exact .front solid flat (scanFlat_bare hk bare ends) rfl more
  · exact ⟨_, spellsKey_quoted k, lexed_quote k head more⟩

/-- Wherever a value may stand, blanks and this text fall into tokens of these kinds; behind other
text that is an object only. -/
def LexedValue (v : Value) (cs : List Char) (kinds : List TokenKind) : Prop :=
  ∀ after gap, gap.all Cursor.isGap = true → (after = true → v.fields?.isSome = true) →
    Lexed after (gap ++ cs) kinds

/-- A key in front of its value. -/
theorem lexed_renderKey (o : RenderOptions) {v : Value} (k : String) {value : List Char}
    {kinds : List TokenKind} (lexed : LexedValue v value kinds)
    (brace : v.fields?.isSome = true → value.head? = some '\x7b') :
    ∃ kind link, SpellsKey k kind ∧ SpellsLink v link
      ∧ Lexed false ((renderKey o v k).toList ++ value) (kind :: (link ++ kinds)) := by
  unfold renderKey
  split
  · -- JSON quotes the key and puts a colon behind it
    have colon : Lexed true (o.colon.toList ++ value) (.colon :: kinds) := by
      unfold RenderOptions.colon
      split
      · show Lexed true ([' '] ++ ':' :: ([' '] ++ value)) (.colon :: kinds)
        exact .sign rfl rfl (lexed false [' '] rfl nofun)
      · exact .firstSign rfl (lexed false [] rfl nofun)
    have head : (o.colon.toList ++ value).head? ≠ some '"' := by
      unfold RenderOptions.colon
      split <;> simp
    rw [String.toList_append, List.append_assoc]
    exact ⟨_, _, spellsKey_quoted k, .colon v, lexed_quote k head colon⟩
  rw [String.toList_append, List.append_assoc]
  split
  · next isObject =>
    -- the brace of an object follows, perhaps behind a blank
    obtain ⟨p, c, fs, rfl⟩ : ∃ p c fs, v = object p c fs := by
      cases v <;> first | exact ⟨_, _, _, rfl⟩ | cases isObject
    have brace := brace isObject
    have ends : ∀ gap, gap = [' '] ∨ gap = [] →
        EndsBare (gap ++ value) ∧ (gap ++ value).head? ≠ some '"' := by
      rintro gap (rfl | rfl)
      · exact ⟨Or.inr (by decide), by simp⟩
      · rcases value with _ | ⟨d, cs⟩
        · cases brace
        · cases brace
          exact ⟨Or.inl (by decide), by simp⟩
    have blank : ∃ gap : List Char, (if o.formatted = true then " " else "").toList = gap
        ∧ (gap = [' '] ∨ gap = []) ∧ gap.all Cursor.isGap = true := by
      split
      · exact ⟨_, rfl, .inl rfl, rfl⟩
      · exact ⟨_, rfl, .inr rfl, rfl⟩
    obtain ⟨gap, hgap, either, blank⟩ := blank
    obtain ⟨ends, head⟩ := ends gap either
    obtain ⟨kind, key, lexed⟩ := lexed_bareOrQuoted k ends head (lexed true gap blank fun _ => isObject)
    exact ⟨kind, [], key, .none p c fs, hgap ▸ lexed⟩
  · -- anything else stands behind a sign
    have equals : Lexed true ('=' :: value) (.equals :: kinds) :=
      .firstSign rfl (lexed false [] rfl nofun)
    have ends : EndsBare ('=' :: value) := Or.inl (by decide)
    obtain ⟨kind, key, lexed⟩ := lexed_bareOrQuoted k ends (by simp) equals
    exact ⟨kind, _, key, .equals v, lexed⟩

/-! ### Comments above a value -/

/-- A comment on a line of its own, with blanks in front. -/
def IsCommentLine (s : String) : Prop :=
  ∃ gap text, s.toList = gap ++ '#' :: (text ++ ['\n']) ∧ gap.all Cursor.isGap = true ∧ '\n' ∉ text

/-- Comments are line ends to the reader. -/
theorem lexed_comments {lines : List String} (h : ∀ s ∈ lines, IsCommentLine s) {cs : List Char}
    {kinds : List TokenKind} (more : Lexed false cs kinds) :
    Lexed false (lines.flatMap String.toList ++ cs) (newlines lines.length ++ kinds) := by
  induction lines with
  | nil => exact more
  | cons s lines ih =>
    obtain ⟨⟨gap, text, hs, blank, line⟩, hlines⟩ := List.forall_mem_cons.1 h
    have behind : Lexed false ('\n' :: (lines.flatMap String.toList ++ cs)) _ :=
      .firstSign rfl (ih hlines)
    rw [List.flatMap_cons, hs]
    simp only [List.append_assoc, List.cons_append, List.nil_append]
    exact .line blank line behind

theorem toList_intercalate_empty (lines : List String) :
    ("".intercalate lines).toList = lines.flatMap String.toList := by
  induction lines with
  | nil => rfl
  | cons s lines ih =>
    cases lines with
    | nil => simp
    | cons t lines =>
      rw [String.intercalate_cons_cons, String.toList_append, String.toList_append, ih]
      simp

/-- The blanks in front of a line do not end it. -/
theorem isGap_indent (o : RenderOptions) (depth : Nat) :
    (o.indent depth).toList.all Cursor.isGap = true := by
  have pushn (n : Nat) : ("".pushn ' ' n).toList.all Cursor.isGap = true := by
    induction n with
    | zero => rfl
    | succ n ih =>
      rw [String.pushn_eq_repeat_push] at ih ⊢
      rw [Nat.repeat, String.toList_push, List.all_append, ih]
      rfl
  unfold RenderOptions.indent
  split
  · exact pushn _
  · rfl

/-- No line of a text has a line end. -/
theorem not_mem_lines {cs line : List Char} (h : line ∈ Text.lines cs) : '\n' ∉ line := by
  have all (cs current : List Char) (hc : '\n' ∉ current) :
      ∀ line ∈ Text.linesFrom current cs, '\n' ∉ line := by
    induction cs generalizing current with
    | nil =>
      intro line hl
      rw [Text.linesFrom] at hl
      split at hl
      · cases hl
      · rw [List.mem_singleton.1 hl]
        exact mt List.mem_reverse.1 hc
    | cons c cs ih =>
      rw [Text.linesFrom]
      split
      · refine List.forall_mem_cons.2 ⟨?_, ih [] List.not_mem_nil⟩
        unfold Text.dropReturn
        split
        · exact fun h => hc (List.mem_reverse.1 ((List.dropLast_sublist _).subset h))
        · exact mt List.mem_reverse.1 hc
      · next hne =>
        refine ih _ fun h => ?_
        rcases List.mem_cons.1 h with h | h
        · exact hne (by rw [← h]; rfl)
        · exact hc h
  exact all cs [] List.not_mem_nil line h

theorem isCommentLine {o : RenderOptions} {depth : Nat} {text : String} (h : '\n' ∉ text.toList)
    (apart : Bool) :
    IsCommentLine (o.indent depth ++ "#" ++ (if apart then " " else "") ++ text ++ "\n") := by
  refine ⟨(o.indent depth).toList, (if apart then " " else "").toList ++ text.toList, ?_,
    isGap_indent o depth, ?_⟩
  · simp [String.toList_append]
  · rw [List.mem_append]
    rintro (h' | h')
    · cases apart <;> simp at h'
    · exact h h'

/-- What stands above a value is line ends to the reader. -/
theorem lexed_itemHead (o : RenderOptions) (depth : Nat) {v : Value} (lines : v.origin.Commented IsLine)
    {cs : List Char} {kinds : List TokenKind} (more : Lexed false cs kinds) :
    ∃ n, Lexed false ((itemHead o depth v).chars ++ cs) (newlines n ++ kinds) := by
  have texts : ∃ texts : List String, (commentsAbove o depth v) = "".intercalate texts
      ∧ ∀ s ∈ texts, IsCommentLine s := by
    refine ⟨_, rfl, List.forall_mem_append.2 ⟨?_, ?_⟩⟩
    · split
      · intro s hs
        obtain ⟨l, hl, rfl⟩ := List.mem_map.1 hs
        exact isCommentLine (by rw [String.toList_ofList]; exact not_mem_lines hl) _
      · exact List.forall_mem_nil _
    · split
      · intro s hs
        obtain ⟨c, hc, rfl⟩ := List.mem_map.1 hs
        exact isCommentLine (lines c hc) _
      · exact List.forall_mem_nil _
  obtain ⟨texts, eq, comments⟩ := texts
  refine ⟨texts.length, ?_⟩
  rw [itemHead, chars_plain, eq, String.toList_append, toList_intercalate_empty, List.append_assoc]
  exact lexed_comments comments (more.blanks (isGap_indent o depth))

/-! ### Separators and ends -/

theorem behind_lineEnd {cs : List Char} {kinds : List TokenKind} {m : Nat}
    (more : Lexed false cs (newlines m ++ kinds)) :
    ∃ separator, SpellsSeparator separator ∧ Behind ('\n' :: cs) (separator ++ kinds) :=
  ⟨newlines (m + 1), .newline m, .of_cons (by decide) rfl more⟩

theorem behind_comma {cs : List Char} {kinds : List TokenKind} {m : Nat}
    (more : Lexed false cs (newlines m ++ kinds)) :
    ∃ separator, SpellsSeparator separator ∧ Behind (',' :: cs) (separator ++ kinds) :=
  ⟨.comma :: newlines m, .comma 0 m, .of_cons (by decide) rfl more⟩

theorem behind_itemEnd (o : RenderOptions) {cs : List Char} {kinds : List TokenKind} {m : Nat}
    (more : Lexed false cs (newlines m ++ kinds)) :
    ∃ separator, SpellsSeparator separator
      ∧ Behind (o.itemEnd.toList ++ cs) (separator ++ kinds) := by
  unfold RenderOptions.itemEnd RenderOptions.lineEnd
  split
  · exact behind_comma (m := m + 1) (.firstSign rfl more)
  · exact behind_comma more

theorem behind_fieldEnd (o : RenderOptions) {cs : List Char} {kinds : List TokenKind} {m : Nat}
    (more : Lexed false cs (newlines m ++ kinds)) :
    ∃ separator, SpellsSeparator separator
      ∧ Behind (o.fieldEnd.toList ++ cs) (separator ++ kinds) := by
  unfold RenderOptions.fieldEnd
  split
  · split
    · exact behind_comma (m := m + 1) (.firstSign rfl more)
    · exact behind_lineEnd more
  · exact behind_comma more

/-- A separator that may be left out. -/
def SpellsEnd (kinds : List TokenKind) : Prop := kinds = [] ∨ SpellsSeparator kinds

theorem SpellsEnd.items {kinds value : List TokenKind} (h : SpellsEnd kinds) {v : Value}
    (hv : Spells v value) : SpellsItems [v] (value ++ kinds) := by
  rcases h with rfl | h
  · rw [List.append_nil]
    exact .last hv
  · have := SpellsItems.cons hv h .nil
    rwa [List.append_nil] at this

theorem SpellsEnd.fields {kinds link value : List TokenKind} (h : SpellsEnd kinds) {k : String}
    {kind : TokenKind} {v : Value} (hk : SpellsKey k kind) (hl : SpellsLink v link)
    (hv : Spells v value) : SpellsFields [(k, v)] (kind :: (link ++ value) ++ kinds) := by
  rcases h with rfl | h
  · rw [List.append_nil]
    exact .last hk hl hv
  · have := SpellsFields.cons hk hl hv h .nil
    rwa [List.append_nil] at this

/-- A closing sign, on a line of its own where lines are written. -/
theorem behind_close (o : RenderOptions) (depth : Nat) {c : Char} {kind : TokenKind}
    (ends : endsToken c = true) (h : punctuation? c = some kind) {cs : List Char}
    {kinds : List TokenKind} (more : Lexed false cs kinds) :
    ∃ last, SpellsEnd last
      ∧ Behind (o.lineEnd.toList ++ ((o.indent depth).toList ++ c :: cs)) (last ++ kind :: kinds) := by
  by_cases hf : o.formatted = true
  · have line : Lexed false ((o.indent depth).toList ++ c :: cs) (newlines 0 ++ kind :: kinds) :=
      .sign h (isGap_indent o depth) more
    obtain ⟨separator, spells, behind⟩ := behind_lineEnd line
    refine ⟨separator, .inr spells, ?_⟩
    rw [RenderOptions.lineEnd, if_pos hf]
    exact behind
  · refine ⟨[], .inl rfl, ?_⟩
    rw [RenderOptions.lineEnd, RenderOptions.indent, if_neg hf, if_neg hf]
    exact .of_cons ends h more

/-- Behind an opening sign a line may end. -/
theorem lexed_open (o : RenderOptions) {cs : List Char} {kinds : List TokenKind} {m : Nat}
    (more : Lexed false cs (newlines m ++ kinds)) :
    ∃ m', Lexed false (o.lineEnd.toList ++ cs) (newlines m' ++ kinds) := by
  unfold RenderOptions.lineEnd
  split
  · exact ⟨m + 1, .firstSign rfl more⟩
  · exact ⟨m, more⟩

/-! ### Items and fields -/

/-- In front of any text that may stand behind a value, the text of this one spells it. -/
def RendersAs (o : RenderOptions) (v : Value) : Prop :=
  ∀ depth rest kinds, Behind rest kinds → ∃ ks, Spells v ks
    ∧ LexedValue v ((renderAt o depth false none v).chars ++ rest) (ks ++ kinds)

/-- A value that is written with what stands above it. -/
structure Printable (o : RenderOptions) (v : Value) : Prop where
  resolved : v.isResolved = true
  lines : v.origin.Commented IsLine
  renders : RendersAs o v

theorem lexed_item {o : RenderOptions} {v : Value} (h : Printable o v) (depth : Nat)
    {rest : List Char} {kinds : List TokenKind} (behind : Behind rest kinds) :
    ∃ m ks, Spells v ks
      ∧ Lexed false ((itemHead o depth v ++ renderAt o depth false none v).chars ++ rest)
        (newlines m ++ (ks ++ kinds)) := by
  obtain ⟨ks, spells, lexed⟩ := h.renders depth rest kinds behind
  obtain ⟨m, lexed⟩ := lexed_itemHead o depth h.lines (lexed false [] rfl nofun)
  refine ⟨m, ks, spells, ?_⟩
  rw [chars_append _ (back_renderAt h.resolved none), List.append_assoc]
  exact lexed

theorem lexed_items {o : RenderOptions} {depth : Nat} {x : Value} {xs : List Value}
    (h : ∀ v ∈ x :: xs, Printable o v) {rest : List Char} {last kinds : List TokenKind}
    (spells : SpellsEnd last) (behind : Behind rest (last ++ kinds)) :
    ∃ m ks, SpellsItems (x :: xs) ks
      ∧ Lexed false ((join o.itemEnd (itemParts o depth (x :: xs))).chars ++ rest)
        (newlines m ++ (ks ++ kinds)) := by
  induction xs generalizing x with
  | nil =>
    obtain ⟨m, ks, hx, lexed⟩ := lexed_item (h x List.mem_cons_self) depth behind
    refine ⟨m, ks ++ last, spells.items hx, ?_⟩
    rw [List.append_assoc]
    exact lexed
  | cons y xs ih =>
    obtain ⟨hx, hxs⟩ := List.forall_mem_cons.1 h
    obtain ⟨m, ks, items, lexed⟩ := ih hxs
    obtain ⟨separator, hseparator, behind⟩ := behind_itemEnd o lexed
    obtain ⟨m', ks', spells, lexed⟩ := lexed_item hx depth behind
    refine ⟨m', ks' ++ (separator ++ ks), .cons spells hseparator items, ?_⟩
    have resolved : itemsResolved (x :: y :: xs) = true :=
      itemsResolved_iff.2 fun v hv => (h v hv).resolved
    rw [itemParts, itemParts, chars_join_cons_cons (back_itemParts o depth _ resolved)]
    simp only [List.append_assoc] at lexed ⊢
    exact lexed

/-- The text of an object starts with a brace. -/
theorem head?_renderAt {p : Provenance} {c : Bool} {fs : Entries Value}
    (resolved : fieldsResolved fs = true) (rest : List Char) :
    ((renderAt o depth false none (object p c fs)).chars ++ rest).head? = some '\x7b' := by
  rcases hfs : fs.isEmpty with _ | _
  · rw [chars_renderAt_braces (by simp) hfs resolved]
    rfl
  · rw [chars_renderAt_noFields hfs]
    rfl

theorem lexed_field (h : Printable o v) (depth : Nat) (k : String) {rest : List Char}
    {kinds : List TokenKind} (behind : Behind rest kinds) :
    ∃ m kind link ks, SpellsKey k kind ∧ SpellsLink v link ∧ Spells v ks
      ∧ Lexed false ((itemHead o depth v ++ renderAt o depth false (some k) v).chars ++ rest)
        (newlines m ++ (kind :: (link ++ ks) ++ kinds)) := by
  obtain ⟨ks, spells, lexed⟩ := h.renders depth rest kinds behind
  have brace (isObject : v.fields?.isSome = true) :
      ((renderAt o depth false none v).chars ++ rest).head? = some '\x7b' := by
    have resolved := h.resolved
    cases v with
    | object p c fs => exact head?_renderAt resolved rest
    | _ => cases isObject
  obtain ⟨kind, link, key, hlink, lexed⟩ := lexed_renderKey o k lexed brace
  obtain ⟨m, lexed⟩ := lexed_itemHead o depth h.lines lexed
  refine ⟨m, kind, link, ks, key, hlink, spells, ?_⟩
  rw [chars_append _ (back_renderAt h.resolved _), chars_renderAt_key h.resolved]
  simp only [List.append_assoc, List.cons_append] at lexed ⊢
  exact lexed

/-- The text of fields spells them in their order. -/
theorem lexed_fields {f : String × Value} {fs : Entries Value} (h : ∀ g ∈ f :: fs, Printable o g.2)
    {rest : List Char} {last kinds : List TokenKind} (spells : SpellsEnd last)
    (behind : Behind rest (last ++ kinds)) :
    ∃ m ks, SpellsFields (f :: fs) ks
      ∧ Lexed false ((join o.fieldEnd ((fieldParts o depth (f :: fs)).map (·.2))).chars ++ rest)
        (newlines m ++ (ks ++ kinds)) := by
  induction fs generalizing f with
  | nil =>
    obtain ⟨m, kind, link, ks, key, hlink, hv, lexed⟩ :=
      lexed_field (h f List.mem_cons_self) depth f.1 behind
    refine ⟨m, _, spells.fields key hlink hv, ?_⟩
    rw [List.append_assoc]
    exact lexed
  | cons g fs ih =>
    obtain ⟨hf, hfs⟩ := List.forall_mem_cons.1 h
    obtain ⟨m, ks, fields, lexed⟩ := ih hfs
    obtain ⟨separator, hseparator, behind⟩ := behind_fieldEnd o lexed
    obtain ⟨m', kind, link, ks', key, hlink, hv, lexed⟩ := lexed_field hf depth f.1 behind
    refine ⟨m', _, .cons key hlink hv hseparator fields, ?_⟩
    have resolved : fieldsResolved (f :: g :: fs) = true :=
      fieldsResolved_iff.2 fun g hg => (h g hg).resolved
    have back : ∀ w ∈ (fieldParts o depth (f :: g :: fs)).map (·.2), w.back = 0 := by
      intro w hw
      obtain ⟨part, hpart, rfl⟩ := List.mem_map.1 hw
      exact back_fieldParts o depth _ resolved part hpart
    rw [fieldParts, fieldParts, List.map_cons, List.map_cons] at back ⊢
    rw [chars_join_cons_cons back]
    simp only [List.append_assoc, List.cons_append] at lexed ⊢
    exact lexed

/-! ### The order of fields -/

/-- Sorting looks at keys only. -/
theorem sortFields_map {α β : Type} (g : String × α → β) (fs : List (String × α)) :
    sortFields (fs.map fun f => (f.1, g f)) = (sortFields fs).map fun f => (f.1, g f) := by
  have place (f : String × α) (gs : List (String × α)) :
      placeField (f.1, g f) (gs.map fun f => (f.1, g f))
        = (placeField f gs).map fun f => (f.1, g f) := by
    induction gs with
    | nil => rfl
    | cons f' gs ih =>
      rw [List.map_cons, placeField, placeField]
      split
      · rw [ih, List.map_cons]
      · rfl
  have all (fs done : List (String × α)) :
      (fs.map fun f => (f.1, g f)).foldl (fun done f => placeField f done)
          (done.map fun f => (f.1, g f))
        = (fs.foldl (fun done f => placeField f done) done).map fun f => (f.1, g f) := by
    induction fs generalizing done with
    | nil => rfl
    | cons f fs ih =>
      rw [List.map_cons, List.foldl_cons, place, ih, List.foldl_cons]
  have sorted := all fs []
  rw [List.map_nil] at sorted
  rw [sortFields, sortFields, sorted, List.map_reverse]

theorem fieldParts_eq_map (o : RenderOptions) (depth : Nat) (fs : Entries Value) :
    fieldParts o depth fs
      = fs.map fun f => (f.1, itemHead o depth f.2 ++ renderAt o depth false (some f.1) f.2) := by
  induction fs with
  | nil => rfl
  | cons f fs ih => rw [fieldParts, ih, List.map_cons]

/-- The text of the fields of an object spells them in the order of their keys. -/
theorem lexed_fieldsText {fs : Entries Value} (nonempty : fs.isEmpty = false)
    (h : ∀ f ∈ fs, Printable o f.2) {rest : List Char} {last kinds : List TokenKind}
    (spells : SpellsEnd last) (behind : Behind rest (last ++ kinds)) :
    ∃ m ks gs, gs.Perm fs ∧ SpellsFields gs ks
      ∧ Lexed false ((fieldsText o depth fs).chars ++ rest) (newlines m ++ (ks ++ kinds)) := by
  have sorted : sortFields (fieldParts o depth fs) = fieldParts o depth (sortFields fs) := by
    rw [fieldParts_eq_map, fieldParts_eq_map]
    exact sortFields_map (fun f => itemHead o depth f.2 ++ renderAt o depth false (some f.1) f.2) fs
  have perm := sortFields_perm fs
  obtain ⟨f, gs, hgs⟩ : ∃ f gs, sortFields fs = f :: gs := by
    rcases hs : sortFields fs with _ | ⟨f, gs⟩
    · rw [hs] at perm
      rw [← perm.nil_eq] at nonempty
      cases nonempty
    · exact ⟨f, gs, rfl⟩
  rw [hgs] at perm sorted
  have h' : ∀ g ∈ f :: gs, Printable o g.2 := fun g hg => h g (perm.mem_iff.1 hg)
  obtain ⟨m, ks, fields, lexed⟩ := lexed_fields h' spells behind
  refine ⟨m, ks, f :: gs, perm, fields, ?_⟩
  rw [fieldsText, sorted]
  exact lexed

/-! ### Values -/

theorem rendersAs_scalar {literal : Literal} {t : String} (spells : Spells v [.value literal])
    (chars : ∀ depth, (renderAt o depth false none v).chars = t.toList)
    (h : ∀ rest kinds, Behind rest kinds →
      Lexed false (t.toList ++ rest) (.value literal :: kinds)) : RendersAs o v := by
  intro depth rest kinds behind
  refine ⟨_, spells, fun after gap blank isObject => ?_⟩
  have atFront : after = false := by
    cases spells <;> cases after <;> first | rfl | (cases isObject rfl)
  subst atFront
  rw [chars]
  exact (h rest kinds behind).blanks blank

theorem rendersAs_object {p : Provenance} {c : Bool} {fs : Entries Value}
    (nodup : (Entries.keys fs).Nodup) (h : ∀ f ∈ fs, Printable o f.2) :
    ∀ depth atRoot rest kinds, (fs.isEmpty = false → (o.json || !atRoot) = true) →
      Lexed false rest kinds →
      ∃ ks, Spells (object p c fs) ks
        ∧ LexedValue (object p c fs) ((renderAt o depth atRoot none (object p c fs)).chars ++ rest)
          (ks ++ kinds) := by
  intro depth atRoot rest kinds braces more
  rcases empty : fs.isEmpty with _ | _
  · have resolved : fieldsResolved fs = true := fieldsResolved_iff.2 fun f hf => (h f hf).resolved
    obtain ⟨last, hlast, behind⟩ := behind_close o depth (c := '\x7d') (by decide) rfl more
    obtain ⟨m, ks, gs, perm, fields, lexed⟩ :=
      lexed_fieldsText empty h hlast behind
    obtain ⟨m', lexed⟩ := lexed_open o lexed
    refine ⟨_, .object p c m' perm nodup fields, fun after gap blank _ => ?_⟩
    rw [chars_renderAt_braces (braces empty) empty resolved]
    simp only [List.append_assoc, List.cons_append, List.nil_append] at lexed ⊢
    exact .sign rfl blank lexed
  · have nil : fs = [] := List.isEmpty_iff.1 empty
    subst nil
    refine ⟨_, .object p c 0 (.refl _) nodup .nil, fun after gap blank _ => ?_⟩
    rw [chars_renderAt_noFields empty]
    exact .sign rfl blank (.firstSign rfl more)

theorem rendersAs_list {p : Provenance} {xs : List Value} (h : ∀ x ∈ xs, Printable o x) :
    RendersAs o (list p xs) := by
  intro depth rest kinds behind
  have more := behind.lexed false
  have front {after : Bool} (isObject : after = true → (list p xs).fields?.isSome = true) :
      after = false := by
    cases after
    · rfl
    · cases isObject rfl
  cases xs with
  | nil =>
    refine ⟨_, .list p 0 .nil, fun after gap blank isObject => ?_⟩
    rw [chars_renderAt_noItems rfl, front isObject]
    exact .sign rfl blank (.firstSign rfl more)
  | cons x xs =>
    have resolved : itemsResolved (x :: xs) = true :=
      itemsResolved_iff.2 fun y hy => (h y hy).resolved
    obtain ⟨last, hlast, behind⟩ := behind_close o depth (c := ']') (by decide) rfl more
    obtain ⟨m, ks, items, lexed⟩ := lexed_items h hlast behind
    obtain ⟨m', lexed⟩ := lexed_open o lexed
    refine ⟨_, .list p m' items, fun after gap blank isObject => ?_⟩
    rw [chars_renderAt_list rfl resolved, front isObject]
    simp only [List.append_assoc, List.cons_append, List.nil_append] at lexed ⊢
    exact .sign rfl blank lexed

/-- **The text of a tree spells it.** -/
theorem WellFormed.renders {query : Value → Prop} (h : WellFormed (.ofTexts query) v)
    (o : RenderOptions) (resolved : v.isResolved = true) : RendersAs o v := by
  induction h with
  | null =>
    exact rendersAs_scalar (.null _) (t := "null") (fun _ => rfl) fun rest kinds behind =>
      lexed_keyword (by decide) (behind.lexed true)
  | bool _ b =>
    refine rendersAs_scalar (.bool _ b) (t := if b then "true" else "false") (fun _ => rfl)
      fun rest kinds behind => ?_
    exact lexed_keyword (by cases b <;> decide) (behind.lexed true)
  | @number p _ n t spelled =>
    obtain ⟨text, rfl⟩ : ∃ text, t = some text := by
      obtain ⟨first, rest, rfl, -⟩ := spelled
      exact ⟨_, rfl⟩
    obtain ⟨literal, spells, lexed⟩ := lexed_number spelled
    exact rendersAs_scalar (spells p) (t := text) (fun _ => rfl) lexed
  | string _ t quoted =>
    exact rendersAs_scalar (.string _ t quoted) (t := Text.quote t) (fun _ => rfl)
      fun rest kinds behind => lexed_quote t (behind.head?_ne (by decide)) (behind.lexed true)
  | object _ c nodup fields ih =>
    intro depth rest kinds behind
    have resolved := fieldsResolved_iff.1 resolved
    refine rendersAs_object nodup (fun f hf => ?_) depth false rest kinds (by simp)
      (behind.lexed false)
    exact ⟨resolved f hf, (fields _ _ hf).lines, ih _ _ hf (resolved f hf)⟩
  | list _ items ih =>
    have resolved := itemsResolved_iff.1 resolved
    exact rendersAs_list fun x hx => ⟨resolved x hx, (items x hx).lines, ih x hx (resolved x hx)⟩
  | reference => cases resolved
  | concat => cases resolved
  | merge => cases resolved

/-! ### Documents -/

end Value

end Hocon
