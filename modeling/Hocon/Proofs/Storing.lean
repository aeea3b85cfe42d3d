import Hocon.Proofs.JsonWriting
import Hocon.Proofs.PathTrees
import Hocon.Proofs.References

/-!
# Documents of `key=value` lines are read back

The usual way to store a map of texts is a line for each entry (`Properties.Stores`): a backslash
stands in front of what would end the key or start a comment, some controls have a letter, and each
other character out of the visible ones is written by its code units.

Such lines are read back, entry by entry, up to one thing: an escaped code unit is read on its own,
so that a character beyond the first plane, which takes two, is heard as the letters of its escapes
(`Properties.heard`).  With that the tree that is read holds each text at the path of its key
(`Properties.read_stored`).

A piece of a line and what is read for it go together whatever follows (`Properties.Gives`), for
keys and for values alike.  A line goes on only if a backslash is left over at its end, and stored
pieces leave none over (`Properties.Inside`).
-/

namespace Hocon

/-- Pairs with different keys are entries as they are. -/
theorem Entries.ofPairs_of_nodup {α : Type} {pairs : Entries α} (h : (keys pairs).Nodup) :
    ofPairs pairs = pairs := by
  have all (pairs es : Entries α) (h : (keys (es ++ pairs)).Nodup) :
      pairs.foldl (fun es p => put es p.1 p.2) es = es ++ pairs := by
    induction pairs generalizing es with
    | nil => rw [List.foldl_nil, List.append_nil]
    | cons p pairs ih =>
      have absent : p.1 ∉ keys es := by
        rw [keys, List.map_append, List.nodup_append] at h
        exact fun mem => h.2.2 _ mem _ (List.mem_cons_self ..) rfl
      have more : (keys (es ++ [(p.1, p.2)] ++ pairs)).Nodup := by
        rwa [List.append_assoc, List.singleton_append]
      rw [List.foldl_cons, put_of_not_mem absent, ih _ more, List.append_assoc,
        List.singleton_append]
  exact all pairs [] h

theorem Entries.mem_of_mem_ofPairs {α : Type} {pairs : List (String × α)} {e : String × α}
    (h : e ∈ ofPairs pairs) : e ∈ pairs := by
  have all (pairs : List (String × α)) (es : Entries α)
      (h : e ∈ pairs.foldl (fun es p => put es p.1 p.2) es) : e ∈ es ∨ e ∈ pairs := by
    induction pairs generalizing es with
    | nil => exact .inl h
    | cons p pairs ih =>
      rcases ih _ h with there | more
      · rcases mem_put there with rfl | old
        · exact .inr List.mem_cons_self
        · exact .inl old
      · exact .inr (List.mem_cons_of_mem _ more)
  exact (all pairs [] h).resolve_left List.not_mem_nil

namespace Properties

open Text Scan

variable {run : List Char → List Char × List Char} {c : Char} {piece out : List Char} {n : Nat}

/-! ### Storing -/

/-- The code units of a character, of sixteen bits each. -/
def units (c : Char) : List Nat :=
  if c.toNat < 0x10000 then [c.toNat]
  else [0xD800 + (c.toNat - 0x10000) / 0x400, 0xDC00 + (c.toNat - 0x10000) % 0x400]

/-- Four digits in base sixteen, the letters as capitals. -/
def unitDigits (n : Nat) : List Char :=
  [n / 0x1000, n / 0x100 % 16, n / 16 % 16, n % 16].map fun d => (Nat.digitChar d).toUpper

/-- A code unit as an escape, without the backslash. -/
def unitEscape (n : Nat) : List Char := 'u' :: unitDigits n

/-- The characters with an escape of their own, and what stands behind its backslash. -/
def shortEscapes : List (Char × Char) :=
  [('\t', 't'), ('\n', 'n'), ('\r', 'r'), ('\x0c', 'f'), ('\\', '\\'), ('=', '='), (':', ':'),
    ('#', '#'), ('!', '!')]

/-- A character as it is stored; spaces stay. -/
def storeChar (c : Char) : List Char :=
  match shortEscapes.lookup c with
  | some e => ['\\', e]
  | none =>
    if 0x20 ≤ c.toNat ∧ c.toNat ≤ 0x7E then [c]
    else (units c).flatMap fun n => '\\' :: unitEscape n

/-- A character as it is stored where spaces are escaped. -/
def storeSpaced (c : Char) : List Char := if c = ' ' then ['\\', ' '] else storeChar c

/-- A key as it is stored. -/
def storeKey (key : List Char) : List Char := key.flatMap storeSpaced

/-- How a value is stored: of the spaces in front at least the first one is escaped. -/
inductive StoresValue : List Char → List Char → Prop
  | mk (n : Nat) (rest : List Char) (front : n = 0 → rest.head? ≠ some ' ') :
      StoresValue (List.replicate n ' ' ++ rest)
        ((List.replicate n ' ').flatMap storeSpaced ++ rest.flatMap storeChar)

/-- How a map is stored: each entry on a line of its own. -/
inductive Stores (lineEnd : List Char) : Entries String → List Char → Prop
  | nil : Stores lineEnd [] []
  | cons {key value : String} {es : Entries String} {written text : List Char}
      (h : StoresValue value.toList written) (more : Stores lineEnd es text) :
      Stores lineEnd ((key, value) :: es)
        (storeKey key.toList ++ '=' :: (written ++ (lineEnd ++ text)))

/-- What is read for a stored character: a code unit that is half a character is no escape, so that
its letters are read. -/
def heard (c : Char) : List Char :=
  if c.toNat < 0x10000 then [c] else (units c).flatMap unitEscape

/-- What is read for a stored text. -/
def heardText (s : String) : String := String.ofList (s.toList.flatMap heard)

/-- What is read for a stored entry. -/
def heardEntry (e : String × String) : String × String := (heardText e.1, heardText e.2)

/-! ### Code units -/

theorem hexCode?_unitDigits (h : n < 0x10000) : hexCode? (unitDigits n) = some n := by
  have noPlus : ∀ d < 16, (Nat.digitChar d).toUpper ≠ '+' := by decide +kernel
  have digit (d : Nat) (small : d < 16) : hexValue? (Nat.digitChar d).toUpper = some d :=
    JsonValue.hexValue?_eq ⟨small, .inr rfl⟩
  have value :
      16 * (16 * (16 * (16 * 0 + n / 0x1000) + n / 0x100 % 16) + n / 16 % 16) + n % 16 = n := by
    omega
  simp only [unitDigits, List.map_cons, List.map_nil]
  rw [hexCode?]
  · simp only [List.isEmpty_cons, Bool.false_eq_true, if_false, List.foldlM_cons, List.foldlM_nil,
      digit _ (show n / 0x1000 < 16 by omega), digit _ (Nat.mod_lt _ (show 0 < 16 by decide)),
      Option.map_some, Option.bind_eq_bind, Option.bind_some, value]
    rfl
  · exact fun rest plus => noPlus _ (by omega) (List.cons.inj plus).1

theorem lt_of_mem_units (h : n ∈ units c) : n < 0x10000 := by
  have valid : c.toNat.isValidChar := c.valid
  have top : c.toNat < 0x110000 := by rcases valid with low | high <;> omega
  rw [units] at h
  split at h
  · rwa [List.mem_singleton.1 h]
  · simp only [List.mem_cons, List.not_mem_nil, or_false] at h
    omega

/-- The letters of an escape can be seen. -/
theorem mem_unitEscape (h : n < 0x10000) {d : Char} (hd : d ∈ unitEscape n) :
    0x20 ≤ d.toNat ∧ d.toNat ≤ 0x7E ∧ d ≠ '\\' := by
  have digit : ∀ k < 16, 0x20 ≤ (Nat.digitChar k).toUpper.toNat
      ∧ (Nat.digitChar k).toUpper.toNat ≤ 0x7E ∧ (Nat.digitChar k).toUpper ≠ '\\' := by
    decide +kernel
  rcases List.mem_cons.1 hd with rfl | hd
  · decide
  · obtain ⟨k, hk, rfl⟩ := List.mem_map.1 hd
    refine digit k ?_
    simp only [List.mem_cons, List.not_mem_nil, or_false] at hk
    omega

/-- The escape of a code unit is read as the character of that code, if there is one. -/
theorem takeEscape_unit (h : n < 0x10000) (rest : List Char) :
    takeEscape (unitEscape n ++ rest)
      = (match charOfCode? n with | some c => [c] | none => unitEscape n, rest) := by
  have digits : (unitDigits n ++ rest).take 4 = unitDigits n := List.take_left' rfl
  have after : (unitDigits n ++ rest).drop 4 = rest := List.drop_left' rfl
  rw [unitEscape, List.cons_append, takeEscape, if_pos rfl]
  simp only [digits, after, hexCode?_unitDigits h, Option.bind_some]
  cases charOfCode? n <;> rfl

/-- Half a character has no code. -/
theorem charOfCode?_half (low : 0xD800 ≤ n) (high : n < 0xE000) : charOfCode? n = none := by
  rw [charOfCode?, dif_neg]
  rintro (below | above) <;> omega

/-! ### Pieces of a line -/

/-- A piece of a line is read as some characters, whatever follows. -/
def Gives (run : List Char → List Char × List Char) (piece out : List Char) : Prop :=
  ∀ rest, run (piece ++ rest) = (out ++ (run rest).1, (run rest).2)

theorem Gives.nil : Gives run [] [] := fun _ => rfl

theorem Gives.append {piece' out' : List Char} (h : Gives run piece out)
    (h' : Gives run piece' out') : Gives run (piece ++ piece') (out ++ out') := fun rest => by
  rw [List.append_assoc, h, h', List.append_assoc]

theorem gives_flatMap {α : Type} {as : List α} {f g : α → List Char}
    (h : ∀ a ∈ as, Gives run (f a) (g a)) : Gives run (as.flatMap f) (as.flatMap g) := by
  induction as with
  | nil => exact .nil
  | cons a as ih =>
    obtain ⟨here, rest⟩ := List.forall_mem_cons.1 h
    exact here.append (ih rest)

/-- A value is read to the end of its line. -/
def readValue (cs : List Char) : List Char × List Char := (unescape cs, [])

/-- A run takes escapes where they stand. -/
def TakesEscapes (run : List Char → List Char × List Char) : Prop :=
  ∀ tail out, (∀ rest, takeEscape (tail ++ rest) = (out, rest)) → Gives run ('\\' :: tail) out

theorem takesEscapes_takeKey : TakesEscapes takeKey := fun tail out h rest => by
  rw [List.cons_append, takeKey, if_pos rfl, h]

theorem takesEscapes_readValue : TakesEscapes readValue := fun tail out h rest => by
  rw [readValue, List.cons_append, unescape, if_pos rfl, h]
  rfl

/-- A short escape is read as the character that it stands for; it can be seen, and the character
takes one code unit. -/
theorem takeEscape_short {e : Char} (h : shortEscapes.lookup c = some e) :
    0x20 ≤ e.toNat ∧ c.toNat < 0x10000 ∧ ∀ rest, takeEscape (e :: rest) = ([c], rest) := by
  obtain ⟨front, back, eq, -⟩ := List.lookup_eq_some_iff.1 h
  have mem : (c, e) ∈ shortEscapes := by
    rw [eq]
    exact List.mem_append_right _ List.mem_cons_self
  simp only [shortEscapes, List.mem_cons, Prod.mk.injEq, List.not_mem_nil, or_false] at mem
  obtain ⟨rfl, rfl⟩ | ⟨rfl, rfl⟩ | ⟨rfl, rfl⟩ | ⟨rfl, rfl⟩ | ⟨rfl, rfl⟩ | ⟨rfl, rfl⟩ | ⟨rfl, rfl⟩
    | ⟨rfl, rfl⟩ | ⟨rfl, rfl⟩ := mem <;> exact ⟨by decide, by decide, fun _ => rfl⟩

/-- A character that is stored without a backslash. -/
def IsPlain (c : Char) : Prop :=
  0x20 ≤ c.toNat ∧ c.toNat ≤ 0x7E ∧ shortEscapes.lookup c = none

theorem IsPlain.ne (h : IsPlain c) (d : Char) (hd : (shortEscapes.lookup d).isSome) : c ≠ d := by
  rintro rfl
  rw [h.2.2] at hd
  cases hd

theorem IsPlain.not_isWhiteSpace (h : IsPlain c) (noSpace : c ≠ ' ') : isWhiteSpace c = false := by
  have apart : CodeRange.disjoint [⟨0x21, 0x7E⟩] whiteSpaceRanges = true := by decide
  refine CodeRange.not_holds_of_disjoint apart ?_
  have ne : c.toNat ≠ 0x20 := fun eq => noSpace (Char.toNat_inj.1 eq)
  exact CodeRange.holds_iff.2
    ⟨_, List.mem_singleton_self _, Nat.lt_of_le_of_ne h.1 ne.symm, h.2.1⟩

/-- A character that is written by its code units is read as what is heard of it. -/
theorem gives_units (escapes : TakesEscapes run) (c : Char) :
    Gives run ((units c).flatMap fun n => '\\' :: unitEscape n) (heard c) := by
  rw [heard, units]
  split
  · next first =>
    rw [List.flatMap_singleton]
    exact escapes _ _ fun rest => by rw [takeEscape_unit first, charOfCode?_toNat]
  · next second =>
    have valid : c.toNat.isValidChar := c.valid
    have top : c.toNat < 0x110000 := by rcases valid with low | high <;> omega
    refine gives_flatMap fun n hn => escapes _ _ fun rest => ?_
    -- both units are halves
    have half : 0xD800 ≤ n ∧ n < 0xE000 := by
      simp only [List.mem_cons, List.not_mem_nil, or_false] at hn
      omega
    rw [takeEscape_unit (by omega), charOfCode?_half half.1 half.2]

/-- A stored character is read as what is heard of it. -/
theorem gives_storeChar (escapes : TakesEscapes run) (plain : IsPlain c → Gives run [c] [c]) :
    Gives run (storeChar c) (heard c) := by
  rw [storeChar]
  split
  · next e short =>
    obtain ⟨-, first, taken⟩ := takeEscape_short short
    rw [heard, if_pos first]
    exact escapes [e] [c] taken
  · next long =>
    split
    · next visible =>
      rw [heard, if_pos (by omega)]
      exact plain ⟨visible.1, visible.2, long⟩
    · exact gives_units escapes c

/-- A character that is stored with its spaces escaped is read in the same way. -/
theorem gives_storeSpaced (escapes : TakesEscapes run)
    (plain : IsPlain c → c ≠ ' ' → Gives run [c] [c]) : Gives run (storeSpaced c) (heard c) := by
  rw [storeSpaced]
  split
  · next h => rw [h]; exact escapes [' '] [' '] fun _ => rfl
  · next h => exact gives_storeChar escapes fun visible => plain visible h

/-- A stored key is read as what is heard of it. -/
theorem gives_storeKey (key : List Char) : Gives takeKey (storeKey key) (key.flatMap heard) := by
  refine gives_flatMap fun c _ => gives_storeSpaced takesEscapes_takeKey ?_
  intro plain noSpace rest
  have noSeparator : ¬ (c = '=' ∨ c = ':') := not_or.2 ⟨plain.ne _ rfl, plain.ne _ rfl⟩
  rw [List.singleton_append, takeKey, if_neg (plain.ne _ rfl), if_neg noSeparator,
    if_neg (Bool.eq_false_iff.1 (plain.not_isWhiteSpace noSpace))]
  rfl

/-- So is a value. -/
theorem gives_storedValue {value written : List Char} (h : StoresValue value written) :
    Gives readValue written (value.flatMap heard) := by
  have plain {c : Char} (visible : IsPlain c) : Gives readValue [c] [c] := fun rest => by
    rw [List.singleton_append, readValue, unescape, if_neg (visible.ne _ rfl)]
    rfl
  obtain ⟨n, rest, -⟩ := h
  rw [List.flatMap_append]
  have spaces : Gives readValue ((List.replicate n ' ').flatMap storeSpaced)
      ((List.replicate n ' ').flatMap heard) :=
    gives_flatMap fun c _ => gives_storeSpaced takesEscapes_readValue fun h _ => plain h
  exact spaces.append (gives_flatMap fun c _ => gives_storeChar takesEscapes_readValue plain)

/-! ### Lines -/

/-- A piece that stays inside a line: there is no end of a line in it, and a line that does not go
on does not go on with the piece behind it either. -/
structure Inside (piece : List Char) : Prop where
  visible : ∀ d ∈ piece, 0x20 ≤ d.toNat
  ends : ∀ front, goesOn front = false → goesOn (front ++ piece) = false

theorem Inside.nil : Inside [] := ⟨by simp, fun _ h => by rwa [List.append_nil]⟩

theorem Inside.append {piece' : List Char} (h : Inside piece) (h' : Inside piece') :
    Inside (piece ++ piece') where
  visible d hd := (List.mem_append.1 hd).elim (h.visible d) (h'.visible d)
  ends front stops := by
    rw [← List.append_assoc]
    exact h'.ends _ (h.ends _ stops)

theorem inside_flatMap {α : Type} {as : List α} {f : α → List Char} (h : ∀ a ∈ as, Inside (f a)) :
    Inside (as.flatMap f) := by
  induction as with
  | nil => exact .nil
  | cons a as ih =>
    obtain ⟨here, rest⟩ := List.forall_mem_cons.1 h
    exact here.append (ih rest)

theorem Inside.of_getLast? (visible : ∀ d ∈ piece, 0x20 ≤ d.toNat)
    (last : piece.getLast? ≠ some '\\') : Inside piece where
  visible := visible
  ends front stops := by
    rcases List.eq_nil_or_concat' piece with rfl | ⟨piece, c, rfl⟩
    · rwa [List.append_nil]
    · have ne : c ≠ '\\' := fun eq => last (by rw [List.getLast?_concat, eq])
      rw [goesOn, ← List.append_assoc, List.reverse_append, List.reverse_singleton,
        List.singleton_append, List.takeWhile_cons_of_neg (by simpa using ne)]
      rfl

/-- A letter or a mark behind a backslash; two backslashes leave none over. -/
theorem inside_escape (low : 0x20 ≤ c.toNat) : Inside ['\\', c] := by
  by_cases last : c = '\\'
  · subst last
    refine ⟨by simp, fun front stops => ?_⟩
    rw [← stops, goesOn, goesOn, List.reverse_append]
    show ((('\\' :: '\\' :: front.reverse).takeWhile (· == '\\')).length % 2 == 1) = _
    rw [List.takeWhile_cons_of_pos rfl, List.takeWhile_cons_of_pos rfl, List.length_cons,
      List.length_cons, Nat.add_assoc, Nat.add_mod_right]
  · exact .of_getLast? (by simpa using low) (by simpa using last)

theorem inside_unitEscape (h : n < 0x10000) : Inside ('\\' :: unitEscape n) := by
  refine .of_getLast? (List.forall_mem_cons.2 ⟨by decide, fun d hd => ?_⟩) fun last => ?_
  · exact (mem_unitEscape h hd).1
  · rw [unitEscape, List.getLast?_cons_cons] at last
    exact (mem_unitEscape h (List.mem_of_getLast? last)).2.2 rfl

theorem inside_storeChar (c : Char) : Inside (storeChar c) := by
  rw [storeChar]
  split
  · next e short => exact inside_escape (takeEscape_short short).1
  · next long =>
    split
    · next visible =>
      have plain : IsPlain c := ⟨visible.1, visible.2, long⟩
      exact .of_getLast? (by simpa using visible.1) (by simpa using plain.ne '\\' rfl)
    · exact inside_flatMap fun n hn => inside_unitEscape (lt_of_mem_units hn)

theorem inside_storeSpaced (c : Char) : Inside (storeSpaced c) := by
  rw [storeSpaced]
  split
  · exact inside_escape (by decide)
  · exact inside_storeChar c

/-- A stored character starts with a backslash, or is stored as it is. -/
theorem storeChar_cases (c : Char) :
    (∃ tail, storeChar c = '\\' :: tail) ∨ IsPlain c ∧ storeChar c = [c] := by
  rw [storeChar]
  split
  · exact .inl ⟨_, rfl⟩
  · next long =>
    split
    · next visible => exact .inr ⟨⟨visible.1, visible.2, long⟩, rfl⟩
    · rw [units]
      split <;> exact .inl ⟨_, rfl⟩

/-- What a line may start with. -/
def Opens (c : Char) : Prop := isWhiteSpace c = false ∧ c ≠ '#' ∧ c ≠ '!'

instance (c : Char) : Decidable (Opens c) := inferInstanceAs (Decidable (_ ∧ _))

theorem exists_storeSpaced (c : Char) : ∃ d tail, storeSpaced c = d :: tail ∧ Opens d := by
  have backslash : Opens '\\' := by decide
  rw [storeSpaced]
  split
  · exact ⟨_, _, rfl, backslash⟩
  · next noSpace =>
    rcases storeChar_cases c with ⟨tail, stored⟩ | ⟨plain, stored⟩
    · exact ⟨_, _, stored, backslash⟩
    · exact ⟨_, _, stored, plain.not_isWhiteSpace noSpace, plain.ne _ rfl, plain.ne _ rfl⟩

theorem inside_line (key : List Char) {value written : List Char} (h : StoresValue value written) :
    Inside (storeKey key ++ '=' :: written) := by
  have stored : Inside written := by
    obtain ⟨n, rest, -⟩ := h
    exact (inside_flatMap fun c _ => inside_storeSpaced c).append
      (inside_flatMap fun c _ => inside_storeChar c)
  have separator : Inside ['='] := .of_getLast? (by simp) (by decide)
  exact (inside_flatMap fun c _ => inside_storeSpaced c).append (separator.append stored)

theorem opens_line (key written : List Char) :
    ∃ d tail, storeKey key ++ '=' :: written = d :: tail ∧ Opens d := by
  cases key with
  | nil => exact ⟨_, _, rfl, by decide⟩
  | cons c key =>
    obtain ⟨d, tail, stored, opens⟩ := exists_storeSpaced c
    exact ⟨d, _, by rw [storeKey, List.flatMap_cons, stored]; rfl, opens⟩

/-- No white space is in front of a stored value. -/
theorem trimStart_storedValue {value written : List Char} (h : StoresValue value written) :
    trimStart written = written := by
  have stays {c : Char} (text : List Char) :
      trimStart (storeSpaced c ++ text) = storeSpaced c ++ text := by
    obtain ⟨d, tail, stored, opens⟩ := exists_storeSpaced c
    rw [stored, List.cons_append, trimStart, List.dropWhile_cons_of_neg (by simp [opens.1])]
  obtain ⟨n, rest, front⟩ := h
  cases n with
  | succ n =>
    rw [List.replicate_succ, List.flatMap_cons, List.append_assoc]
    exact stays _
  | zero =>
    cases rest with
    | nil => rfl
    | cons c rest =>
      have noSpace : c ≠ ' ' := fun eq => front rfl (congrArg some eq)
      have same : storeChar c = storeSpaced c := by rw [storeSpaced, if_neg noSpace]
      show trimStart ((c :: rest).flatMap storeChar) = (c :: rest).flatMap storeChar
      rw [List.flatMap_cons, same]
      exact stays _

/-! ### Documents -/

theorem linesFrom_append {line : List Char} (h : '\n' ∉ line) (current rest : List Char) :
    linesFrom current (line ++ '\n' :: rest)
      = dropReturn (current.reverse ++ line) :: linesFrom [] rest := by
  induction line generalizing current with
  | nil => rw [List.nil_append, linesFrom, if_pos (beq_self_eq_true _), List.append_nil]
  | cons c line ih =>
    obtain ⟨ne, absent⟩ := not_or.1 (mt List.mem_cons.2 h)
    rw [List.cons_append, linesFrom, if_neg (by simpa using Ne.symm ne), ih absent,
      List.reverse_cons, List.append_assoc, List.singleton_append]

theorem lines_append {line lineEnd : List Char} (h : Inside line)
    (ending : lineEnd = ['\n'] ∨ lineEnd = ['\r', '\n']) (rest : List Char) :
    lines (line ++ (lineEnd ++ rest)) = line :: lines rest := by
  have noFeed : '\n' ∉ line := fun mem => absurd (h.visible _ mem) (by decide)
  have noReturn : '\r' ∉ line := fun mem => absurd (h.visible _ mem) (by decide)
  rcases ending with rfl | rfl
  · have stays : dropReturn line = line :=
      if_neg fun last => noReturn (List.mem_of_getLast? last)
    rw [lines, List.singleton_append, linesFrom_append noFeed, List.reverse_nil, List.nil_append,
      stays, lines]
  · have dropped : dropReturn (line ++ ['\r']) = line := by
      rw [dropReturn, if_pos List.getLast?_concat, List.dropLast_concat]
    have noFeed' : '\n' ∉ line ++ ['\r'] := by simpa using noFeed
    rw [lines, ← List.singleton_append, List.append_assoc, ← List.append_assoc line,
      List.singleton_append, linesFrom_append noFeed', List.reverse_nil, List.nil_append, dropped,
      lines]

/-- The line of an entry is read as what is heard of it. -/
theorem readEntry_line {key value : String} {written : List Char}
    (h : StoresValue value.toList written) :
    readEntry (storeKey key.toList ++ '=' :: written) = heardEntry (key, value) := by
  have split : takeKey (storeKey key.toList ++ '=' :: written)
      = (key.toList.flatMap heard, written) := by
    have separator : takeKey ('=' :: written) = ([], written) := by
      rw [takeKey, if_neg (by decide), if_pos (.inl rfl)]
    rw [gives_storeKey, separator, List.append_nil]
  have read_ : unescape written = value.toList.flatMap heard := by
    have := congrArg Prod.fst (gives_storedValue h [])
    have none : unescape [] = [] := by rw [unescape]
    rwa [List.append_nil, readValue, readValue, none, List.append_nil] at this
  simp only [readEntry, split]
  rw [show written.dropWhile isWhiteSpace = written from trimStart_storedValue h, read_]
  rfl

/-- Each entry is read from its line. -/
theorem map_readEntry_of_stores {lineEnd text : List Char} {es : Entries String}
    (ending : lineEnd = ['\n'] ∨ lineEnd = ['\r', '\n']) (h : Stores lineEnd es text) :
    (entryLines text).map readEntry = es.map heardEntry := by
  induction h with
  | nil => rfl
  | @cons key value es written text h more ih =>
    have inside := inside_line key.toList h
    obtain ⟨d, tail, line, opens⟩ := opens_line key.toList written
    have trimmed : trimStart (storeKey key.toList ++ '=' :: written)
        = storeKey key.toList ++ '=' :: written := by
      rw [line, trimStart, List.dropWhile_cons_of_neg (by simp [opens.1])]
    have sets : isSkipped (storeKey key.toList ++ '=' :: written) = false := by
      rw [line, isSkipped]
      simp [opens.2]
    have stops : goesOn (storeKey key.toList ++ '=' :: written) = false := inside.ends [] rfl
    have first : entryLines (storeKey key.toList ++ '=' :: (written ++ (lineEnd ++ text)))
        = (storeKey key.toList ++ '=' :: written) :: entryLines text := by
      rw [entryLines, ← List.cons_append, ← List.append_assoc, lines_append inside ending,
        joinLines]
      simp only [trimmed, sets, stops, Bool.false_eq_true, if_false, entryLines]
    rw [first, List.map_cons, ih, readEntry_line h, List.map_cons]

/-! ### Keys as paths -/

/-- The keys of a path that a key is split into at its periods. -/
def splitKey (key : String) : List String := (key.toList.splitOn '.').map String.ofList

theorem keys_keyPath (key : String) : (keyPath key).keys = splitKey key := by
  have same : (Path.splitPeriods [] key.toList).map String.ofList = splitKey key := by
    rw [Path.splitPeriods_nil, splitKey]
  rw [keyPath, same]
  cases split : splitKey key with
  | nil => exact absurd (List.map_eq_nil_iff.1 split) (List.splitOn_ne_nil _ _)
  | cons first rest => rfl

/-- Different keys are split into different paths. -/
theorem splitKey_inj {key key' : String} : splitKey key = splitKey key' ↔ key = key' := by
  refine ⟨fun eq => ?_, congrArg splitKey⟩
  have pieces := List.map_injective_iff.2 (fun _ _ => String.ofList_inj.1) eq
  have := congrArg (['.'].intercalate ·) pieces
  rw [List.intercalate_splitOn, List.intercalate_splitOn] at this
  exact String.toList_inj.1 this

/-- No key, split at its periods, leads on to another one. -/
def Apart (es : Entries String) : Prop :=
  ∀ e ∈ es, ∀ f ∈ es, splitKey e.1 <+: splitKey f.1 → e.1 = f.1

instance (es : Entries String) : Decidable (Apart es) :=
  inferInstanceAs (Decidable (∀ e ∈ es, _))

/-- The tree holds each text at the path of its key, and apart from them only objects on the way to
them, with their keys once. -/
structure Holds (o : Origin) (es : Entries String) (v : Value) : Prop where
  holds : ∀ e ∈ es, v.peek? (splitKey e.1) = some (.ofText o e.2)
  only : ∀ keys u, v.peek? keys = some u →
    (∃ e ∈ es, keys = splitKey e.1 ∧ u = .ofText o e.2)
      ∨ (keys = [] ∨ ∃ e ∈ es, keys <+: splitKey e.1 ∧ keys ≠ splitKey e.1)
        ∧ ∃ fs, u = .ofFields o fs ∧ (Entries.keys fs).Nodup

section Trees

variable {o : Origin} {es : Entries String}

/-- The entries of a document with their paths. -/
def planned (o : Origin) (es : Entries String) : List (Path × Value) :=
  es.map fun e => (keyPath e.1, .ofText o e.2)

theorem mem_planned {p : Path} {x : Value} :
    (p, x) ∈ planned o es ↔ ∃ e ∈ es, keyPath e.1 = p ∧ .ofText o e.2 = x := by
  simp only [planned, List.mem_map, Prod.mk.injEq]

/-- There is nothing inside a text. -/
theorem exists_of_mem_planned {p : Path} {x u : Value} {inner : List String}
    (h : (p, x) ∈ planned o es) (inside : x.peek? inner = some u) :
    ∃ e ∈ es, p.keys ++ inner = splitKey e.1 ∧ u = .ofText o e.2 := by
  obtain ⟨e, he, rfl, rfl⟩ := mem_planned.1 h
  cases inner with
  | nil =>
    cases inside
    exact ⟨e, he, by rw [List.append_nil, keys_keyPath], rfl⟩
  | cons key inner => cases inside

theorem consistent_planned (apart : Apart es) : PathMap.Consistent (planned o es) := by
  rintro ⟨p, x⟩ hp ⟨q, y⟩ hq ⟨le, ne⟩
  obtain ⟨e, he, rfl, -⟩ := mem_planned.1 hp
  obtain ⟨f, hf, rfl, -⟩ := mem_planned.1 hq
  rw [keys_keyPath, keys_keyPath] at le
  exact ne (congrArg keyPath (apart e he f hf le))

theorem lastAt?_planned (nodup : (Entries.keys es).Nodup) {e : String × String} (he : e ∈ es) :
    PathMap.lastAt? (planned o es) (keyPath e.1) = some (.ofText o e.2) := by
  obtain ⟨x, last⟩ := PathMap.exists_lastAt? (mem_planned.2 ⟨e, he, rfl, rfl⟩)
  obtain ⟨f, hf, path, rfl⟩ := mem_planned.1 (PathMap.mem_of_lastAt? last)
  have key : f.1 = e.1 := by
    have := congrArg Path.keys path
    rwa [keys_keyPath, keys_keyPath, splitKey_inj] at this
  have there := Entries.get?_of_mem nodup hf
  rw [key, Entries.get?_of_mem nodup he] at there
  rw [last, Option.some.inj there]

/-- A consistent map makes the tree that holds its texts. -/
theorem exists_holds (nodup : (Entries.keys es).Nodup) (apart : Apart es) :
    ∃ v, PathMap.toValue? o (planned o es) true = .ok v ∧ Holds o es v := by
  obtain ⟨v, made, -, planted⟩ := PathMap.exists_toValue?_objectsWin o (planned o es)
  have all : PathMap.kept (planned o es) = planned o es :=
    List.filter_eq_self.2 fun e he => decide_eq_true (consistent_planned apart e he)
  rw [all] at planted
  refine ⟨v, made, ⟨fun e he => ?_, fun keys u there => ?_⟩⟩
  · obtain ⟨x, last, holds⟩ := planted.holds _ (mem_planned.2 ⟨e, he, rfl, rfl⟩)
    rw [lastAt?_planned nodup he] at last
    cases last
    rwa [keys_keyPath] at holds
  · rcases planted.only keys u there with ⟨f, -, x, inner, last, rfl, inside⟩ | ⟨way, object⟩
    · exact .inl (exists_of_mem_planned (PathMap.mem_of_lastAt? last) inside)
    · refine .inr ⟨way.imp_right fun ⟨f, hf, le, ne⟩ => ?_, object⟩
      obtain ⟨e, he, path, -⟩ := mem_planned.1 hf
      rw [← path, keys_keyPath] at le ne
      exact ⟨e, he, le, ne⟩

/-- Each text of the tree is that of an entry. -/
theorem mem_of_peek? {v : Value} {key text : String}
    (made : PathMap.toValue? o (planned o es) true = .ok v)
    (there : v.peek? (splitKey key) = some (.ofText o text)) : (key, text) ∈ es := by
  obtain ⟨w, made', -, planted⟩ := PathMap.exists_toValue?_objectsWin o (planned o es)
  cases made.symm.trans made'
  rcases planted.only _ _ there with ⟨f, -, x, inner, last, path, inside⟩ | ⟨-, fs, object, -⟩
  · have mem := (PathMap.mem_kept.1 (PathMap.mem_of_lastAt? last)).1
    obtain ⟨e, he, path', same⟩ := exists_of_mem_planned mem inside
    rw [path', splitKey_inj] at path
    injection same with _ same
    rw [path, same]
    exact he
  · cases object

end Trees

/-- A stored map is read as the tree of what is heard of it. -/
theorem exists_read_of_stores (o : Origin) {lineEnd text : List Char} {es : Entries String}
    (ending : lineEnd = ['\n'] ∨ lineEnd = ['\r', '\n']) (h : Stores lineEnd es text)
    (nodup : (Entries.keys (es.map heardEntry)).Nodup) (apart : Apart (es.map heardEntry)) :
    ∃ v, read o (String.ofList text) = .ok v ∧ Holds o (es.map heardEntry) v := by
  obtain ⟨v, made, holds⟩ := exists_holds (o := o) nodup apart
  refine ⟨v, ?_, holds⟩
  rw [read, String.toList_ofList, map_readEntry_of_stores ending h, Entries.ofPairs_of_nodup nodup]
  exact made

theorem mem_of_read {o : Origin} {lineEnd text : List Char} {es : Entries String} {v : Value}
    {e : String × String} (ending : lineEnd = ['\n'] ∨ lineEnd = ['\r', '\n'])
    (h : Stores lineEnd es text) (made : read o (String.ofList text) = .ok v)
    (there : v.peek? (splitKey e.1) = some (.ofText o e.2)) : e ∈ es.map heardEntry := by
  rw [read, String.toList_ofList, map_readEntry_of_stores ending h] at made
  exact Entries.mem_of_mem_ofPairs (mem_of_peek? made there)

/-! ### What is heard -/

/-- What is heard takes one code unit for each character. -/
theorem toNat_lt_of_mem_heardText {s : String} (h : c ∈ (heardText s).toList) :
    c.toNat < 0x10000 := by
  rw [heardText, String.toList_ofList, List.mem_flatMap] at h
  obtain ⟨d, -, h⟩ := h
  rw [heard] at h
  split at h
  · next single => rwa [List.mem_singleton.1 h]
  · obtain ⟨n, hn, h⟩ := List.mem_flatMap.1 h
    have := mem_unitEscape (lt_of_mem_units hn) h
    omega

/-- A text whose characters take one code unit each is heard as it is. -/
theorem heardText_eq {s : String} (single : ∀ c ∈ s.toList, c.toNat < 0x10000) :
    heardText s = s := by
  have same : s.toList.flatMap heard = s.toList.flatMap fun c => [c] :=
    List.flatMap_congr fun c hc => if_pos (single c hc)
  rw [heardText, same, List.flatMap_singleton', String.ofList_toList]

/-- Each character of the entry takes one code unit. -/
def IsSingle (e : String × String) : Prop := ∀ c ∈ e.1.toList ++ e.2.toList, c.toNat < 0x10000

theorem isSingle_heardEntry (e : String × String) : IsSingle (heardEntry e) := fun _ h =>
  (List.mem_append.1 h).elim toNat_lt_of_mem_heardText toNat_lt_of_mem_heardText

theorem map_heardEntry_eq {es : Entries String} (single : ∀ e ∈ es, IsSingle e) :
    es.map heardEntry = es := by
  refine (List.map_congr_left fun e he => ?_).trans (List.map_id es)
  obtain ⟨key, value⟩ := List.forall_mem_append.1 (single e he)
  rw [heardEntry, heardText_eq key, heardText_eq value]
  rfl

/-- Each map can be stored. -/
theorem exists_stores (lineEnd : List Char) (es : Entries String) :
    ∃ text, Stores lineEnd es text := by
  induction es with
  | nil => exact ⟨[], .nil⟩
  | cons e es ih =>
    obtain ⟨text, more⟩ := ih
    obtain ⟨written, h⟩ : ∃ written, StoresValue e.2.toList written := by
      -- of the spaces in front the first one is escaped
      by_cases front : e.2.toList.head? = some ' '
      · obtain ⟨rest, eq⟩ := List.head?_eq_some_iff.1 front
        rw [eq]
        exact ⟨_, .mk 1 rest nofun⟩
      · exact ⟨_, .mk 0 e.2.toList fun _ => front⟩
    exact ⟨_, .cons h more⟩

/-! ### Reading back -/

/-- **Stored maps are read back**: a map of texts no key of which leads on to another can be stored,
a line for each entry, and what is read from the lines is the tree that holds exactly its texts at
the paths of its keys, if and only if each of its characters takes one code unit.  Of another
character the letters of its escapes are read, and the tree is the one of the map with those, if its
keys still differ and none leads on to another. -/
theorem read_stored (o : Origin) {lineEnd : List Char}
    (ending : lineEnd = ['\n'] ∨ lineEnd = ['\r', '\n']) {es : Entries String}
    (nodup : (Entries.keys es).Nodup) (apart : Apart es) :
    (∃ text, Stores lineEnd es text)
      ∧ ∀ text, Stores lineEnd es text →
        ((∃ v, read o (String.ofList text) = .ok v ∧ Holds o es v) ↔ ∀ e ∈ es, IsSingle e)
        ∧ ((Entries.keys (es.map heardEntry)).Nodup → Apart (es.map heardEntry) →
          ∃ v, read o (String.ofList text) = .ok v ∧ Holds o (es.map heardEntry) v) := by
  refine ⟨exists_stores lineEnd es, fun text stored =>
    ⟨⟨fun ⟨v, made, holds⟩ e he => ?_, fun single => ?_⟩, exists_read_of_stores o ending stored⟩⟩
  · obtain ⟨e', -, rfl⟩ := List.mem_map.1 (mem_of_read ending stored made (holds.holds e he))
    exact isSingle_heardEntry e'
  · have same := map_heardEntry_eq single
    rw [← same] at nodup apart
    have back := exists_read_of_stores o ending stored nodup apart
    rwa [same] at back

theorem read_stored_example :
    let o := Origin.named "example"
    let es : Entries String := [("a.b", " é"), ("a.c d", "x = \\")]
    let text := "a.b=\\ \\u00E9\na.c\\ d=x \\= \\\\\n".toList
    ((Entries.keys es).Nodup ∧ Apart es ∧ Stores ['\n'] es text ∧ ∀ e ∈ es, IsSingle e)
      ∧ ∃ v, read o (String.ofList text) = .ok v ∧ Holds o es v := by
  intro o es text
  have nodup : (Entries.keys es).Nodup := by decide
  have apart : Apart es := by decide +kernel
  have first : StoresValue " é".toList "\\ \\u00E9".toList := .mk 1 ['é'] nofun
  have second : StoresValue "x = \\".toList "x \\= \\\\".toList :=
    .mk 0 ['x', ' ', '=', ' ', '\\'] fun _ => by decide
  have stored : Stores ['\n'] es text := .cons first (.cons second .nil)
  have all : (es.all fun e => (e.1.toList ++ e.2.toList).all (·.toNat < 0x10000)) = true := by
    decide +kernel
  have single (e) (he : e ∈ es) : IsSingle e := fun c hc =>
    of_decide_eq_true (List.all_eq_true.1 (List.all_eq_true.1 all e he) c hc)
  have back := ((read_stored o (.inl rfl) nodup apart).2 text stored).1.2 single
  exact ⟨⟨nodup, apart, stored, single⟩, back⟩

/-- A character beyond the first plane is not read back. -/
theorem read_stored_counterexample :
    let o := Origin.named "example"
    let es : Entries String := [("k", "😀")]
    let text := "k=\\uD83D\\uDE00\n".toList
    Stores ['\n'] es text ∧ (Entries.keys es).Nodup ∧ Apart es
      ∧ ∃ v, read o (String.ofList text) = .ok v
        ∧ v.peek? ["k"] = some (.ofText o "uD83DuDE00") ∧ ¬ Holds o es v := by
  intro o es text
  have escapes : ['😀'].flatMap storeChar = "\\uD83D\\uDE00".toList := by decide +kernel
  have value : StoresValue "😀".toList "\\uD83D\\uDE00".toList := by
    rw [← escapes]
    exact .mk 0 ['😀'] fun _ => by decide
  have stores : Stores ['\n'] es text := .cons value .nil
  have letters : es.map heardEntry = [("k", "uD83DuDE00")] := by decide +kernel
  have key : splitKey "k" = ["k"] := by decide +kernel
  obtain ⟨v, made, holds⟩ := exists_read_of_stores o (.inl rfl) stores
    (by decide +kernel) (by decide +kernel)
  rw [letters] at holds
  have there := holds.holds _ (List.mem_singleton_self _)
  rw [key] at there
  refine ⟨stores, by decide, by decide +kernel, v, made, there, fun holds' => ?_⟩
  have there' := holds'.holds _ (List.mem_singleton_self _)
  rw [key, there] at there'
  injection Option.some.inj there' with _ same
  exact absurd same (by decide)

end Properties

end Hocon
