import Hocon.Proofs.Hiding

/-!
# References that vanish beside lists and objects

Lists beside each other are appended and objects are merged, and blanks between them only separate.
A reference that comes to nothing leaves the blanks on both of its sides.  Behind a list or an
object these still separate and nothing else, so it makes no difference where in the row
references vanish (`Value.joinOnto_container`).

The first place is the exception.  A blank that nothing stands in front of is text, and what is text
cannot be joined with a list or an object: where the first reference vanishes and a later one does
not, the row has the wrong type (`Resolution.resolve_spaced`).
-/

namespace Hocon

namespace Value

/-! ### Lists and objects -/

/-- What is put together over blanks: lists, or objects. -/
inductive Container where
  | list
  | object

namespace Container

/-- Whether a value is one of these. -/
def Holds : Container → Value → Prop
  | list, v => v.items?.isSome = true
  | object, v => v.fields?.isSome = true

/-- What two neighbours become; the later object is on top. -/
def together : Container → Value → Value → Value
  | list, left, right =>
    ofItems (left.origin.merge right.origin) (left.items?.getD [] ++ right.items?.getD [])
  | object, left, right => right.withFallback left

variable {kind : Container} {left right v w : Value} {nullIsEmpty : Bool}

theorem Holds.isContainer (h : kind.Holds v) :
    v.isObjectValued = true ∨ v.items?.isSome = true := by
  cases kind with
  | list => exact .inr h
  | object =>
    cases v with
    | object => exact .inl rfl
    | _ => cases h

theorem Holds.isPending (h : kind.Holds v) : v.isPending = false := by
  cases kind <;> cases v <;> first | rfl | cases h

theorem Holds.together (hl : kind.Holds left) (hr : kind.Holds right) :
    kind.Holds (kind.together left right) := by
  cases kind with
  | list => rfl
  | object => exact isSome_fields?_withFallback hr hl

theorem Holds.join? (hl : kind.Holds left) (hr : kind.Holds right) :
    join? nullIsEmpty left right = .ok (some (kind.together left right)) := by
  cases kind with
  | list =>
    cases left with
    | list => cases right <;> first | rfl | cases hr
    | _ => cases hl
  | object =>
    cases left with
    | object => cases right <;> first | rfl | cases hr
    | _ => cases hl

end Container

/-! ### Blanks between them -/

/-- A text of blanks only, with quotes or without. -/
def IsBlanks (v : Value) : Prop :=
  ∃ p t quoted, v = string p t quoted ∧ t.toList.all Text.isBlank = true

variable {kind : Container} {left v w : Value}

theorem isBlanks_of_isBlankText (h : v.isBlankText = true) : v.IsBlanks := by
  cases v with
  | string p t quoted =>
    cases quoted with
    | false => exact ⟨p, t, false, rfl, h⟩
    | true => cases h
  | _ => cases h

theorem IsBlanks.isPending (h : v.IsBlanks) : v.isPending = false := by
  obtain ⟨p, t, quoted, rfl, -⟩ := h
  rfl

/-- Blanks behind a container only separate. -/
theorem join?_blank (hl : kind.Holds left) (blank : v.isBlankText = true) :
    join? true left v = .ok (some left) := by
  obtain ⟨p, t, quoted, rfl, -⟩ := isBlanks_of_isBlankText blank
  rw [join?_of_container hl.isContainer hl.isPending, if_pos blank]

/-- Blanks in front of blanks are one text with them. -/
theorem IsBlanks.join? (hv : v.IsBlanks) (hw : w.IsBlanks) :
    ∃ u, join? true v w = .ok (some u) ∧ u.IsBlanks := by
  obtain ⟨p, t, quoted, rfl, ht⟩ := hv
  obtain ⟨q, t', quoted', rfl, ht'⟩ := hw
  refine ⟨_, rfl, _, t ++ t', true, rfl, ?_⟩
  rw [String.toList_append, List.all_append, ht, ht']
  rfl

/-- Blanks in front of a container are text. -/
theorem IsBlanks.join?_container (hv : v.IsBlanks) (hw : kind.Holds w) :
    ∃ o fault, Value.join? true v w = .error (.wrongType o fault) := by
  obtain ⟨p, t, quoted, rfl, -⟩ := hv
  cases kind <;> cases w <;> first | exact ⟨_, _, rfl⟩ | cases hw

/-- A blank and what is behind it: a list or an object, or nothing if the reference vanished. -/
structure Neighbour (kind : Container) where
  blank : Value
  found : Option Value
  isBlank : blank.isBlankText = true
  holds : ∀ w ∈ found, kind.Holds w

namespace Neighbour

/-- What is left to be joined. -/
def remains (n : Neighbour kind) : List Value := n.blank :: n.found.toList

/-- The lists or objects that are there. -/
def present (row : List (Neighbour kind)) : List Value := row.filterMap found

variable {row : List (Neighbour kind)}

theorem isPending_remains : ∀ v ∈ row.flatMap remains, v.isPending = false := by
  intro v hv
  obtain ⟨n, -, hv⟩ := List.mem_flatMap.1 hv
  rcases List.mem_cons.1 hv with rfl | hv
  · exact (isBlanks_of_isBlankText n.isBlank).isPending
  · exact (n.holds v (Option.mem_toList.1 hv)).isPending

end Neighbour

open Neighbour

/-- **Behind a list or an object it makes no difference where references vanish**: what is there is
put together in order. -/
theorem joinOnto_container (hl : kind.Holds left) (row : List (Neighbour kind)) :
    joinOnto true [left] (row.flatMap remains)
      = .ok [(present row).foldl kind.together left] := by
  induction row generalizing left with
  | nil => rfl
  | cons n row ih =>
    obtain ⟨blank, found, isBlank, holds⟩ := n
    rw [List.flatMap_cons, remains, List.cons_append, joinOnto, join?_blank hl isBlank]
    cases found with
    | none => exact ih hl
    | some w =>
      have hw := holds w rfl
      show joinOnto true [left] (w :: row.flatMap remains) = _
      rw [joinOnto, hl.join? hw]
      exact ih (hl.together hw)

/-- Behind blanks alone nothing but blanks can stand. -/
theorem joinOnto_blanks (hl : left.IsBlanks) (row : List (Neighbour kind)) :
    match present row with
    | [] => ∃ w, joinOnto true [left] (row.flatMap remains) = .ok [w] ∧ w.IsBlanks
    | _ :: _ => ∃ o fault,
      joinOnto true [left] (row.flatMap remains) = .error (.wrongType o fault) := by
  induction row generalizing left with
  | nil => exact ⟨left, rfl, hl⟩
  | cons n row ih =>
    obtain ⟨blank, found, isBlank, holds⟩ := n
    obtain ⟨u, hu, blanks⟩ := hl.join? (isBlanks_of_isBlankText isBlank)
    rw [List.flatMap_cons, remains, List.cons_append, joinOnto, hu]
    cases found with
    | none => exact ih blanks
    | some w =>
      obtain ⟨o, fault, he⟩ := blanks.join?_container (holds w rfl)
      refine ⟨o, fault, ?_⟩
      show joinOnto true [u] (w :: row.flatMap remains) = _
      rw [joinOnto, he]

/-- A row that starts with a list or an object is all that is there of it. -/
theorem joinRun_present {x : Value} (hx : kind.Holds x) {row : List (Neighbour kind)}
    (more : row ≠ []) :
    joinRun true (x :: row.flatMap remains) = .ok [(present row).foldl kind.together x] := by
  have free : ∀ v ∈ x :: row.flatMap remains, v.isPending = false :=
    List.forall_mem_cons.2 ⟨hx.isPending, isPending_remains⟩
  obtain ⟨n, row, rfl⟩ := List.exists_cons_of_ne_nil more
  rw [joinRun, if_neg (by simp [remains]), flattenPieces_of_isPending free]
  exact joinOnto_container hx (n :: row)

/-- A row of which the first vanished is blanks, if nothing is there at all. -/
theorem joinRun_vanished {row : List (Neighbour kind)} (more : row ≠ []) :
    match present row with
    | [] => ∃ w, joinRun true (row.flatMap remains) = .ok [w] ∧ w.IsBlanks
    | _ :: _ => ∃ o fault, joinRun true (row.flatMap remains) = .error (.wrongType o fault) := by
  obtain ⟨n, row, rfl⟩ := List.exists_cons_of_ne_nil more
  have free : ∀ v ∈ (n :: row).flatMap remains, v.isPending = false := isPending_remains
  -- a blank alone stays as it is, and so it does in front of the others
  have run : joinRun true ((n :: row).flatMap remains)
      = joinOnto true [n.blank] (n.found.toList ++ row.flatMap remains) := by
    rw [joinRun, flattenPieces_of_isPending free, List.flatMap_cons, remains, List.cons_append]
    split
    · next short =>
      have alone : n.found.toList ++ row.flatMap remains = [] := by
        refine List.eq_nil_of_length_eq_zero ?_
        rw [List.length_cons] at short
        omega
      rw [alone]
      rfl
    · rfl
  rw [run]
  obtain ⟨blank, found, isBlank, holds⟩ := n
  have blanks := isBlanks_of_isBlankText isBlank
  cases found with
  | none => exact joinOnto_blanks blanks row
  | some w =>
    obtain ⟨o, fault, he⟩ := blanks.join?_container (holds w rfl)
    refine ⟨o, fault, ?_⟩
    show joinOnto true [blank] (w :: row.flatMap remains) = _
    rw [joinOnto, he]

end Value

namespace Resolution

open Value Value.Neighbour

variable {s : Setting} {c : Surroundings} {m m₁ : Memory} {kind : Container} {along : Option Path}

/-! ### Resolving a row -/

/-- References in a row with blanks between them, and what comes of each reference but the first. -/
abbrev Row (kind : Container) := List (Value × Neighbour kind)

/-- The pieces as they are written. -/
def Row.written (first : Value) (row : Row kind) : List Value :=
  first :: row.flatMap fun r => [r.2.blank, r.1]

/-- What becomes of the pieces. -/
def Row.results (first : Option Value) (row : Row kind) : List (Option Value) :=
  first :: row.flatMap fun r => [some r.2.blank, r.2.found]

theorem Row.filterMap_results (first : Option Value) (row : Row kind) :
    (Row.results first row).filterMap id = first.toList ++ (row.map (·.2)).flatMap remains := by
  have rest : (row.flatMap fun r => [some r.2.blank, r.2.found]).filterMap id
      = (row.map (·.2)).flatMap remains := by
    induction row with
    | nil => rfl
    | cons r row ih =>
      rw [List.flatMap_cons, List.filterMap_append, ih, List.map_cons, List.flatMap_cons]
      cases h : r.2.found <;> simp [remains, h]
  rw [results, List.filterMap_cons, rest]
  cases first <;> rfl

/-- Joining comes after all pieces are resolved. -/
theorem resolveNode_row {p : Provenance} {reference : Value} {first : Option Value} {row : Row kind}
    (items : (resolveItems s c (Row.written reference row)).run.run m
      = (.ok (Row.results first row), m₁)) :
    (resolveNode s c (.concat p (Row.written reference row)) along).run.run m
      = (joinPieces s (.concat p (Row.written reference row))
          (first.toList ++ (row.map (·.2)).flatMap remains)).run.run m₁ := by
  rw [resolveNode, run_bind_of_ok items, Row.filterMap_results]

/-- **References in a row that come to lists, or all to objects, or to nothing.**  Where the first
is there, the row resolves to all that is there, put together in order, wherever others vanished.
Where none is there, it resolves to the blanks.  Where the first vanished and a later one is there,
the row has the wrong type. -/
theorem resolve_spaced {p : Provenance} {reference : Value} {first : Option Value} {row : Row kind}
    (holds : ∀ w ∈ first, kind.Holds w) (more : row ≠ [])
    (items : (resolveItems s c (Row.written reference row)).run.run m
      = (.ok (Row.results first row), m₁)) :
    (∀ x, first = some x →
        (resolveNode s c (.concat p (Row.written reference row)) along).run.run m
          = (some <$> renew ((present (row.map (·.2))).foldl kind.together x)).run.run m₁)
      ∧ (first = none → present (row.map (·.2)) = [] → ∃ w, w.IsBlanks
        ∧ (resolveNode s c (.concat p (Row.written reference row)) along).run.run m
          = (some <$> renew w).run.run m₁)
      ∧ (first = none → present (row.map (·.2)) ≠ [] → ∃ o fault,
        (resolveNode s c (.concat p (Row.written reference row)) along).run.run m
          = (.error (.error (.wrongType o fault)), m₁)) := by
  rw [resolveNode_row items]
  unfold joinPieces
  have more : row.map (·.2) ≠ [] := by simpa using more
  have vanished := joinRun_vanished more
  refine ⟨?there, ?none, ?later⟩
  case there =>
    rintro x rfl
    rw [Option.toList_some, List.singleton_append, joinRun_present (holds x rfl) more]
    rfl
  case none =>
    rintro rfl absent
    rw [absent] at vanished
    obtain ⟨w, joined, blanks⟩ := vanished
    refine ⟨w, blanks, ?_⟩
    rw [Option.toList_none, List.nil_append, joined]
    rfl
  case later =>
    rintro rfl present
    obtain ⟨y, ys, later⟩ := List.exists_cons_of_ne_nil present
    rw [later] at vanished
    obtain ⟨o, fault, failed⟩ := vanished
    refine ⟨o, fault, ?_⟩
    rw [Option.toList_none, List.nil_append, failed]
    rfl

/-- Two lists with a reference to nothing between them. -/
theorem resolve_spaced_example :
    let root := marked (object onLine false
      [("a", .list onLine [lineNumber 1]), ("b", .list onLine [lineNumber 2]),
        ("c", .concat onLine [lineRef (.ofKey "a") false, bareText onLine.origin " ",
          lineRef (.ofKey "none") true, bareText onLine.origin " ",
          lineRef (.ofKey "b") false])]) 0
    ∃ (p : Provenance) (reference x : Value) (row : Row .list) (m₁ m₂ : Memory) (w : Value),
      root.1.peek? ["c"] = some (.concat p (Row.written reference row)) ∧ row ≠ []
      ∧ (∀ w ∈ some x, Container.list.Holds w)
      ∧ (resolveItems (settingOf {} root.1 root.2) (surroundingsOf root.1)
          (Row.written reference row)).run.run (startOf {} root.2)
        = (.ok (Row.results (some x) row), m₁)
      ∧ (resolveNode (settingOf {} root.1 root.2) (surroundingsOf root.1)
          (.concat p (Row.written reference row)) none).run.run (startOf {} root.2)
        = (.ok (some w), m₂)
      ∧ w.items?.map List.length = some 2 := by
  intro root
  let blank (n : Nat) (found : Option Value) (holds : ∀ w ∈ found, Container.list.Holds w) :
      Neighbour .list := ⟨.string (onLine.withMark n) " " false, found, rfl, holds⟩
  let ref (n : Nat) (path : Path) (optional : Bool) : Value :=
    ((lineRef path optional).markFrom n).1
  let item (n i : Nat) : Value := ((Value.list onLine [lineNumber i]).markFrom n).1
  let row : Row .list := [(ref 8 (.ofKey "none") true, blank 7 none nofun),
    (ref 10 (.ofKey "b") false, blank 9 (some (item 3 2)) (by rintro _ ⟨⟩; rfl))]
  have items : ((resolveItems (settingOf {} root.1 root.2) (surroundingsOf root.1)
      (Row.written (ref 6 (.ofKey "a") false) row)).run.run (startOf {} root.2)).1
      = .ok (Row.results (some (item 1 1)) row) := by cbv
  have holds : ∀ w ∈ some (item 1 1), Container.list.Holds w := by rintro _ ⟨⟩; rfl
  have run := (Prod.ext items rfl : (resolveItems (settingOf {} root.1 root.2)
    (surroundingsOf root.1) (Row.written (ref 6 (.ofKey "a") false) row)).run.run
      (startOf {} root.2) = (.ok (Row.results (some (item 1 1)) row), _))
  have more : row ≠ [] := List.cons_ne_nil _ _
  exact ⟨onLine.withMark 5, _, _, row, _, _, _, rfl, more, holds, run,
    (resolve_spaced holds more run).1 _ rfl, rfl⟩

/-- A text in which a row of references has the wrong type, although the first of them may have no
target, and the others point at lists, or all of them at objects. -/
def RowFails (text : String) : Prop :=
  ∃ (root : Value) (kind : Container) (p : Provenance) (row : Row kind) (o : Origin)
    (fault : TypeFault),
    ((parseText {} {} text).run.run []).1 = .ok root
      ∧ root.peek? ["none"] = none
      ∧ root.peek? ["c"] = some (.concat p (Row.written (lineRef (.ofKey "none") true) row))
      ∧ (∀ r ∈ row, ∃ path, r.1 = lineRef path false ∧ r.2.found.isSome = true
        ∧ root.peek? path.keys = r.2.found)
      ∧ root.resolve {} = .error (.wrongType o fault)

theorem RowFails.of_target {text : String} (kind : Container) (v : Value) (holds : kind.Holds v)
    (read : (Document.readAlone text).toOption = some (object onLine false [("b", v),
      ("c", .concat onLine [lineRef (.ofKey "none") true, bareText onLine.origin " ",
        lineRef (.ofKey "b") false])]))
    (fails : (match (object onLine false [("b", v), ("c", .concat onLine
        [lineRef (.ofKey "none") true, bareText onLine.origin " ",
          lineRef (.ofKey "b") false])]).resolve {} with
      | .error (.wrongType _ _) => true
      | _ => false) = true) : RowFails text := by
  split at fails
  · next o fault failed =>
    refine ⟨_, kind, onLine, [(lineRef (.ofKey "b") false, ⟨bareText onLine.origin " ", some v, rfl,
      ?_⟩)], o, fault, Document.parsed_of_readAlone {} read rfl, rfl, rfl, ?_, failed⟩
    · rintro _ ⟨⟩
      exact holds
    · intro r hr
      cases List.mem_singleton.1 hr
      exact ⟨.ofKey "b", rfl, rfl, rfl⟩
  · cases fails

/-- A list, and an object, behind a reference to nothing. -/
theorem resolve_spaced_counterexample :
    RowFails "b = [1], c = $\x7b?none\x7d $\x7bb\x7d"
      ∧ RowFails "b = \x7bx: 1\x7d, c = $\x7b?none\x7d $\x7bb\x7d" := by
  refine ⟨?list, ?object⟩
  case list =>
    exact .of_target .list (.list onLine [lineNumber 1]) rfl (by decide +kernel) (by cbv)
  case object =>
    exact .of_target .object (.object onLine false [("x", lineNumber 1)]) rfl
      (by decide +kernel) (by cbv)

end Resolution

end Hocon
