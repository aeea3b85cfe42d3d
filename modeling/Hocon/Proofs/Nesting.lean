import Hocon.Proofs.Layout

/-!
# Keys of several parts are objects in objects

A field whose key is a path stands for objects in objects: `a.b = 1` means what `a { b = 1 }` means,
whatever the fields before and behind it are.  `Nests` says how such a field is written with braces.
`Body.Nested` and its like say of two documents that they are the same, but for fields of the one
that are written with braces in the other, at any depth.  Such documents are parsed to the same tree
(`Document.follows_nested`).
-/

namespace Hocon

open Value Document

/-! ### Fields in braces -/

/-- A field at a path with braces for each key but the last one, from its first key on.  What it
puts at this key is a row again; `tail` is the sign and the value behind the last key. -/
inductive Nests (grows : Bool) (row : Row) (tail : List TokenKind) :
    String → List String → Bool → Row → List TokenKind → Prop
  | last {key : String} {keys : List TokenKind} (hkey : WritesKey (.ofKey key) keys) :
      Nests grows row tail key [] grows row (keys ++ tail)
  | outer {key inner : String} {path : List String} {grows' : Bool} {row' : Row}
      {keys kinds : List TokenKind} (m n : Nat) (hkey : WritesKey (.ofKey key) keys)
      (h : Nests grows row tail inner path grows' row' kinds) :
      Nests grows row tail key (inner :: path) false
        (.mk (.object (.field (.ofKey inner) grows' row' .nil)) .nil)
        (keys ++ .openBrace :: (newlines m ++ (kinds ++ (newlines n ++ [.closeBrace]))))

mutual

/-- Two ways of writing a term that are the same, but for fields that are in braces in the
latter. -/
inductive Term.Nested : Term → List TokenKind → Term → List TokenKind → Prop
  | same {term : Term} {kinds : List TokenKind} (h : Term.Written term kinds) :
      Term.Nested term kinds term kinds
  | object (n : Nat) {body body' : Body} {kinds kinds' : List TokenKind}
      (h : Body.Nested body kinds body' kinds') :
      Term.Nested (.object body) (.openBrace :: (newlines n ++ (kinds ++ [.closeBrace])))
        (.object body') (.openBrace :: (newlines n ++ (kinds' ++ [.closeBrace])))
  | list (n : Nat) {rows rows' : Rows} {kinds kinds' : List TokenKind}
      (h : Rows.Nested rows kinds rows' kinds') :
      Term.Nested (.list rows) (.openBracket :: (newlines n ++ (kinds ++ [.closeBracket])))
        (.list rows') (.openBracket :: (newlines n ++ (kinds' ++ [.closeBracket])))

/-- The same of terms beside each other. -/
inductive Terms.Nested : Terms → List TokenKind → Terms → List TokenKind → Prop
  | nil : Terms.Nested .nil [] .nil []
  | cons {term term' : Term} {terms terms' : Terms} {ks ks' qs qs' : List TokenKind}
      (head : Term.Nested term ks term' ks') (tail : Terms.Nested terms qs terms' qs') :
      Terms.Nested (.cons term terms) (ks ++ qs) (.cons term' terms') (ks' ++ qs')

/-- The same of values. -/
inductive Row.Nested : Row → List TokenKind → Row → List TokenKind → Prop
  | mk {term term' : Term} {terms terms' : Terms} {ks ks' qs qs' : List TokenKind}
      (head : Term.Nested term ks term' ks') (tail : Terms.Nested terms qs terms' qs') :
      Row.Nested (.mk term terms) (ks ++ qs) (.mk term' terms') (ks' ++ qs')

/-- The same of the items of lists. -/
inductive Rows.Nested : Rows → List TokenKind → Rows → List TokenKind → Prop
  | nil : Rows.Nested .nil [] .nil []
  | cons {row row' : Row} {rows rows' : Rows} {ks ks' gap qs qs' : List TokenKind}
      (hrow : Row.Nested row ks row' ks') (hgap : WritesGap rows.isNil gap)
      (hrest : Rows.Nested rows qs rows' qs') :
      Rows.Nested (.cons row rows) (ks ++ (gap ++ qs)) (.cons row' rows') (ks' ++ (gap ++ qs'))

/-- The same of fields and include statements; here is a field that is put in braces. -/
inductive Body.Nested : Body → List TokenKind → Body → List TokenKind → Prop
  | nil : Body.Nested .nil [] .nil []
  | field {key : Path} {grows : Bool} {row row' : Row} {body body' : Body}
      {keys link ks ks' gap qs qs' : List TokenKind} (hkey : WritesKey key keys)
      (hlink : WritesLink grows row link) (hrow : Row.Nested row ks row' ks')
      (hgap : WritesGap body.isNil gap) (hrest : Body.Nested body qs body' qs') :
      Body.Nested (.field key grows row body) (keys ++ (link ++ (ks ++ (gap ++ qs))))
        (.field key grows row' body') (keys ++ (link ++ (ks' ++ (gap ++ qs'))))
  | inclusion {request : IncludeRequest} {body body' : Body} {ks gap qs qs' : List TokenKind}
      (h : WritesInclusion request ks) (hgap : WritesGap body.isNil gap)
      (hrest : Body.Nested body qs body' qs') :
      Body.Nested (.inclusion request body) (ks ++ (gap ++ qs))
        (.inclusion request body') (ks ++ (gap ++ qs'))
  | braces {first : String} {path : List String} {grows grows' : Bool} {row row' row'' : Row}
      {body body' : Body} {keys link ks ks' whole gap qs qs' : List TokenKind}
      (hkey : WritesKey ⟨first, path⟩ keys) (hlink : WritesLink grows row link)
      (hrow : Row.Nested row ks row' ks')
      (nests : Nests grows row' (link ++ ks') first path grows' row'' whole)
      (hgap : WritesGap body.isNil gap) (hrest : Body.Nested body qs body' qs') :
      Body.Nested (.field ⟨first, path⟩ grows row body) (keys ++ (link ++ (ks ++ (gap ++ qs))))
        (.field (.ofKey first) grows' row'' body') (whole ++ (gap ++ qs'))

end

/-- Two documents that are the same, but for fields that are in braces in the latter. -/
inductive Script.Nested : Script → List TokenKind → Script → List TokenKind → Prop
  | object (m n : Nat) {body body' : Body} {ks ks' : List TokenKind}
      (h : Term.Nested (.object body) ks (.object body') ks') :
      Script.Nested (.term (.object body)) (newlines m ++ (ks ++ newlines n))
        (.term (.object body')) (newlines m ++ (ks' ++ newlines n))
  | list (m n : Nat) {rows rows' : Rows} {ks ks' : List TokenKind}
      (h : Term.Nested (.list rows) ks (.list rows') ks') :
      Script.Nested (.term (.list rows)) (newlines m ++ (ks ++ newlines n))
        (.term (.list rows')) (newlines m ++ (ks' ++ newlines n))
  | body (n : Nat) {body body' : Body} {ks ks' : List TokenKind}
      (h : Body.Nested body ks body' ks') :
      Script.Nested (.body body) (newlines n ++ ks) (.body body') (newlines n ++ ks')

/-! ### What a field in braces means -/

/-- A path is the same in front of its first key and behind it. -/
theorem Path.under_append (place : List String) (first key : String) (rest : List String) :
    Path.under (place ++ [first]) ⟨key, rest⟩ = Path.under place ⟨first, key :: rest⟩ := by
  cases place with
  | nil => rfl
  | cons lead place =>
    show (⟨lead, (place ++ [first]) ++ key :: rest⟩ : Path) = ⟨lead, place ++ first :: key :: rest⟩
    rw [List.append_assoc, List.singleton_append]

/-- The same value at the same key. -/
theorem Follows.definedFields {x y : Loading Value} (h : Follows SameTree x y)
    {fs gs : Entries Value} (same : SameEntries fs gs) (place : List String) (key : Path)
    (grows : Bool) : Follows SameEntries (x >>= fun v => definedFields place fs key grows v)
      (y >>= fun v => definedFields place gs key grows v) :=
  h.bind fun _ _ same' => same.definedFields same' place key grows

namespace Nests

variable {grows grows' : Bool} {row row' : Row} {tail whole : List TokenKind} {first : String}
  {path : List String}

/-- **A field in braces means what the field without them means.** -/
theorem follows (h : Nests grows row tail first path grows' row' whole)
    (answer : IncludeRequest → Loading Value) (place : List String) (gs : Entries Value) :
    Follows SameEntries
      (do
        let v ← row.sense answer (place ++ first :: path)
        definedFields place gs ⟨first, path⟩ grows v)
      (do
        let v ← row'.sense answer (place ++ [first])
        definedFields place gs (.ofKey first) grows' v) := by
  induction h generalizing place gs with
  | last => exact Follows.same (R := SameEntries) (fun _ => rfl) _
  | @outer key inner path grows' row' keys kinds m n hkey h ih =>
    have inside := ih (place ++ [key]) []
    have there : place ++ [key] ++ inner :: path = place ++ key :: inner :: path := by
      rw [List.append_assoc, List.singleton_append]
    rw [there] at inside
    -- the fields in braces are put at the first key
    have put : ∀ fs fs', SameEntries fs fs' → Follows SameEntries
        (pure (includeFields gs [(key, .ofFields (mergedOrigin []) fs)]) : Loading _)
        (definedFields place gs (.ofKey key) false (.ofFields (mergedOrigin []) fs')) :=
      fun fs fs' same => .pure (SameEntries.includeField rfl (same.ofFields _ _) key)
    have braces : (Row.mk (.object (.field (.ofKey inner) grows' row' .nil)) .nil).sense answer
          (place ++ [key])
        = (do
          let v ← row'.sense answer (place ++ [key] ++ [inner])
          definedFields (place ++ [key]) [] (.ofKey inner) grows' v) >>= fun fs =>
            return .ofFields (mergedOrigin []) fs := by
      simp only [Row.sense, Term.sense, Terms.sense, Body.sense, bind_assoc, pure_bind]
      rfl
    rw [braces, bind_assoc]
    simp only [pure_bind]
    have dotted : Follows SameEntries
        (row.sense answer (place ++ key :: inner :: path) >>= fun v =>
          definedFields place gs ⟨key, inner :: path⟩ grows v)
        ((row.sense answer (place ++ key :: inner :: path) >>= fun v =>
          definedFields (place ++ [key]) [] ⟨inner, path⟩ grows v) >>= fun fs =>
            pure (includeFields gs [(key, .ofFields (mergedOrigin []) fs)])) := by
      rw [bind_assoc]
      refine Follows.bind (Follows.same (R := Eq) (fun _ => rfl) _) ?_
      rintro v _ rfl
      simp only [definedFields, bind_assoc, pure_bind, Path.under_append]
      refine Follows.bind (Follows.same (R := Eq) (fun _ => rfl) _) ?_
      rintro v _ rfl
      have nested : (nest v (inner :: path)).SameTree
          (.ofFields (mergedOrigin []) (includeFields [] [(inner, nest v path)])) :=
        SameEntries.ofFields (rfl : SameEntries [(inner, nest v path)] [(inner, nest v path)]) _ _
      exact .pure (SameEntries.includeField rfl nested key)
    exact dotted.trans (inside.bind put) fun fs gs hs left right => left.trans right

/-- A field in braces is a field. -/
theorem written {link ks : List TokenKind} (hlink : WritesLink grows row link)
    (hrow : Row.Written row ks) (h : Nests grows row (link ++ ks) first path grows' row' whole) :
    WritesMember (.field (.ofKey first) grows' row') whole := by
  induction h with
  | last hkey => exact .field hkey hlink hrow
  | @outer key inner path grows' row' keys kinds m n hkey h ih =>
    have body : Body.Written (.field (.ofKey inner) grows' row' .nil) kinds := by
      have alone : Body.Written (.field (.ofKey inner) grows' row' .nil) (kinds ++ ([] ++ [])) :=
        ih.written .nothing .nil
      rwa [List.nil_append, List.append_nil] at alone
    exact .field hkey (.object 0 _) (.ofTerm (body.braced m n))

end Nests

/-! ### Documents with fields in braces -/

theorem Rows.Nested.isNil_eq {rows rows' : Rows} {ks ks' : List TokenKind}
    (h : Rows.Nested rows ks rows' ks') : rows'.isNil = rows.isNil := by
  cases h <;> rfl

theorem Body.Nested.isNil_eq {body body' : Body} {ks ks' : List TokenKind}
    (h : Body.Nested body ks body' ks') : body'.isNil = body.isNil := by
  cases h <;> rfl

/-- An object in front of which no sign stands is one still. -/
theorem WritesLink.nested {grows : Bool} {row row' : Row} {link ks ks' : List TokenKind}
    (h : WritesLink grows row link) (hrow : Row.Nested row ks row' ks') :
    WritesLink grows row' link := by
  cases h with
  | sign m n row h => exact .sign m n row' h
  | object m body =>
    cases hrow with
    | mk head tail =>
      cases tail
      cases head with
      | same => exact .object m body
      | object n h => exact .object m _

mutual

/-- Both are ways of writing their terms. -/
theorem Term.Nested.written {term term' : Term} {ks ks' : List TokenKind} :
    Term.Nested term ks term' ks' → Term.Written term ks ∧ Term.Written term' ks'
  | .same h => ⟨h, h⟩
  | .object n h => ⟨.object n h.written.1, .object n h.written.2⟩
  | .list n h => ⟨.list n h.written.1, .list n h.written.2⟩

theorem Terms.Nested.written {terms terms' : Terms} {ks ks' : List TokenKind} :
    Terms.Nested terms ks terms' ks' → Terms.Written terms ks ∧ Terms.Written terms' ks'
  | .nil => ⟨.nil, .nil⟩
  | .cons head tail =>
    ⟨.cons head.written.1 tail.written.1, .cons head.written.2 tail.written.2⟩

theorem Row.Nested.written {row row' : Row} {ks ks' : List TokenKind} :
    Row.Nested row ks row' ks' → Row.Written row ks ∧ Row.Written row' ks'
  | .mk head tail => ⟨.mk head.written.1 tail.written.1, .mk head.written.2 tail.written.2⟩

theorem Rows.Nested.written {rows rows' : Rows} {ks ks' : List TokenKind} :
    Rows.Nested rows ks rows' ks' → Rows.Written rows ks ∧ Rows.Written rows' ks'
  | .nil => ⟨.nil, .nil⟩
  | .cons hrow hgap hrest =>
    ⟨.cons hrow.written.1 hgap hrest.written.1,
      .cons hrow.written.2 (hrest.isNil_eq ▸ hgap) hrest.written.2⟩

theorem Body.Nested.written {body body' : Body} {ks ks' : List TokenKind} :
    Body.Nested body ks body' ks' → Body.Written body ks ∧ Body.Written body' ks'
  | .nil => ⟨.nil, .nil⟩
  | .field hkey hlink hrow hgap hrest =>
    ⟨.field hkey hlink hrow.written.1 hgap hrest.written.1,
      .field hkey (hlink.nested hrow) hrow.written.2 (hrest.isNil_eq ▸ hgap) hrest.written.2⟩
  | .inclusion h hgap hrest =>
    ⟨.inclusion h hgap hrest.written.1, .inclusion h (hrest.isNil_eq ▸ hgap) hrest.written.2⟩
  | .braces hkey hlink hrow nests hgap hrest =>
    ⟨.field hkey hlink hrow.written.1 hgap hrest.written.1,
      (nests.written (hlink.nested hrow) hrow.written.2).written (hrest.isNil_eq ▸ hgap)
        hrest.written.2⟩

end

theorem Script.Nested.written {script script' : Script} {ks ks' : List TokenKind}
    (h : Script.Nested script ks script' ks') : script.Written ks ∧ script'.Written ks' := by
  cases h with
  | object m n h => exact ⟨.object m n h.written.1, .object m n h.written.2⟩
  | list m n h => exact ⟨.list m n h.written.1, .list m n h.written.2⟩
  | body n h => exact ⟨.body n h.written.1, .body n h.written.2⟩

/-- Nothing has to be put in braces. -/
theorem written_nested : WrittenCases (fun term ks => Term.Nested term ks term ks)
    (fun terms ks => Terms.Nested terms ks terms ks) (fun row ks => Row.Nested row ks row ks)
    (fun rows ks => Rows.Nested rows ks rows ks) (fun body ks => Body.Nested body ks body ks) where
  literal literal := .same (.literal literal)
  bare text := .same (.bare text)
  reference optional _ _ h := .same (.reference optional h)
  object n _ _ _ inner := .object n inner
  list n _ _ _ inner := .list n inner
  noTerm := .nil
  terms _ _ head tail := .cons head tail
  row _ _ head tail := .mk head tail
  noRow := .nil
  rows _ hgap _ head tail := .cons head hgap tail
  noField := .nil
  field hkey hlink _ hgap _ head tail := .field hkey hlink head hgap tail
  inclusion h hgap _ tail := .inclusion h hgap tail

section Sense

variable {answer : IncludeRequest → Loading Value}

mutual

/-- **They mean the same**, wherever they stand. -/
theorem Term.Nested.follows {term term' : Term} {ks ks' : List TokenKind} (place : List String) :
    Term.Nested term ks term' ks' →
    Follows SameTree (term.sense answer place) (term'.sense answer place)
  | .same _ => .sameTree _
  | .object n h => by
    rw [Term.sense, Term.sense]
    exact (Body.Nested.follows place rfl h).bind fun _ _ same => .pure (same.ofFields _ _)
  | .list n h => by
    rw [Term.sense, Term.sense]
    exact (Rows.Nested.follows place h).bind fun _ _ same => .pure (same.ofItems _ _)

theorem Terms.Nested.follows {terms terms' : Terms} {ks ks' : List TokenKind}
    (place : List String) : Terms.Nested terms ks terms' ks' →
    Follows SameTrees (terms.sense answer place) (terms'.sense answer place)
  | .nil => .same (R := SameTrees) (fun _ => rfl) _
  | .cons head tail => by
    rw [Terms.sense, Terms.sense]
    refine (Term.Nested.follows place head).bind fun v w same => ?_
    refine (Terms.Nested.follows place tail).bind fun vs ws sames => ?_
    exact .pure (congrArg₂ List.cons same sames)

theorem Row.Nested.follows {row row' : Row} {ks ks' : List TokenKind} (place : List String) :
    Row.Nested row ks row' ks' →
    Follows SameTree (row.sense answer place) (row'.sense answer place)
  | .mk head tail => by
    rw [Row.sense, Row.sense]
    refine (Term.Nested.follows place head).bind fun v w same => ?_
    refine (Terms.Nested.follows place tail).bind fun vs ws sames => ?_
    exact SameTrees.joinedValue (congrArg₂ List.cons same sames)

theorem Rows.Nested.follows {rows rows' : Rows} {ks ks' : List TokenKind} (place : List String) :
    Rows.Nested rows ks rows' ks' →
    Follows SameTrees (rows.sense answer place) (rows'.sense answer place)
  | .nil => .same (R := SameTrees) (fun _ => rfl) _
  | .cons hrow _ hrest => by
    rw [Rows.sense, Rows.sense]
    refine (Row.Nested.follows place hrow).bind fun v w same => ?_
    refine (Rows.Nested.follows place hrest).bind fun vs ws sames => ?_
    exact .pure (congrArg₂ List.cons same sames)

theorem Body.Nested.follows {body body' : Body} {ks ks' : List TokenKind} (place : List String)
    {fs gs : Entries Value} (same : SameEntries fs gs) : Body.Nested body ks body' ks' →
    Follows SameEntries (body.sense answer place fs) (body'.sense answer place gs)
  | .nil => .pure same
  | .field _ _ hrow _ hrest => by
    rw [Body.sense, Body.sense, ← bind_assoc, ← bind_assoc]
    exact ((Row.Nested.follows _ hrow).definedFields same place _ _).bind fun fs gs same =>
      Body.Nested.follows place same hrest
  | .inclusion _ _ hrest => by
    rw [Body.sense, Body.sense]
    exact (same.includedFields answer place _).bind fun fs gs same =>
      Body.Nested.follows place same hrest
  | .braces _ _ hrow nests _ hrest => by
    rw [Body.sense, Body.sense, ← bind_assoc, ← bind_assoc]
    refine Follows.bind (R := SameEntries) ?_ fun fs gs same => Body.Nested.follows place same hrest
    exact ((Row.Nested.follows _ hrow).definedFields same place _ _).trans
      (nests.follows answer place gs) fun _ _ _ left right => Eq.trans left right

end

theorem Script.Nested.follows {script script' : Script} {ks ks' : List TokenKind}
    (h : Script.Nested script ks script' ks') :
    Follows SameTree (script.sense answer) (script'.sense answer) := by
  cases h with
  | object m n h => exact h.follows []
  | list m n h => exact h.follows []
  | body n h => exact (h.follows [] rfl).bind fun _ _ same => .pure (same.ofFields _ _)

end Sense

namespace Document

/-- Two texts that are the same, but for fields at paths in the former that are in braces in the
latter; blanks and comments do not count. -/
def Nested (a b : String) : Prop :=
  ∃ script script', Script.Nested script ((itemsOf a).map Item.kind) script'
    ((itemsOf b).map Item.kind)

/-- **Keys of several parts are objects in objects.**  A document in which fields at paths are put
in braces is parsed to the same tree, whatever stands around them and at whatever depth they are. -/
theorem follows_nested (files : FileTree) {o : ParseOptions} (conf : o.syn.getD .conf = .conf)
    {a b : String} (h : Nested a b) :
    Follows SameTree (parseText files o a) (parseText files o b) := by
  obtain ⟨script, script', nested⟩ := h
  obtain ⟨ha, hb⟩ := nested.written
  exact follows_parseText files conf ha hb fun answer => nested.follows

/-- A field inside an object that grows what it held before. -/
theorem follows_nested_example :
    Nested "x\x7ba.b+=v\x7d" "x\x7ba\x7bb+=v\x7d\x7d"
      ∧ Follows SameTree (parseText {} {} "x\x7ba.b+=v\x7d")
        (parseText {} {} "x\x7ba\x7bb+=v\x7d\x7d") := by
  have front : (itemsOf "x\x7ba.b+=v\x7d").map Item.kind
      = [.bare "x", .openBrace, .bare "a.b", .plusEquals, .bare "v", .closeBrace] :=
    Lexed.items <| .front rfl (by decide) rfl rfl <| .firstSign rfl <|
      .front rfl (by decide) rfl rfl <| .front rfl (by decide) rfl rfl <|
      .front rfl (by decide) rfl rfl <| .firstSign rfl <| .stop rfl
  have back : (itemsOf "x\x7ba\x7bb+=v\x7d\x7d").map Item.kind
      = [.bare "x", .openBrace, .bare "a", .openBrace, .bare "b", .plusEquals, .bare "v",
        .closeBrace, .closeBrace] :=
    Lexed.items <| .front rfl (by decide) rfl rfl <| .firstSign rfl <|
      .front rfl (by decide) rfl rfl <| .firstSign rfl <|
      .front rfl (by decide) rfl rfl <| .front rfl (by decide) rfl rfl <|
      .front rfl (by decide) rfl rfl <| .firstSign rfl <| .firstSign rfl <| .stop rfl
  have nested : Nested "x\x7ba.b+=v\x7d" "x\x7ba\x7bb+=v\x7d\x7d" := by
    have x : WritesKey (.ofKey "x") [.bare "x"] := ⟨rfl, by decide⟩
    have ab : WritesKey ⟨"a", ["b"]⟩ [.bare "a.b"] := ⟨rfl, by decide⟩
    have a : WritesKey (.ofKey "a") [.bare "a"] := ⟨rfl, by decide⟩
    have b : WritesKey (.ofKey "b") [.bare "b"] := ⟨rfl, by decide⟩
    have value : Row.Nested _ [.bare "v"] _ [.bare "v"] :=
      written_nested.ofRow (.ofTerm (.bare "v"))
    have nests : Nests true (.mk (.bare "v") .nil) ([.plusEquals] ++ [.bare "v"]) "a" ["b"] _ _ _ :=
      .outer 0 0 a (.last b)
    have inner : Body.Nested (.field ⟨"a", ["b"]⟩ true _ .nil) _
        (.field (.ofKey "a") false _ .nil) _ :=
      .braces ab (.sign 0 0 _ .plusEquals) value nests .nothing .nil
    have outer : Body.Nested (.field (.ofKey "x") false _ .nil) _ (.field _ _ _ .nil) _ :=
      .field x (.object 0 _) (.mk (.object 0 inner) .nil) .nothing .nil
    rw [Nested, front, back]
    exact ⟨_, _, .body 0 outer⟩
  exact ⟨nested, follows_nested {} rfl nested⟩

/-- A bare `include` is no key of its own: it starts a statement. -/
theorem follows_nested_counterexample :
    (∃ v, (parseText {} {} "include.b = 1").run.run [] = (.ok v, []))
      ∧ ¬ ∃ v m, (parseText {} {} "include \x7b b = 1 \x7d").run.run [] = (.ok v, m) := by
  have left : ((parseText {} {} "include.b = 1").run.run []).1.toOption.isSome
      && ((parseText {} {} "include.b = 1").run.run []).2.isEmpty := by
    rw [parseText, Document.load, dif_pos (by decide)]
    decide +kernel
  have right : ((parseText {} {} "include \x7b b = 1 \x7d").run.run []).1.toOption.isNone := by
    rw [parseText, Document.load, dif_pos (by decide)]
    decide +kernel
  constructor
  · rcases run : (parseText {} {} "include.b = 1").run.run [] with ⟨e | v, m⟩
    · rw [run] at left
      cases left
    · rw [run] at left
      cases List.isEmpty_iff.1 left
      exact ⟨v, rfl⟩
  · rintro ⟨v, m, run⟩
    rw [run] at right
    cases right

end Document

end Hocon
