import Hocon.Config

/-!
# Checking against a reference

A configuration is checked against a reference tree: every setting of the reference has to
be there with a kind that can stand in for the reference's.  Null goes with everything, a
text with any scalar, and the items of a list are measured by the first item of the
reference's list.  All findings are reported, in the order of the reference.
-/

namespace Hocon

namespace Value

/-- Null, or the text that stands for it. -/
def admitsNull (v : Value) : Bool := (v.convert .null).isNull

/-- Whether `actual` will do where the reference has `expected`. -/
def accepts (expected actual : Value) : Bool :=
  if expected.admitsNull || actual.admitsNull then true
  else
    match expected.type? with
    | some .object => actual.fields?.isSome
    | some .list => actual.items?.isSome
    | some .string => actual.type? != some .object && actual.type? != some .list
    | other => actual.text?.isSome || other == actual.type?

/-- What findings call a value. -/
def summary (v : Value) : String :=
  match v.fields? with
  | some [] => "object"
  | some fields => "object with keys " ++ ", ".intercalate (Entries.keys fields)
  | none => describeType v.type?

end Value

namespace Validation

/-- The finding that a setting is absent. -/
def missing (expected : Value) (path : Path) (origin : Origin) : ValidationProblem :=
  { path, origin
    problem := "No setting at '" ++ path.render ++ "', expecting: " ++ expected.summary }

/-- The finding that a value is of the wrong kind. -/
def mismatch (expected actual : Value) (path : Path) : ValidationProblem :=
  { path, origin := actual.origin
    problem := "Wrong value type at '" ++ path.render ++ "', expecting: " ++ expected.summary
      ++ " but got: " ++ actual.summary }

/-- The finding that an item of a list is of the wrong kind. -/
def wrongItem (expected item : Value) (path : Path) : ValidationProblem :=
  { path, origin := item.origin
    problem := "List at '" ++ path.render
      ++ "' contains wrong value type, expecting list of " ++ expected.summary
      ++ " but got element of type " ++ item.summary }

/-- The first item of a list that the reference's first item does not accept. -/
def checkItems (path : Path) (expected actual : List Value) : List ValidationProblem :=
  match expected with
  | [] => []
  | first :: _ =>
    ((actual.find? fun item => !first.accepts item).map fun item =>
      wrongItem first item path).toList

mutual

/-- What is wrong with a value, measured by the reference's. -/
def checkValue (path : Path) : Value → Value → List ValidationProblem
  | .object p closed expected, actual =>
    if (Value.object p closed expected).accepts actual then
      match actual.fields? with
      | some fields => checkFields (some path) expected fields actual.origin
      | none => []
    else [mismatch (.object p closed expected) actual path]
  | expected, actual =>
    if expected.accepts actual then
      match expected.items?, actual.items? with
      | some xs, some ys => checkItems path xs ys
      | _, _ => []
    else [mismatch expected actual path]

/-- What is wrong with the fields of an object at a place, measured by the reference's. -/
def checkFields (place : Option Path) :
    Entries Value → Entries Value → Origin → List ValidationProblem
  | [], _, _ => []
  | (key, expected) :: rest, actual, origin =>
    let path := Path.below place key
    (match Entries.get? actual key with
      | some v => checkValue path expected v
      | none => [missing expected path origin])
      ++ checkFields place rest actual origin

end

/-- What is wrong at one path. -/
def checkPath (reference actual : Value) (path : Path) : List ValidationProblem :=
  match reference.peek? path.keys with
  | none => []
  | some expected =>
    match actual.peek? path.keys with
    | some v => checkValue path expected v
    | none => [missing expected path actual.origin]

/-- What is wrong with a tree, measured by a reference tree. -/
def checkRoot (reference actual : Value) : List ValidationProblem :=
  match reference.fields?, actual.fields? with
  | some expected, some fields => checkFields none expected fields actual.origin
  | _, _ => []

end Validation

/-- All that is wrong at the given paths, or anywhere if none are given. -/
def Config.problems (c reference : Config) (paths : List String) :
    Except Error (List ValidationProblem) :=
  if paths.isEmpty then .ok (Validation.checkRoot reference.root c.root)
  else do
    let findings ← paths.mapM fun text => do
      return Validation.checkPath reference.root c.root (← Path.ofParameter? text)
    return findings.flatten

/-- Checks that every setting of the reference is here with a fitting kind; only those at
the given paths, if there are any.  Both have to be resolved. -/
def Config.checkValid (c reference : Config) (paths : List String) : Except Error Unit := do
  if !reference.isResolved then .error (.broken .pendingReference)
  else if !c.isResolved then .error (.pending .validating)
  else
    match ← c.problems reference paths with
    | [] => .ok ()
    | problems => .error (.invalid problems)

end Hocon
