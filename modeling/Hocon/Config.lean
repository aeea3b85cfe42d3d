import Hocon.Json
import Hocon.Loading
import Hocon.PathMap
import Hocon.Resolution
import Hocon.Value.Edit

/-!
# Reading a configuration

A configuration is a tree whose root is an object.  Its values are read by path expressions,
each as the kind that the reader asks for; a text stands in for a number or a Boolean, and
both stand in for a text.  Nothing is read through a reference that is not resolved, and
neither null nor an absent value is ever handed out.
-/

namespace Hocon

/-- The path that a caller gives as a text. -/
def Path.ofParameter? (text : String) : Except Error Path :=
  match Path.ofText? text with
  | .ok path => .ok path
  | .error fault => .error (.badPath (some (.named "path parameter")) text fault)

/-! ### Standing in -/

namespace Value

/-- The texts that stand for a Boolean. -/
def boolOfText? (text : String) : Option Bool :=
  if ["true", "yes", "on"].contains text then some true
  else if ["false", "no", "off"].contains text then some false
  else none

/-- The number that a text stands for; no text stands for an infinity. -/
def numberOfText? (text : String) : Option Number :=
  match readInt64? text.toList with
  | some n => some (.whole n)
  | none => ((Double.ofText? text.toList).filter Double.isFinite).map .double

/-- What a text is as another kind. -/
def standIn? (o : Origin) (text : String) : ValueType → Option Value
  | .number => (numberOfText? text).map fun n => number { origin := o } n (some text)
  | .boolean => (boolOfText? text).map fun b => bool { origin := o } b
  | .null => if text == "null" then some (null { origin := o }) else none
  | _ => none

/-- The value as the kind that is asked for, where one can stand in for the other. -/
def convert (v : Value) (expected : ValueType) : Value :=
  match v with
  | string p text _ => (standIn? p.origin text expected).getD v
  | number p _ _ | bool p _ =>
    if expected = .string then (v.scalarText?.map (ofText p.origin)).getD v else v
  | _ => v

/-- The error for reading a value that waits for a reference. -/
def notResolved (v : Value) (path : String) : Error := .pending (.reading v.origin path)

/-- The value as the expected kind: it may not wait, and it may not be null. -/
def check (v : Value) (expected : Option ValueType) (path : String) : Except Error Value :=
  if v.isPending then .error (v.notResolved path)
  else
    let v := match expected with
      | some t => v.convert t
      | none => v
    if v.isNull then .error (.null v.origin path expected)
    else
      match expected with
      | some t =>
        if v.type? = some t then .ok v
        else .error (.wrongType v.origin (.mismatch path v.type? t))
      | none => .ok v

end Value

/-! ### Configurations -/

/-- A tree whose root is an object, or a merge that will give one. -/
structure Config where
  root : Value
  isObjectValued : root.isObjectValued = true

namespace Config

/-- The configuration of a tree. -/
def ofValue? (v : Value) : Except Error Config :=
  if h : v.isObjectValued = true then .ok ⟨v, h⟩
  else .error (.wrongType v.origin (.configRoot v.type?))

/-- The configuration without settings. -/
def empty (description : String := "empty config") : Config :=
  ⟨.emptyObject (.named description), rfl⟩

/-- The configuration of a text. -/
def ofText (files : FileTree) (o : ParseOptions) (text : String) : Loading Config := do
  return ← ofValue? (← parseText files o text)

/-- The configuration of a file. -/
def ofFile (files : FileTree) (o : ParseOptions) (name : String) : Loading Config := do
  return ← ofValue? (← parseFile files o name)

/-- The configuration of a file whose name may lack its ending. -/
def ofAnySyntax (files : FileTree) (o : ParseOptions) (name : String) : Loading Config := do
  return ← ofValue? (← parseAnySyntax files o name)

/-- The configuration that JSON data describes. -/
def ofJson? (data : Json) : Except Error Config := ofValue? (.ofJson (.named "json") data)

/-- The configuration with each value at the path that an expression gives. -/
def ofPathMap? (entries : List (String × Value)) : Except Error Config := do
  let entries ← entries.mapM fun e => do return (← Path.ofParameter? e.1, e.2)
  ofValue? (← PathMap.toValue? (.named "hardcoded value") entries false)

/-- The variables of the environment. -/
def ofVariables (vars : Entries String) : Config := ⟨.ofVariables vars, rfl⟩

def origin (c : Config) : Origin := c.root.origin

/-- Whether no reference is left. -/
def isResolved (c : Config) : Bool := c.root.isResolved

/-- Whether there are no settings. -/
def isEmpty (c : Config) : Bool := c.root.isEmptyObject

/-! ### Other configurations -/

/-- The configuration with another one underneath. -/
def withFallback (c d : Config) : Config :=
  ⟨c.root.withFallback d.root, Value.isObjectValued_withFallback c.isObjectValued d.root⟩

/-- The configuration with its references looked up in itself. -/
def resolve (c : Config) (o : ResolveOptions) (next : Nat := 0) : Except Error Config :=
  if c.isResolved then .ok c else do ofValue? (← c.root.resolve o next)

/-- The configuration with its references looked up in another one. -/
def resolveIn (c source : Config) (o : ResolveOptions) (next : Nat := 0) :
    Except Error Config :=
  if c.isResolved then .ok c else do ofValue? (← c.root.resolveIn source.root o next)

/-- The configuration nested under a path. -/
def atPath (c : Config) (path : String) : Except Error Config := do
  let path ← Path.ofParameter? path
  return ⟨c.root.atPath path, c.root.isObjectValued_atPath path⟩

/-- Only what is at a path. -/
def withOnlyPath (c : Config) (path : String) : Except Error Config := do
  let path ← Path.ofParameter? path
  return ⟨c.root.withOnlyPath path, c.root.isObjectValued_withOnlyPath path⟩

/-- All but what is at a path. -/
def withoutPath (c : Config) (path : String) : Except Error Config := do
  let path ← Path.ofParameter? path
  return ⟨c.root.withoutPath path, Value.isObjectValued_withoutPath c.isObjectValued path⟩

/-- The configuration with a value at a path, whatever was there. -/
def withValue (c : Config) (path : String) (v : Value) : Except Error Config := do
  let path ← Path.ofParameter? path
  return ⟨c.root.withValueAt path v, c.root.isObjectValued_withValueAt v path⟩

/-- All settings but nulls, by their rendered paths and in order. -/
def entries (c : Config) : List (String × Value) := c.root.leaves.map fun e => (e.1.render, e.2)

/-! ### Finding values -/

/-- Whether something other than null is at the keys. -/
def hasKeys (path : String) (v : Value) : List String → Except Error Bool
  | [] => if v.isPending then .error (v.notResolved path) else .ok !v.isNull
  | key :: keys =>
    if v.isPending then .error (v.notResolved path)
    else
      match v.fields?.bind (Entries.get? · key) with
      | some child => hasKeys path child keys
      | none => .ok false

/-- Whether something other than null is at a path. -/
def hasPath (c : Config) (path : String) : Except Error Bool := do
  hasKeys path c.root (← Path.ofParameter? path).keys

/-- The value at the keys below `place`: objects on the way, and what is expected at the
end. -/
def findKeys (expected : Option ValueType) (place : Option Path) (v : Value) :
    List String → Except Error Value
  | [] => .ok v
  | key :: keys => do
    let here := Path.below place key
    match v.fields?.bind (Entries.get? · key) with
    | none => .error (.missing here.render)
    | some child =>
      let wanted := if keys.isEmpty then expected else some .object
      findKeys expected (some here) (← child.check wanted here.render) keys

/-- The value at a path, as the expected kind if there is one. -/
def find (c : Config) (path : String) (expected : Option ValueType) : Except Error Value := do
  let keys := (← Path.ofParameter? path).keys
  if c.root.isPending then .error (c.root.notResolved path)
  else findKeys expected none c.root keys

/-- What a view shows of a value. -/
def view {α : Type} (get? : Value → Option α) (v : Value) : Except Error α :=
  match get? v with
  | some a => .ok a
  | none => .error (.broken (.unreadable v.type?))

/-! ### Typed values -/

/-- Any value but null. -/
def getValue (c : Config) (path : String) : Except Error Value := c.find path none

def getBool (c : Config) (path : String) : Except Error Bool := do
  view Value.bool? (← c.find path (some .boolean))

def getString (c : Config) (path : String) : Except Error String := do
  view Value.text? (← c.find path (some .string))

def getNumber (c : Config) (path : String) : Except Error Number := do
  view Value.number? (← c.find path (some .number))

/-- A whole number of 64 bits; places after the point are dropped. -/
def getInt64 (c : Config) (path : String) : Except Error Int64 := do
  return (← c.getNumber path).truncate

/-- A whole number that 32 bits hold. -/
def getInt32 (c : Config) (path : String) : Except Error Int32 := do
  let v ← c.find path (some .number)
  let n := (← view Value.number? v).truncate
  if Number.fitsInt32 n.toInt then .ok n.toInt32
  else .error (.wrongType v.origin (.tooBigForInt32 path n))

def getDouble (c : Config) (path : String) : Except Error Double := do
  return (← c.getNumber path).toDouble

/-- The fields of an object. -/
def getFields (c : Config) (path : String) : Except Error (Entries Value) := do
  view Value.fields? (← c.find path (some .object))

/-- The object at a path as a configuration of its own. -/
def getConfig (c : Config) (path : String) : Except Error Config := do
  ofValue? (← c.find path (some .object))

def getList (c : Config) (path : String) : Except Error (List Value) := do
  view Value.items? (← c.find path (some .list))

/-- The text of an item of a list of texts. -/
def itemText (path : String) (v : Value) : Except Error String :=
  if v.isPending then .error (v.notResolved path)
  else
    let v := v.convert .string
    match v.text? with
    | some text => .ok text
    | none => .error (.wrongType v.origin (.listElement path v.type?))

/-- The texts of a list. -/
def getStringList (c : Config) (path : String) : Except Error (List String) := do
  (← c.getList path).mapM (itemText path)

/-- A quantity: a text with a unit, or a number of the unit that goes without saying. -/
def getQuantity (c : Config) (path : String) (q : Quantity) : Except Error Nat := do
  let v ← c.find path none
  let input ← match v with
    | .number _ n _ => pure n.toText
    | .string _ text _ => pure text
    | v => .error (.wrongType v.origin (.noQuantity path v.type? q))
  match q.ofText? input with
  | .ok n => .ok n
  | .error fault => .error (.badValue v.origin path fault)

/-- A length of time in nanoseconds. -/
def getDuration (c : Config) (path : String) : Except Error Nat := c.getQuantity path .duration

/-- An amount of memory in bytes. -/
def getBytes (c : Config) (path : String) : Except Error Nat := c.getQuantity path .size

end Config

end Hocon
