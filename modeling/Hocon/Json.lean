import Hocon.Error

/-!
# JSON data

Plain data without origins.  `Value.ofJson` turns it into a tree, and `Value.toJson?` turns
a resolved tree into data; what JSON cannot hold, an infinity or not-a-number, becomes null.
-/

namespace Hocon

/-- JSON data.  Keys stand in the order of the text. -/
inductive Json where
  | null
  | bool (value : Bool)
  | whole (value : Int64)
  | double (value : Double)
  | string (text : String)
  | array (items : List Json)
  | object (fields : List (String × Json))
  deriving Inhabited

namespace Value

mutual

/-- The tree of some data, every node with the same origin.  Keys are taken as they are. -/
def ofJson (o : Origin) : Json → Value
  | .null => null { origin := o }
  | .bool b => bool { origin := o } b
  | .whole n => ofInt64 o n none
  | .double d => ofDouble o d none
  | .string t => ofText o t
  | .array xs => ofItems o (ofJsonItems o xs)
  | .object fs => ofFields o (ofJsonFields o fs)

def ofJsonItems (o : Origin) : List Json → List Value
  | [] => []
  | j :: js => ofJson o j :: ofJsonItems o js

def ofJsonFields (o : Origin) : List (String × Json) → Entries Value
  | [] => []
  | (k, j) :: fs => (k, ofJson o j) :: ofJsonFields o fs

end

/-- The data of a number. -/
def numberToJson : Number → Json
  | .whole n => .whole n
  | .double d => if d.isFinite then .double d else .null

mutual

/-- The data of a resolved tree. -/
def toJson? : Value → Except Error Json
  | null _ => .ok .null
  | bool _ b => .ok (.bool b)
  | number _ n _ => .ok (numberToJson n)
  | string _ t _ => .ok (.string t)
  | object _ _ fs => (toJsonFields? fs).map .object
  | list _ xs => (toJsonItems? xs).map .array
  | reference p _ => .error (.pending (.converting p.origin))
  | concat p _ => .error (.pending (.converting p.origin))
  | merge p _ _ => .error (.pending (.converting p.origin))

def toJsonItems? : List Value → Except Error (List Json)
  | [] => .ok []
  | v :: vs =>
    match v.toJson?, toJsonItems? vs with
    | .error e, _ => .error e
    | .ok _, .error e => .error e
    | .ok j, .ok js => .ok (j :: js)

def toJsonFields? : Entries Value → Except Error (List (String × Json))
  | [] => .ok []
  | (k, v) :: fs =>
    match v.toJson?, toJsonFields? fs with
    | .error e, _ => .error e
    | .ok _, .error e => .error e
    | .ok j, .ok js => .ok ((k, j) :: js)

end

end Value

end Hocon
