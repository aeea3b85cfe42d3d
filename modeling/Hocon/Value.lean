import Hocon.Entries
import Hocon.Number
import Hocon.Origin
import Hocon.Path
import Hocon.Text.Blank

/-!
# Values

A value is a tree.  Besides the six kinds of JSON, a tree that is not resolved yet holds
references, concatenations that wait for one, and merges that wait for one.

Every node has a provenance: its origin, and a mark that tells it from equal nodes.  Two
places of a tree with one mark hold one and the same node.  Most operations make nodes
without a mark; `Value.markFrom` gives fresh marks to those.  Below a node that has a mark all
nodes have one.
-/

namespace Hocon

/-- Where a node comes from, and which node it is. -/
structure Provenance where
  origin : Origin
  mark : Option Nat := none
  deriving DecidableEq, Repr

/-- Whether the node can be told from equal ones. -/
def Provenance.isMarked (p : Provenance) : Bool := p.mark.isSome

def Provenance.withMark (p : Provenance) (mark : Nat) : Provenance := { p with mark := some mark }

/-- A reference in a tree. -/
structure Reference where
  target : PathReference
  /-- How many keys at the front were put there because the document was included under a
  path; a lookup that fails is tried again without them. -/
  included : Nat := 0
  deriving DecidableEq, Repr

/-- What the top layer of a waiting merge is. -/
inductive MergeKind where
  /-- The top layer is an object, so the result will be one. -/
  | object
  | value
  deriving DecidableEq, Repr

/-- A configuration value. -/
inductive Value where
  | null (prov : Provenance)
  | bool (prov : Provenance) (value : Bool)
  /-- A number, with its spelling if it was read from a text. -/
  | number (prov : Provenance) (value : Number) (spelling : Option String)
  /-- A text; that it was quoted matters only for blanks between joined pieces. -/
  | string (prov : Provenance) (text : String) (quoted : Bool)
  /-- Fields in order.  A closed object takes nothing from what it falls back to. -/
  | object (prov : Provenance) (closed : Bool) (fields : List (String × Value))
  | list (prov : Provenance) (items : List Value)
  | reference (prov : Provenance) (ref : Reference)
  /-- Pieces that are joined once their references are known. -/
  | concat (prov : Provenance) (pieces : List Value)
  /-- Layers that are merged once their references are known, the topmost first. -/
  | merge (prov : Provenance) (kind : MergeKind) (layers : List Value)

/-- The kinds that a resolved value can have. -/
inductive ValueType where
  | object
  | list
  | number
  | boolean
  | null
  | string
  deriving DecidableEq, Repr

/-- The name of the kind in messages. -/
def ValueType.name : ValueType → String
  | object => "object"
  | list => "list"
  | number => "number"
  | boolean => "boolean"
  | null => "null"
  | string => "string"

namespace Value

/-! ### Provenance -/

def prov : Value → Provenance
  | null p => p
  | bool p _ => p
  | number p _ _ => p
  | string p _ _ => p
  | object p _ _ => p
  | list p _ => p
  | reference p _ => p
  | concat p _ => p
  | merge p _ _ => p

def origin (v : Value) : Origin := v.prov.origin

def mark (v : Value) : Option Nat := v.prov.mark

/-- The same content with another provenance. -/
def withProv (v : Value) (p : Provenance) : Value :=
  match v with
  | null _ => null p
  | bool _ b => bool p b
  | number _ n t => number p n t
  | string _ t q => string p t q
  | object _ c fs => object p c fs
  | list _ xs => list p xs
  | reference _ r => reference p r
  | concat _ ps => concat p ps
  | merge _ k ls => merge p k ls

/-- A new node with the same content and another origin. -/
def withOrigin (v : Value) (o : Origin) : Value := v.withProv { origin := o }

/-! ### New nodes -/

/-- A whole number. -/
def ofInt64 (o : Origin) (n : Int64) (spelling : Option String) : Value :=
  number { origin := o } (.whole n) spelling

/-- A double. -/
def ofDouble (o : Origin) (d : Double) (spelling : Option String) : Value :=
  number { origin := o } (.double d) spelling

/-- A quoted text. -/
def ofText (o : Origin) (text : String) : Value := string { origin := o } text true

/-- A text without quotes. -/
def bareText (o : Origin) (text : String) : Value := string { origin := o } text false

/-- An object that is open to fallbacks. -/
def ofFields (o : Origin) (fields : Entries Value) : Value := object { origin := o } false fields

/-- The object without fields. -/
def emptyObject (o : Origin) : Value := ofFields o []

def ofItems (o : Origin) (items : List Value) : Value := list { origin := o } items

/-- A reference that was not included from elsewhere. -/
def ofReference (o : Origin) (target : PathReference) : Value :=
  reference { origin := o } { target }

/-! ### Views -/

def fields? : Value → Option (Entries Value)
  | object _ _ fs => some fs
  | _ => none

def items? : Value → Option (List Value)
  | list _ xs => some xs
  | _ => none

def text? : Value → Option String
  | string _ t _ => some t
  | _ => none

def bool? : Value → Option Bool
  | bool _ b => some b
  | _ => none

def number? : Value → Option Number
  | number _ n _ => some n
  | _ => none

def isNull : Value → Bool
  | null _ => true
  | _ => false

/-- Whether this is an object without fields. -/
def isEmptyObject : Value → Bool
  | object _ _ [] => true
  | _ => false

/-- Whether this is an object, or a merge that will give one. -/
def isObjectValued : Value → Bool
  | object _ _ _ => true
  | merge _ .object _ => true
  | _ => false

/-- The kind of a resolved value; the others have none, but a merge onto an object counts as
an object already. -/
def type? : Value → Option ValueType
  | null _ => some .null
  | bool _ _ => some .boolean
  | number _ _ _ => some .number
  | string _ _ _ => some .string
  | object _ _ _ => some .object
  | list _ _ => some .list
  | merge _ .object _ => some .object
  | _ => none

/-- The text that a scalar stands for in a joined text. -/
def scalarText? : Value → Option String
  | null _ => some "null"
  | bool _ b => some (if b then "true" else "false")
  | number _ n spelling => some (spelling.getD n.toText)
  | string _ t _ => some t
  | _ => none

/-- Whether this is text without quotes and of blanks only. -/
def isBlankText : Value → Bool
  | string _ t false => t.toList.all Text.isBlank
  | _ => false

/-- The value at a path through plain objects. -/
def peek? (v : Value) : List String → Option Value
  | [] => some v
  | key :: keys => do
    let child ← Entries.get? (← v.fields?) key
    child.peek? keys

/-! ### Resolved values -/

/-- Whether the node itself waits for a reference. -/
def isPending : Value → Bool
  | reference _ _ => true
  | concat _ _ => true
  | merge _ _ _ => true
  | _ => false

mutual

/-- Whether no node of the tree waits for a reference. -/
def isResolved : Value → Bool
  | object _ _ fs => fieldsResolved fs
  | list _ xs => itemsResolved xs
  | reference _ _ => false
  | concat _ _ => false
  | merge _ _ _ => false
  | _ => true

def fieldsResolved : Entries Value → Bool
  | [] => true
  | (_, v) :: fs => v.isResolved && fieldsResolved fs

def itemsResolved : List Value → Bool
  | [] => true
  | v :: vs => v.isResolved && itemsResolved vs

end

mutual

/-- Whether nothing that this value falls back to can show through it: resolved values other
than objects, closed objects, and merges that end with such a layer. -/
def ignoresFallbacks : Value → Bool
  | object _ closed _ => closed
  | merge _ _ layers => lastIgnoresFallbacks layers
  | reference _ _ => false
  | concat _ _ => false
  | list _ xs => itemsResolved xs
  | _ => true

def lastIgnoresFallbacks : List Value → Bool
  | [] => false
  | [v] => v.ignoresFallbacks
  | _ :: vs => lastIgnoresFallbacks vs

end

/-! ### Values in messages -/

mutual

/-- The value as messages show it. -/
def describe : Value → String
  | null _ => "null"
  | bool _ b => if b then "true" else "false"
  | number _ n _ => n.toText
  | string _ t _ => Text.showQuoted t
  | object _ _ fs => "\x7b" ++ ", ".intercalate (describeFields fs) ++ "\x7d"
  | list _ xs => "[" ++ ", ".intercalate (describeItems xs) ++ "]"
  | reference _ r => r.target.render
  | concat _ ps => "Concatenation([" ++ ", ".intercalate (describeItems ps) ++ "])"
  | merge _ .value ls => "DelayedMerge([" ++ ", ".intercalate (describeItems ls) ++ "])"
  | merge _ .object ls =>
    "DelayedMergeObject([" ++ ", ".intercalate (describeItems ls) ++ "])"

def describeFields : Entries Value → List String
  | [] => []
  | (k, v) :: fs => (Text.showQuoted k ++ ": " ++ v.describe) :: describeFields fs

def describeItems : List Value → List String
  | [] => []
  | v :: vs => v.describe :: describeItems vs

end

/-! ### Marks -/

mutual

/-- The tree with marks from `next` on, and the first mark that is still free.  A node that
has a mark stays as it is, and so does all below it. -/
def markFrom (next : Nat) : Value → Value × Nat
  | null p => if p.isMarked then (null p, next) else (null (p.withMark next), next + 1)
  | bool p b => if p.isMarked then (bool p b, next) else (bool (p.withMark next) b, next + 1)
  | number p n t =>
    if p.isMarked then (number p n t, next) else (number (p.withMark next) n t, next + 1)
  | string p t q =>
    if p.isMarked then (string p t q, next) else (string (p.withMark next) t q, next + 1)
  | reference p r =>
    if p.isMarked then (reference p r, next) else (reference (p.withMark next) r, next + 1)
  | object p c fs =>
    if p.isMarked then (object p c fs, next)
    else
      let r := markFields (next + 1) fs
      (object (p.withMark next) c r.1, r.2)
  | list p xs =>
    if p.isMarked then (list p xs, next)
    else
      let r := markItems (next + 1) xs
      (list (p.withMark next) r.1, r.2)
  | concat p xs =>
    if p.isMarked then (concat p xs, next)
    else
      let r := markItems (next + 1) xs
      (concat (p.withMark next) r.1, r.2)
  | merge p k xs =>
    if p.isMarked then (merge p k xs, next)
    else
      let r := markItems (next + 1) xs
      (merge (p.withMark next) k r.1, r.2)

def markFields (next : Nat) : Entries Value → Entries Value × Nat
  | [] => ([], next)
  | (k, v) :: fs =>
    let q := v.markFrom next
    let r := markFields q.2 fs
    ((k, q.1) :: r.1, r.2)

def markItems (next : Nat) : List Value → List Value × Nat
  | [] => ([], next)
  | v :: vs =>
    let q := v.markFrom next
    let r := markItems q.2 vs
    (q.1 :: r.1, r.2)

end

mutual

/-- A mark above all marks of the tree. -/
def freeMark : Value → Nat
  | object p _ fs => max (above p) (freeMarkOfFields fs)
  | list p xs => max (above p) (freeMarkOfItems xs)
  | concat p xs => max (above p) (freeMarkOfItems xs)
  | merge p _ xs => max (above p) (freeMarkOfItems xs)
  | null p => above p
  | bool p _ => above p
  | number p _ _ => above p
  | string p _ _ => above p
  | reference p _ => above p
where
  /-- A mark above the mark of one node. -/
  above (p : Provenance) : Nat := (p.mark.map (· + 1)).getD 0

def freeMarkOfFields : Entries Value → Nat
  | [] => 0
  | (_, v) :: fs => max v.freeMark (freeMarkOfFields fs)

def freeMarkOfItems : List Value → Nat
  | [] => 0
  | v :: vs => max v.freeMark (freeMarkOfItems vs)

end

end Value

end Hocon
