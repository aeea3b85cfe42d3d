import Hocon.Error

/-!
# Trees from paths

A list of paths with values makes a tree, if no path that holds a value leads to another
one.  Where objects win, such a value is left out instead.
-/

namespace Hocon

/-- A tree under construction: a value at the end of a path, or what lies further on. -/
inductive PathTree where
  | leaf (value : Value)
  | branch (children : List (String × PathTree))

namespace PathTree

/-- The branch with a value at the end of some keys; nothing if they lead through a value. -/
def insert? (value : Value) : List String → Entries PathTree → Option (Entries PathTree)
  | [], children => some children
  | [key], children => some (Entries.put children key (leaf value))
  | key :: keys, children =>
    match Entries.get? children key with
    | none => (insert? value keys []).map fun inner => Entries.put children key (branch inner)
    | some (branch inner) =>
      (insert? value keys inner).map fun inner => Entries.put children key (branch inner)
    | some (leaf _) => none

mutual

/-- The value of the tree; its branches become objects. -/
def toValue (o : Origin) : PathTree → Value
  | leaf v => v
  | branch children => .ofFields o (childValues o children)

def childValues (o : Origin) : Entries PathTree → Entries Value
  | [] => []
  | (key, t) :: ts => (key, t.toValue o) :: childValues o ts

end

end PathTree

namespace PathMap

/-- Whether `p` leads to another path: its keys are the first of longer ones. -/
def isScope (entries : List (Path × Value)) (p : Path) : Bool :=
  entries.any fun e => p.length < e.1.length && e.1.startsWith p

/-- Puts the entries into a tree, one after the other. -/
def build (all : List (Path × Value)) (objectsWin : Bool) :
    List (Path × Value) → Entries PathTree → Except Error (Entries PathTree)
  | [], tree => .ok tree
  | (path, value) :: rest, tree =>
    if isScope all path then
      if objectsWin then build all objectsWin rest tree
      else .error (.broken (.valueAndParent path))
    else
      match PathTree.insert? value path.keys tree with
      | some tree => build all objectsWin rest tree
      | none => .error (.broken (.throughValue path))

/-- The tree that holds each value at its path; a later entry replaces an earlier one with
the same path. -/
def toValue? (o : Origin) (entries : List (Path × Value)) (objectsWin : Bool) :
    Except Error Value :=
  (build entries objectsWin entries []).map fun tree => (PathTree.branch tree).toValue o

end PathMap

end Hocon
