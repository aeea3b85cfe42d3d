import Hocon.Value

/-!
# Edits at a path

Nesting a value, setting and removing the value at a path, and keeping only one path.  The
objects that an edit rebuilds stay closed if they were, and keep the order of their keys.
-/

namespace Hocon.Value

/-- The object with the value at a single key. -/
def atKey (v : Value) (key : String) : Value := ofFields v.origin [(key, v)]

/-- The value nested under keys, the outermost first. -/
def atKeys (v : Value) : List String → Value
  | [] => v
  | key :: keys => (v.atKeys keys).atKey key

/-- The value nested under a path. -/
def atPath (v : Value) (path : Path) : Value := v.atKeys path.keys

/-- A rebuilt object: other fields, all else as it was. -/
def withFields (v : Value) (fields : Entries Value) : Value :=
  object { origin := v.origin } v.ignoresFallbacks fields

/-- The value with only what is at the keys, if anything is there. -/
def onlyKeys? (v : Value) : List String → Option Value
  | [] => some v
  | key :: keys => do
    let child ← Entries.get? (← v.fields?) key
    let kept ← child.onlyKeys? keys
    return v.withFields [(key, kept)]

/-- The value with only what is at the path, and without fields if nothing is there. -/
def withOnlyPath (v : Value) (path : Path) : Value :=
  (v.onlyKeys? path.keys).getD (v.withFields [])

/-- The value without what is at the keys; nothing else changes. -/
def withoutKeys (v : Value) : List String → Value
  | [] => v
  | key :: keys =>
    match v with
    | object _ _ fs =>
      match Entries.get? fs key, keys with
      | none, _ => v
      | some _, [] => v.withFields (Entries.drop fs key)
      | some child, next :: keys =>
        if child.fields?.isNone then v
        else v.withFields (Entries.put fs key (child.withoutKeys (next :: keys)))
    | _ => v

/-- The value without what is at the path. -/
def withoutPath (v : Value) (path : Path) : Value := v.withoutKeys path.keys

/-- The value with `new` at the keys; whatever is no object on the way is replaced. -/
def withKeysValue (v : Value) (new : Value) : List String → Value
  | [] => new
  | key :: keys =>
    let fields := v.fields?.getD []
    let child :=
      match Entries.get? fields key with
      | some (object p closed fs) => (object p closed fs).withKeysValue new keys
      | _ => new.atKeys keys
    v.withFields (Entries.put fields key child)

/-- The value with `new` at the path. -/
def withValueAt (v : Value) (path : Path) (new : Value) : Value :=
  v.withKeysValue new path.keys

/-! ### Edited objects are objects -/

theorem isObjectValued_withFields (v : Value) (fields : Entries Value) :
    (v.withFields fields).isObjectValued = true := rfl

theorem isObjectValued_atPath (v : Value) (path : Path) :
    (v.atPath path).isObjectValued = true := rfl

theorem isObjectValued_withOnlyPath (v : Value) (path : Path) :
    (v.withOnlyPath path).isObjectValued = true := by
  unfold withOnlyPath
  cases h : v.onlyKeys? path.keys with
  | none => rfl
  | some u =>
    simp only [Path.keys, onlyKeys?, Option.bind_eq_bind, Option.bind_eq_some_iff,
      Option.pure_def, Option.some.injEq] at h
    obtain ⟨_, _, _, _, _, _, rfl⟩ := h
    rfl

theorem isObjectValued_withoutPath {v : Value} (h : v.isObjectValued = true) (path : Path) :
    (v.withoutPath path).isObjectValued = true := by
  cases v with
  | object p closed fields =>
    unfold withoutPath withoutKeys
    simp only [Path.keys]
    split
    · exact h
    · rfl
    · split <;> rfl
  | _ => exact h

theorem isObjectValued_withValueAt (v new : Value) (path : Path) :
    (v.withValueAt path new).isObjectValued = true := rfl

/-! ### Leaves -/

mutual

/-- All values below objects that are no objects themselves, with the keys that lead to
them, in order; `place` is the path of the value, none for the root. -/
def leavesFrom (place : Option Path) : Value → List (Path × Value)
  | object _ _ fs => leavesOfFields place fs
  | null _ => []
  | v => (place.map fun p => (p, v)).toList

def leavesOfFields (place : Option Path) : Entries Value → List (Path × Value)
  | [] => []
  | (k, v) :: fs => v.leavesFrom (some (Path.below place k)) ++ leavesOfFields place fs

end

/-- All values of the tree other than objects and nulls, with their paths. -/
def leaves (v : Value) : List (Path × Value) := v.leavesFrom none

end Hocon.Value
