import Hocon.Text.Quoted

/-!
# Paths

A path is one key or more; it leads through nested objects.  Its type has no empty path, so
the first and the last key always exist.  `Path.render` writes it with periods between the
keys and quotes around those that need them.
-/

namespace Hocon

/-- One key or more. -/
structure Path where
  first : String
  rest : List String
  deriving DecidableEq, Repr, Inhabited

namespace Path

/-- The path of a single key. -/
def ofKey (key : String) : Path := ⟨key, []⟩

/-- The path of the given keys, if there are any. -/
def ofKeys? : List String → Option Path
  | [] => none
  | first :: rest => some ⟨first, rest⟩

def keys (p : Path) : List String := p.first :: p.rest

def length (p : Path) : Nat := p.keys.length

def last (p : Path) : String := p.rest.getLastD p.first

/-- The path without its first key. -/
def remainder? (p : Path) : Option Path := ofKeys? p.rest

/-- The path without its last key. -/
def parent? (p : Path) : Option Path := ofKeys? p.keys.dropLast

/-- The path without its first `n` keys. -/
def drop? (p : Path) (n : Nat) : Option Path := ofKeys? (p.keys.drop n)

/-- `lead` followed by `p`. -/
def prepend (p lead : Path) : Path := ⟨lead.first, lead.rest ++ p.keys⟩

/-- `p` followed by one more key. -/
def child (p : Path) (key : String) : Path := ⟨p.first, p.rest ++ [key]⟩

/-- The path of a key below a place, where no path stands for the root. -/
def below (place : Option Path) (key : String) : Path :=
  match place with
  | some p => p.child key
  | none => ofKey key

/-- Whether `p` begins with the keys of `lead`. -/
def startsWith (p lead : Path) : Bool := lead.keys.isPrefixOf p.keys

/-- Keys in order, each compared by its characters. -/
def compareKeys : List String → List String → Ordering
  | [], [] => .eq
  | [], _ :: _ => .lt
  | _ :: _, [] => .gt
  | a :: as, b :: bs => (compare a b).then (compareKeys as bs)

def order (p q : Path) : Ordering := compareKeys p.keys q.keys

@[simp] theorem keys_prepend (p lead : Path) : (p.prepend lead).keys = lead.keys ++ p.keys := rfl

@[simp] theorem keys_ne_nil (p : Path) : p.keys ≠ [] := List.cons_ne_nil _ _

@[simp] theorem ofKeys?_keys (p : Path) : ofKeys? p.keys = some p := rfl

theorem ofKeys?_eq_some_iff {ks : List String} {p : Path} : ofKeys? ks = some p ↔ p.keys = ks := by
  refine ⟨fun h => ?_, fun h => h ▸ rfl⟩
  cases ks with
  | nil => cases h
  | cons k ks => cases h; rfl

/-! ### Text -/

/-- A key as a path spells it. -/
def renderKey (key : String) : String :=
  if key.toList.all (fun c => c == '-' || c == '_' || Text.isWordChar c) && key != "" then key
  else Text.quote key

/-- The path as a path expression. -/
def render (p : Path) : String := ".".intercalate (p.keys.map renderKey)

end Path

/-- What stands between `${` and `}`: a path, and whether a value has to be there. -/
structure PathReference where
  path : Path
  optional : Bool
  deriving DecidableEq, Repr

/-- The reference as a document spells it. -/
def PathReference.render (r : PathReference) : String :=
  "$\x7b" ++ (if r.optional then "?" else "") ++ r.path.render ++ "\x7d"

end Hocon
