import Hocon.Error

/-!
# Looking through waiting merges

The value at a path of a tree that is resolved only in part.  A merge onto an object can be
looked into as far as no layer that waits may still add to the key or hide it.
-/

namespace Hocon.Value

/-- What a stack of layers has at the first key of a path.  A value that takes fallbacks may
be added to by the layers below, so it does not count; a layer that waits leaves the answer
open, and any other layer that is no object hides what is below. -/
def peekLayers (path : Path) (whole : Origin) : List Value → Except Error (Option Value)
  | [] => .error (.broken .nothingPending)
  | layer :: layers =>
    match layer.fields? with
    | some fields =>
      match Entries.get? fields path.first with
      -- a field that takes fallbacks may still be added to from below
      | some v => if v.ignoresFallbacks then .ok (some v) else peekLayers path whole layers
      | none => peekLayers path whole layers
    | none =>
      if layer.isPending then
        .error (.pending (.hidden path path.first whole layer.origin))
      else .ok none

/-- What a value has at the first key of a path. -/
def peekFirst (path : Path) : Value → Except Error (Option Value)
  | object _ _ fields => .ok (Entries.get? fields path.first)
  | merge p .object layers => peekLayers path p.origin layers
  | _ => .ok none

/-- The value at a path through objects and merges onto objects. -/
def peekThrough (v : Value) (first : String) : List String → Except Error (Option Value)
  | [] => v.peekFirst ⟨first, []⟩
  | next :: rest => do
    match ← v.peekFirst ⟨first, next :: rest⟩ with
    | some child => if child.isObjectValued then child.peekThrough next rest else return none
    | none => return none

end Hocon.Value
