import Hocon.Value

/-!
# Moving a document under a path

A document that is included under a path refers to its own values by paths that start at
its own root.  `Value.relocate` puts the path of the including field in front of every
reference, and the references remember how many keys that added.
-/

namespace Hocon.Value

mutual

/-- The value with every reference moved under `place`.  A part without references stays as
it is, the very same node. -/
def relocate (place : Path) : Value → Value
  | reference p r =>
    reference { origin := p.origin }
      { target := { r.target with path := r.target.path.prepend place }
        included := r.included + place.length }
  | object p closed fs =>
    if fieldsResolved fs then object p closed fs
    else object { origin := p.origin } closed (relocateFields place fs)
  | list p xs =>
    if itemsResolved xs then list p xs else list { origin := p.origin } (relocateItems place xs)
  | concat p ps => concat { origin := p.origin } (relocateItems place ps)
  | merge p k ls => merge { origin := p.origin } k (relocateItems place ls)
  | v => v

def relocateFields (place : Path) : Entries Value → Entries Value
  | [] => []
  | (k, v) :: fs => (k, v.relocate place) :: relocateFields place fs

def relocateItems (place : Path) : List Value → List Value
  | [] => []
  | v :: vs => v.relocate place :: relocateItems place vs

end

end Hocon.Value
