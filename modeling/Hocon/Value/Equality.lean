import Hocon.Value

/-!
# Equality of values

Two values are equal if they hold the same, whatever their origins, the order of their
keys, the quotes of their texts and the spellings of their numbers.  Not-a-number equals
nothing, itself included, except where both sides are one and the same node.

`Value.digest` is what hashing may look at: equal values have equal digests, apart from the
whole numbers that a double cannot hold exactly.
-/

namespace Hocon.Value

/-- Whether two provenances belong to one and the same node. -/
def sameNode (p q : Provenance) : Bool := p.mark.isSome && p.mark == q.mark

mutual

def equals : Value → Value → Bool
  | null _, null _ => true
  | bool _ a, bool _ b => a == b
  | number p a _, number q b _ => a.equals b || sameNode p q
  | string _ a _, string _ b _ => a == b
  | object _ _ fs, object _ _ gs => fs.length == gs.length && fieldsEqual fs gs
  | list _ xs, list _ ys => itemsEqual xs ys
  | reference _ r, reference _ s => r.target == s.target
  | concat _ xs, concat _ ys => itemsEqual xs ys
  | merge _ j xs, merge _ k ys => j == k && itemsEqual xs ys
  | _, _ => false

/-- Whether every field has an equal one with the same key on the other side. -/
def fieldsEqual : Entries Value → Entries Value → Bool
  | [], _ => true
  | (k, v) :: fs, gs =>
    (match Entries.get? gs k with
      | some w => equals v w
      | none => false) && fieldsEqual fs gs

def itemsEqual : List Value → List Value → Bool
  | [], [] => true
  | x :: xs, y :: ys => equals x y && itemsEqual xs ys
  | _, _ => false

end

/-! ### Digests -/

/-- A piece of a digest. -/
inductive Digit where
  | nothing
  | flag (b : Bool)
  | whole (n : Int64)
  | bits (n : Nat)
  | text (s : String)
  | count (n : Nat)
  deriving DecidableEq, Repr

/-- The digest of a number: a whole number is told from others by its value alone. -/
def digestNumber (n : Number) : Digit :=
  match n.toWhole? with
  | some w => .whole w
  | none => .bits n.toDouble.bits

/-- Keys in the order of their characters, whatever the order of insertion. -/
def sortByKey {α : Type} (es : Entries α) : Entries α :=
  es.mergeSort fun a b => (compare a.1 b.1).isLE

mutual

/-- What hashing looks at. -/
def digest : Value → List Digit
  | null _ => [.nothing]
  | bool _ b => [.flag b]
  | number _ n _ => [digestNumber n]
  | string _ t _ => [.text t]
  | object _ _ fs => (sortByKey (fieldDigests fs)).flatMap fun f => .text f.1 :: f.2
  | list _ xs => .count xs.length :: itemDigests xs
  | reference _ r =>
    .count r.target.path.length :: r.target.path.keys.map .text ++ [.flag r.target.optional]
  | concat _ xs => .count xs.length :: itemDigests xs
  | merge _ _ xs => .count xs.length :: itemDigests xs

def fieldDigests : Entries Value → Entries (List Digit)
  | [] => []
  | (k, v) :: fs => (k, v.digest) :: fieldDigests fs

def itemDigests : List Value → List Digit
  | [] => []
  | v :: vs => v.digest ++ itemDigests vs

end

end Hocon.Value
