import Hocon.Error

/-!
# What a resolution remembers

Each node is resolved once: the results are kept under the node's mark, together with the
path along which alone it was resolved, if any.  What was found out stays known when a step
fails, since the failure may be caught further up.
-/

namespace Hocon.Resolution

/-- Why a value could not be resolved. -/
inductive Failure where
  /-- A reference came back to itself; the trace holds all that were being looked up. -/
  | cycle (trace : List PathReference)
  | error (e : Error)

/-- A result, and the part of the node for which it holds: all of it, or what is along a
path. -/
structure Memo where
  node : Nat
  along : Option Path
  result : Value

/-- What is known so far. -/
structure Memory where
  /-- The results, the newest first. -/
  memos : List Memo := []
  /-- The first mark that no node has. -/
  next : Nat

/-- A computation that may fail and does not forget. -/
abbrev Step := ExceptT Failure (StateM Memory)

/-- The result for just this part of a node. -/
def Memory.find? (m : Memory) (node : Nat) (along : Option Path) : Option Value :=
  (m.memos.find? fun memo => memo.node == node && memo.along == along).map Memo.result

/-- A known result; one for the whole node also answers for any part of it. -/
def Memory.recall? (m : Memory) (v : Value) (along : Option Path) : Option Value :=
  match v.mark with
  | none => none
  | some node =>
    match m.find? node none with
    | some w => some w
    | none => if along.isSome then m.find? node along else none

/-- The memory with one more result. -/
def Memory.remember (m : Memory) (v : Value) (along : Option Path) (result : Value) : Memory :=
  match v.mark with
  | none => m
  | some node => { m with memos := ⟨node, along, result⟩ :: m.memos }

/-- The value with fresh marks for its new nodes. -/
def renew (v : Value) : Step Value :=
  modifyGet fun m =>
    let r := v.markFrom m.next
    (r.1, { m with next := r.2 })

end Hocon.Resolution
