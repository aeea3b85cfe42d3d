import Hocon.Error
import Hocon.Value.Merge

/-!
# Joining neighbours

Values that stand beside each other on a line are joined: objects are merged, lists
appended, scalars put together as text.  Pieces that wait for a reference stay apart, and
the whole becomes a concatenation that is joined again later.
-/

namespace Hocon.Value

/-- The text that a piece contributes; a null contributes none if `nullIsEmpty`. -/
def joinText? (nullIsEmpty : Bool) (v : Value) : Option String :=
  if nullIsEmpty && v.isNull then some "" else v.scalarText?

/-- Two neighbours as one value, or nothing if they have to stay apart for now. -/
def join? (nullIsEmpty : Bool) (left right : Value) : Except Error (Option Value) :=
  -- the later of two objects is on top
  if left.isObjectValued && right.isObjectValued then .ok (some (right.withFallback left))
  else
    match left.items?, right.items? with
    | some xs, some ys => .ok (some (ofItems (left.origin.merge right.origin) (xs ++ ys)))
    | _, _ =>
      -- blanks behind a container only separate it from the next one
      if (left.isObjectValued || left.items?.isSome) && right.isBlankText then .ok (some left)
      else if left.isPending || right.isPending then .ok none
      else
        match joinText? nullIsEmpty left, joinText? nullIsEmpty right with
        | some s, some t => .ok (some (ofText (left.origin.merge right.origin) (s ++ t)))
        | _, _ => .error (.wrongType left.origin (.cannotJoin left right))

/-- Pieces without concatenations among them: those are taken apart. -/
def flattenPieces (pieces : List Value) : List Value :=
  pieces.flatMap fun
    | concat _ ps => ps
    | v => [v]

/-- Joins each piece with the result so far, whose last piece is the first of `done`. -/
def joinOnto (nullIsEmpty : Bool) (done : List Value) : List Value → Except Error (List Value)
  | [] => .ok done.reverse
  | right :: rest =>
    match done with
    | [] => joinOnto nullIsEmpty [right] rest
    | left :: before =>
      match join? nullIsEmpty left right with
      | .error e => .error e
      | .ok (some v) => joinOnto nullIsEmpty (v :: before) rest
      | .ok none => joinOnto nullIsEmpty (right :: left :: before) rest

/-- Joins neighbours wherever their kinds allow it. -/
def joinRun (nullIsEmpty : Bool) (pieces : List Value) : Except Error (List Value) :=
  if pieces.length < 2 then .ok pieces
  else joinOnto nullIsEmpty [] (flattenPieces pieces)

/-- The single value of some pieces: nothing if there are none, and a concatenation if they
cannot all be joined yet. -/
def concatenate (pieces : List Value) : Except Error (Option Value) :=
  match joinRun false pieces with
  | .error e => .error e
  | .ok [] => .ok none
  | .ok [v] => .ok (some v)
  | .ok vs =>
    let o := (Origin.mergeAll? (vs.map origin)).getD (.named "concatenation")
    .ok (some (concat { origin := o } vs))

end Hocon.Value
