import Hocon.Resolution.Memory
import Hocon.Resolution.Peek
import Hocon.Value.Join
import Hocon.Value.Weight

/-!
# Resolving references

Resolving replaces every reference by what it points at.  A reference is looked up from the
root, and only as much of the root is resolved as lies along the path; what is found there is
resolved in turn.

Two things keep this from going round in circles.  A reference that is being looked up is not
available: coming back to it is a cycle, which an optional reference answers by vanishing.  And
while a layer of a merge is being resolved, the merge shows only the layers below that one, so
that `path = ${path} [x]` sees the value that it replaces.  Both make something smaller: the
references that are available, or the weight of what is being resolved.
-/

namespace Hocon

/-- How references are resolved. -/
structure ResolveOptions where
  /-- The variables of the environment, for references to nothing else; none if they do not
  count. -/
  environment : Option (Entries String) := none
  /-- Whether mandatory references to nothing stay as they are. -/
  allowUnresolved : Bool := false

namespace Value

/-- The variables of the environment as one object; a name is a single key, periods and all. -/
def ofVariables (vars : Entries String) : Value :=
  ofFields .environment (vars.map fun e => (e.1, ofText .environment e.2))

mutual

/-- The marks of the references in a tree. -/
def referenceMarks : Value → List Nat
  | reference p _ => p.mark.toList
  | object _ _ fs => referenceMarksOfFields fs
  | list _ xs => referenceMarksOfItems xs
  | concat _ ps => referenceMarksOfItems ps
  | merge _ _ ls => referenceMarksOfItems ls
  | _ => []

def referenceMarksOfFields : Entries Value → List Nat
  | [] => []
  | (_, v) :: fs => v.referenceMarks ++ referenceMarksOfFields fs

def referenceMarksOfItems : List Value → List Nat
  | [] => []
  | v :: vs => v.referenceMarks ++ referenceMarksOfItems vs

end

end Value

namespace Resolution

/-! ### Surroundings -/

/-- What stays the same throughout a resolution. -/
structure Setting where
  /-- Where references are looked up. -/
  root : Value
  /-- Where they are looked up next. -/
  environment : Option Value
  allowUnresolved : Bool

/-- A merge one of whose layers is being resolved. -/
structure OpenMerge where
  node : Nat
  /-- The number of the layer, from the top. -/
  layer : Nat
  /-- The first of the marks for the nodes of what shows below that layer. -/
  base : Nat

/-- What a step depends on besides the setting. -/
structure Surroundings where
  /-- The references that are not being looked up. -/
  available : List Nat
  /-- The merges that are being resolved. -/
  merges : List OpenMerge := []
  /-- What is being looked up, outermost first. -/
  trace : List PathReference := []

/-- What shows of a merge whose layer is being resolved; nothing may be left.  No answer for
any other value. -/
def Surroundings.showing? (c : Surroundings) : Value → Option (Option Value)
  | .merge p _ layers =>
    (c.merges.find? fun m => some m.node == p.mark).map fun m =>
      (Value.mergeLayers? (layers.drop (m.layer + 1))).map fun w => (w.markFrom m.base).1
  | _ => none

/-- What shows of a merge is lighter than the merge. -/
theorem Surroundings.weight_lt_of_showing? {c : Surroundings} {v w : Value}
    (h : c.showing? v = some (some w)) : w.weight < v.weight := by
  cases v with
  | merge p k layers =>
    obtain ⟨m, -, hm⟩ := Option.map_eq_some_iff.1 h
    obtain ⟨u, hu, rfl⟩ := Option.map_eq_some_iff.1 hm
    rw [Value.weight_markFrom]
    exact Value.weight_below_lt hu
  | _ => cases h

/-- The surroundings of what a reference points at. -/
def Surroundings.within (c : Surroundings) (reference : Nat) (trace : List PathReference) :
    Surroundings :=
  { c with available := c.available.filter (· != reference), trace }

theorem Surroundings.available_within_lt {c : Surroundings} {m : Nat} (h : m ∈ c.available)
    (trace : List PathReference) :
    (c.within m trace).available.length < c.available.length := by
  simp only [within]
  exact List.length_filter_lt_length_iff_exists.2 ⟨m, h, by simp⟩

/-! ### Lookup -/

/-- The value at a path of a root, of which only that much is resolved. -/
def findIn (resolve : Value → Option Path → Step (Option Value)) (root : Value) (path : Path) :
    Step (Option Value) := do
  match ← resolve root (some path) with
  | some partly =>
    if partly.isObjectValued then
      match partly.peekThrough path.first path.rest with
      | .ok found => return found
      | .error e => throw (.error e)
    else throw (.error (.broken (.notAnObject root (some partly))))
  | none => throw (.error (.broken (.notAnObject root none)))

/-- What a reference points at: from the root, then from the root without the keys that
including documents added, then in the environment.  `resolve` is given what is being looked
up. -/
def lookUp (s : Setting)
    (resolve : List PathReference → Value → Option Path → Step (Option Value))
    (outer : List PathReference) (r : Reference) (along : Option Path) :
    Step (Option Value) := do
  let trace := outer ++ [r.target]
  match ← findIn (resolve trace) s.root r.target.path with
  | some v => resolve trace v along
  | none =>
    -- the document that was included knows the path without the keys in front
    match r.target.path.drop? r.included with
    | none => return none
    | some path =>
      let trace := outer ++ [{ r.target with path }]
      let found ← if r.included > 0 then findIn (resolve trace) s.root path else pure none
      let found ← match found, s.environment with
        | none, some environment => findIn (resolve trace) environment path
        | found, _ => pure found
      match found with
      | some v => resolve trace v along
      | none => return none

/-- What a lookup means for the reference: a cycle is nothing, and nothing is an error if the
reference is mandatory. -/
def settleLookup (s : Setting) (v : Value) (target : PathReference)
    (lookedUp : Step (Option Value)) : Step (Option Value) := do
  let found ← tryCatch lookedUp fun
    | .cycle trace =>
      if target.optional then pure none
      else throw (.error (.unresolved v.origin (.cycle target trace)))
    | .error e => throw (.error e)
  match found with
  | some w => return some w
  | none =>
    if target.optional then return none
    else if s.allowUnresolved then return some v
    else throw (.error (.unresolved v.origin (.noTarget target)))

/-! ### Rebuilding -/

/-- Keeps a result for later; a result that still waits is good only for a part, or if that
is allowed. -/
def keep (s : Setting) (v : Value) (along : Option Path) (result : Value) : Step Unit := do
  -- a whole result answers for every part
  if result.isResolved then modify fun m => m.remember v none result
  else if along.isSome || s.allowUnresolved then modify fun m => m.remember v along result
  else throw (.error (.broken (.stillPending result)))

/-- The object with resolved fields, of which some may have vanished; the same node if
nothing changed. -/
def rebuildObject (v : Value) (fields : Entries Value) (resolved : Entries (Option Value)) :
    Step Value :=
  if resolved.map (fun f => f.2.bind Value.mark) == fields.map (fun f => f.2.mark) then pure v
  else
    renew (.object { origin := v.origin } v.ignoresFallbacks
      (resolved.filterMap fun f => f.2.map fun w => (f.1, w)))

/-- The list with resolved items, of which some may have vanished; the same node if nothing
changed. -/
def rebuildList (v : Value) (items : List Value) (resolved : List (Option Value)) :
    Step Value :=
  if resolved.map (·.bind Value.mark) == items.map Value.mark then pure v
  else renew (.ofItems v.origin (resolved.filterMap id))

/-- The pieces of a concatenation joined, now that they are resolved. -/
def joinPieces (s : Setting) (v : Value) (pieces : List Value) : Step (Option Value) := do
  match Value.joinRun true pieces with
  | .error e => throw (.error e)
  | .ok [] => return none
  | .ok [w] => return some (← renew w)
  | .ok ws =>
    if s.allowUnresolved then return some (← renew (.concat { origin := v.origin } ws))
    else throw (.error (.broken (.notJoined ws)))

/-- The marks for the nodes of what shows below a layer: the first of them. -/
def reserve (below : List Value) : Step Nat :=
  modifyGet fun m =>
    (m.next, { m with next :=
      match Value.mergeLayers? below with
      | some w => (w.markFrom m.next).2
      | none => m.next })

/-- The part of a field that is needed for a part of its object: nothing of other fields, and
nothing of a field at the very end of the path. -/
def alongField (along : Option Path) (key : String) : Option (Option Path) :=
  match along with
  | none => some none
  | some path => if key = path.first then path.remainder?.map some else none

/-! ### Resolving -/

/-- The order in which resolving comes down: first the references that are available, then
the weight, then the size. -/
theorem smaller_of_le {n w w' k k' : Nat} (hw : w ≤ w') (hk : k < k') :
    Prod.Lex (· < ·) (Prod.Lex (· < ·) (· < ·)) (n, w, k) (n, w', k') := by
  rcases Nat.lt_or_eq_of_le hw with h | rfl
  · exact .right _ (.left _ _ h)
  · exact .right _ (.right _ hk)

mutual

/-- The resolved value, or a value of which what lies along a path is resolved.  Nothing if
the value vanishes. -/
def resolve (s : Setting) (c : Surroundings) (v : Value) (along : Option Path) :
    Step (Option Value) := do
  match (← get).recall? v along with
  | some w => return some w
  | none =>
    -- a merge that is open shows less of itself; anything else is resolved as it is
    let result ← match _h : c.showing? v with
      | none => resolveNode s c v along
      | some none => throw (.cycle c.trace)
      | some (some w) => resolve s c w along
    match result with
    | none => return none
    | some w =>
      keep s v along w
      return some w
termination_by (c.available.length, v.weight, 2 * sizeOf v + 1)
decreasing_by
  · exact Prod.Lex.right _ (Prod.Lex.right _ (by omega))
  · exact Prod.Lex.right _ (Prod.Lex.left _ _ (Surroundings.weight_lt_of_showing? _h))

/-- Resolves what is in a node. -/
def resolveNode (s : Setting) (c : Surroundings) (v : Value) (along : Option Path) :
    Step (Option Value) := do
  match v with
  | .object _ _ fields =>
    if Value.fieldsResolved fields then return some v
    else return some (← rebuildObject v fields (← resolveFields s c along fields))
  | .list _ items =>
    -- no path leads into a list
    if Value.itemsResolved items || along.isSome then return some v
    else return some (← rebuildList v items (← resolveItems s c items))
  | .reference p r =>
    match p.mark with
    | none => throw (.cycle c.trace)
    | some m =>
      if _h : m ∈ c.available then
        settleLookup s v r.target
          (lookUp s (fun trace w along => resolve s (c.within m trace) w along) c.trace r along)
      else throw (.cycle c.trace)
  | .concat _ pieces =>
    -- joining needs all of each piece, whatever part is asked for
    let resolved ← resolveItems s c pieces
    joinPieces s v (resolved.filterMap id)
  | .merge p _ layers =>
    match ← resolveLayers s c v p.mark along 0 none layers with
    | some w => return some (← renew w)
    | none => return none
  | _ => return some v
termination_by (c.available.length, v.weight, 2 * sizeOf v)
decreasing_by
  · exact smaller_of_le (by simp only [Value.weight]; omega)
      (by simp only [Value.object.sizeOf_spec]; omega)
  · exact smaller_of_le (by simp only [Value.weight]; omega)
      (by simp only [Value.list.sizeOf_spec]; omega)
  · exact .left _ _ (Surroundings.available_within_lt _h trace)
  · exact smaller_of_le (by simp only [Value.weight]; omega)
      (by simp only [Value.concat.sizeOf_spec]; omega)
  · exact smaller_of_le (by simp only [Value.weight]; omega)
      (by simp only [Value.merge.sizeOf_spec]; omega)

/-- Resolves the fields of an object. -/
def resolveFields (s : Setting) (c : Surroundings) (along : Option Path) :
    Entries Value → Step (Entries (Option Value))
  | [] => return []
  | (key, v) :: fields => do
    let result ← match alongField along key with
      | some along => resolve s c v along
      | none => pure (some v)
    return (key, result) :: (← resolveFields s c along fields)
termination_by fields => (c.available.length, Value.weightOfFields fields, 2 * sizeOf fields)
decreasing_by
  · exact smaller_of_le (by simp only [Value.weightOfFields]; omega)
      (by simp only [List.cons.sizeOf_spec, Prod.mk.sizeOf_spec]; omega)
  · exact smaller_of_le (by simp only [Value.weightOfFields]; omega)
      (by simp only [List.cons.sizeOf_spec, Prod.mk.sizeOf_spec]; omega)

/-- Resolves all of each item. -/
def resolveItems (s : Setting) (c : Surroundings) : List Value → Step (List (Option Value))
  | [] => return []
  | v :: items => do
    let result ← resolve s c v none
    return result :: (← resolveItems s c items)
termination_by items => (c.available.length, Value.weightOfItems items, 2 * sizeOf items)
decreasing_by
  · exact smaller_of_le (by simp only [Value.weightOfItems]; omega)
      (by simp only [List.cons.sizeOf_spec]; omega)
  · exact smaller_of_le (by simp only [Value.weightOfItems]; omega)
      (by simp only [List.cons.sizeOf_spec]; omega)

/-- Resolves the layers of a merge from number `layer` on and puts each beneath `above`. -/
def resolveLayers (s : Setting) (c : Surroundings) (whole : Value) (node : Option Nat)
    (along : Option Path) (layer : Nat) (above : Option Value) :
    List Value → Step (Option Value)
  | [] => return above
  | v :: below => do
    if v matches .merge _ _ _ then throw (.error (.broken (.nestedMerge whole)))
    -- only a layer that waits can come back to the merge
    let base ← if v.isPending then reserve below else pure 0
    let merges := match v.isPending, node with
      | true, some node => ⟨node, layer, base⟩ :: c.merges
      | _, _ => c.merges
    let result ← resolve s { c with merges } v along
    let above := match above, result with
      | some above, some w => some (above.withFallback w)
      | none, some w => some w
      | above, none => above
    resolveLayers s c whole node along (layer + 1) above below
termination_by layers => (c.available.length, Value.weightOfItems layers, 2 * sizeOf layers)
decreasing_by
  · exact smaller_of_le (by simp only [Value.weightOfItems]; omega)
      (by simp only [List.cons.sizeOf_spec]; omega)
  · exact smaller_of_le (by simp only [Value.weightOfItems]; omega)
      (by simp only [List.cons.sizeOf_spec]; omega)

end

/-! ### Whole trees -/

/-- Resolves all of `v`, where every node of `v` and of `root` has a mark below `next`. -/
def run (o : ResolveOptions) (root v : Value) (next : Nat) : Except Error Value :=
  let environment := o.environment.map fun e => (Value.ofVariables e).markFrom next
  let s : Setting :=
    { root, environment := environment.map (·.1), allowUnresolved := o.allowUnresolved }
  let c : Surroundings := { available := v.referenceMarks ++ root.referenceMarks }
  let memory : Memory := { next := (environment.map (·.2)).getD next }
  match ((resolve s c v none).run.run memory).1 with
  | .ok (some w) => .ok w
  | .ok none => .error (.broken .noResult)
  | .error (.cycle _) => .error (.broken .escapedCycle)
  | .error (.error e) => .error e

end Resolution

namespace Value

/-- The tree with all references resolved, looking them up in the tree itself.  New nodes get
marks from `next` on, or from the first on that the tree does not have. -/
def resolve (v : Value) (o : ResolveOptions) (next : Nat := 0) : Except Error Value :=
  if v.isResolved then .ok v
  else
    let root := v.markFrom (max next v.freeMark)
    Resolution.run o root.1 root.1 root.2

/-- The value with all references resolved, looking them up in another tree. -/
def resolveIn (v source : Value) (o : ResolveOptions) (next : Nat := 0) : Except Error Value :=
  if v.isResolved then .ok v
  else
    let own := v.markFrom (max next (max v.freeMark source.freeMark))
    let root := source.markFrom own.2
    Resolution.run o root.1 own.1 root.2

end Value

end Hocon
