import Hocon.Proofs.References
import Hocon.Proofs.Resolving

/-!
# How deep a resolution goes

No argument of a resolution gets smaller from call to call: every lookup starts at the root again,
and what shows of an open merge is a new tree.  That it ends all the same is no matter of a bound
that it keeps an eye on.  The only things that turn it back are the references that are being
looked up, which are refused, and the merges that are open, which show less of themselves.

`Resolution.round` is one round of the recursion with these two guards and no other; whatever lies
further down is left to a parameter.  `Resolution.resolveTo beyond depth` nests that many rounds,
and asks `beyond` if they are not enough.  The main result is that there is a depth at which they
are: from there on nothing of `beyond` shows, and the outcome is that of the resolution
(`Value.exists_depth`).

What carries this is that no references come into being on the way.  Each reference that is met has
one of the marks that were there at the start (`Value.RefersTo`), so that the references that are
not being looked up are always those that the resolution counts as available.
-/

namespace Hocon

/-! ### References of a tree -/

namespace Value

variable {marks : List Nat} {u v w : Value}

/-- The reference has a mark that is in the list. -/
def MarkedIn (marks : List Nat) (p : Provenance) (_ : Reference) : Prop :=
  ∃ n ∈ marks, p.mark = some n

/-- Marking leaves references alone that have marks. -/
theorem markStable_markedIn : MarkStable (MarkedIn marks) :=
  fun _ _ _ unmarked ⟨_, _, marked⟩ => by cases marked.symm.trans unmarked

/-- All references of the tree have marks that are in the list. -/
abbrev RefersTo (marks : List Nat) : Value → Prop := RefersBy (MarkedIn marks)

theorem RefersTo.of_known {g : Table} (h : v.Known g) (le : ∀ n ∈ v.referenceMarks, n ∈ marks) :
    v.RefersTo marks := by
  intro p r hr
  obtain ⟨n, hn, -⟩ := (hr.passes (fun _ h => h.parts) h : (reference p r).Known g).exists_mark
  exact ⟨n, le n (mem_referenceMarks_of_within hr hn), hn⟩

end Value

namespace Resolution

open Value

/-! ### One round -/

/-- What is going on while something is resolved. -/
structure Activity where
  /-- The marks of the references that are being looked up. -/
  lookups : List Nat := []
  merges : List OpenMerge := []
  trace : List PathReference := []

/-- The surroundings that an activity makes if some references are available. -/
def Activity.surroundings (a : Activity) (available : List Nat) : Surroundings :=
  { available, merges := a.merges, trace := a.trace }

/-- A way of resolving what lies further down. -/
abbrev Deeper := Activity → Value → Option Path → Step (Option Value)

section Round

variable (s : Setting) (deeper : Deeper) (a : Activity)

/-- One round for the fields of an object. -/
def roundFields (along : Option Path) : Entries Value → Step (Entries (Option Value))
  | [] => return []
  | (key, v) :: fields => do
    let result ← match alongField along key with
      | some along => deeper a v along
      | none => pure (some v)
    return (key, result) :: (← roundFields along fields)

/-- One round for all of each item. -/
def roundItems : List Value → Step (List (Option Value))
  | [] => return []
  | v :: items => do
    let result ← deeper a v none
    return result :: (← roundItems items)

/-- One round for the layers of a merge from number `layer` on, each put beneath `above`. -/
def roundLayers (whole : Value) (node : Option Nat) (along : Option Path) (layer : Nat)
    (above : Option Value) : List Value → Step (Option Value)
  | [] => return above
  | v :: below => do
    if v matches .merge _ _ _ then throw (.error (.broken (.nestedMerge whole)))
    let base ← if v.isPending then reserve below else pure 0
    let merges := match v.isPending, node with
      | true, some node => ⟨node, layer, base⟩ :: a.merges
      | _, _ => a.merges
    let result ← deeper { a with merges } v along
    let above := match above, result with
      | some above, some w => some (above.withFallback w)
      | none, some w => some w
      | above, none => above
    roundLayers whole node along (layer + 1) above below

/-- One round for what is in a node.  A reference is refused while it is being looked up, and if
it has no mark to tell it by. -/
def roundNode (v : Value) (along : Option Path) : Step (Option Value) := do
  match v with
  | .object _ _ fields =>
    if fieldsResolved fields then return some v
    else return some (← rebuildObject v fields (← roundFields deeper a along fields))
  | .list _ items =>
    if itemsResolved items || along.isSome then return some v
    else return some (← rebuildList v items (← roundItems deeper a items))
  | .reference p r =>
    match p.mark with
    | none => throw (.cycle a.trace)
    | some m =>
      if m ∈ a.lookups then throw (.cycle a.trace)
      else
        settleLookup s v r.target
          (lookUp s (fun trace w along => deeper { a with lookups := m :: a.lookups, trace } w along)
            a.trace r along)
  | .concat _ pieces =>
    let resolved ← roundItems deeper a pieces
    joinPieces s v (resolved.filterMap id)
  | .merge p _ layers =>
    match ← roundLayers deeper a v p.mark along 0 none layers with
    | some w => return some (← renew w)
    | none => return none
  | _ => return some v

/-- One round of resolving: what is remembered, or what shows of an open merge, or the node. -/
def round (v : Value) (along : Option Path) : Step (Option Value) := do
  match (← get).recall? v along with
  | some w => return some w
  | none =>
    let result ← match (a.surroundings []).showing? v with
      | none => roundNode s deeper a v along
      | some none => throw (.cycle a.trace)
      | some (some w) => deeper a w along
    match result with
    | none => return none
    | some w =>
      keep s v along w
      return some w

end Round

/-- Resolving in that many rounds at most, with `beyond` for whatever lies deeper. -/
def resolveTo (s : Setting) (beyond : Deeper) : Nat → Deeper
  | 0 => beyond
  | depth + 1 => round s (resolveTo s beyond depth)

/-! ### Rounds that come to the same as the resolution -/

variable {α β : Type} {marks : List Nat} {m : Memory}

/-- All that is remembered has references with marks from the list only. -/
abbrev Memory.RefersTo (m : Memory) (marks : List Nat) : Prop := m.RefersBy (MarkedIn marks)

/-- What a computation gives that resolves something. -/
abbrev Found? (marks : List Nat) : Option Value → Prop := ResultRefersBy (MarkedIn marks)

/-- The computation comes to a result with the property `Q`, and to the same as its approximations
from some depth on, whatever `beyond` is. -/
structure Settles (marks : List Nat) (m : Memory) (x : Step α) (y : Deeper → Nat → Step α)
    (Q : α → Prop) : Prop where
  ensures : Ensures x m fun out m' => m'.RefersTo marks ∧ ∀ a, out = .ok a → Q a
  reached : ∃ depth, ∀ n, depth ≤ n → ∀ beyond, (y beyond n).run.run m = x.run.run m

namespace Settles

variable {x : Step α} {y : Deeper → Nat → Step α} {Q : α → Prop} {R : β → Prop}

/-- A computation without calls. -/
theorem of_ensures (h : Ensures x m fun out m' => m'.RefersTo marks ∧ ∀ a, out = .ok a → Q a) :
    Settles marks m x (fun _ _ => x) Q :=
  ⟨h, 0, fun _ _ _ => rfl⟩

theorem pure {a : α} (hm : m.RefersTo marks) (h : Q a) :
    Settles marks m (pure a) (fun _ _ => Pure.pure a) Q :=
  of_ensures (Ensures.pure ⟨hm, by rintro _ ⟨⟩; exact h⟩)

theorem throw {f : Failure} (hm : m.RefersTo marks) :
    Settles marks m (throw f : Step α) (fun _ _ => MonadExcept.throw f) Q :=
  of_ensures (Ensures.throw ⟨hm, nofun⟩)

theorem mono {R : α → Prop} (hx : Settles marks m x y Q) (h : ∀ a, Q a → R a) :
    Settles marks m x y R :=
  ⟨hx.ensures.mono fun _ _ hout => ⟨hout.1, fun a ha => h a (hout.2 a ha)⟩, hx.reached⟩

/-- One computation behind another: it takes the depth that both take. -/
theorem bind {f : α → Step β} {g : α → Deeper → Nat → Step β} (hx : Settles marks m x y Q)
    (hf : ∀ a m', m'.RefersTo marks → Q a → Settles marks m' (f a) (g a) R) :
    Settles marks m (x >>= f) (fun beyond n => y beyond n >>= fun a => g a beyond n) R := by
  have hm := hx.ensures
  unfold Ensures at hm
  obtain ⟨depth, reached⟩ := hx.reached
  rcases hrun : x.run.run m with ⟨e | a, m'⟩
  · rw [hrun] at hm
    refine ⟨hx.ensures.bind (fun a m' h => (hf a m' h.1 (h.2 a rfl)).ensures)
      fun e m' h => ⟨h.1, nofun⟩, depth, fun n le beyond => ?_⟩
    simp only [ExceptT.run_bind, StateT.run_bind, reached n le beyond, hrun]
    rfl
  · rw [hrun] at hm
    have tail := hf a m' hm.1 (hm.2 a rfl)
    obtain ⟨depth', reached'⟩ := tail.reached
    refine ⟨hx.ensures.bind (fun a m' h => (hf a m' h.1 (h.2 a rfl)).ensures)
      fun e m' h => ⟨h.1, nofun⟩, max depth depth', fun n le beyond => ?_⟩
    simp only [ExceptT.run_bind, StateT.run_bind,
      reached n (Nat.le_trans (Nat.le_max_left _ _) le) beyond, hrun]
    exact reached' n (Nat.le_trans (Nat.le_max_right _ _) le) beyond

/-- A failure that is looked at. -/
theorem tryCatch {f : Failure → Step α} (hx : Settles marks m x y Q)
    (hf : ∀ e m', m'.RefersTo marks → Settles marks m' (f e) (fun _ _ => f e) Q) :
    Settles marks m (tryCatch x f) (fun beyond n => MonadExcept.tryCatch (y beyond n) f) Q := by
  obtain ⟨depth, reached⟩ := hx.reached
  refine ⟨hx.ensures.tryCatch (fun a m' h => h) fun e m' h => (hf e m' h.1).ensures, depth,
    fun n le beyond => ?_⟩
  simp only [ExceptT.run_tryCatch, StateT.run_bind, reached n le beyond]

/-- Reading what is remembered. -/
theorem get_bind {f : Memory → Step β} {g : Memory → Deeper → Nat → Step β}
    (h : Settles marks m (f m) (g m) R) :
    Settles marks m (get >>= f) (fun beyond n => get >>= fun m => g m beyond n) R :=
  ⟨h.ensures, h.reached⟩

/-- What is there in one round more. -/
theorem succ {y : Deeper → Nat → Step α} (h : Settles marks m x (fun beyond n => y beyond (n + 1)) Q) :
    Settles marks m x y Q := by
  obtain ⟨depth, reached⟩ := h.reached
  refine ⟨h.ensures, depth + 1, fun n le beyond => ?_⟩
  obtain ⟨k, rfl⟩ := Nat.exists_eq_add_of_lt le
  exact reached (depth + k) (Nat.le_add_right _ _) beyond

end Settles

/-! ### Looking up -/

section Lookup

variable {s : Setting} {f : Value → Option Path → Step (Option Value)}
  {g : Value → Option Path → Deeper → Nat → Step (Option Value)}

theorem settles_findIn {e : Value} {path : Path}
    (h : Settles marks m (f e (some path)) (g e (some path)) (Found? marks)) :
    Settles marks m (findIn f e path) (fun beyond n => findIn (fun v along => g v along beyond n) e path)
      (Found? marks) := by
  refine h.bind fun r m' hm hr => ?_
  cases r with
  | none => exact .throw hm
  | some partly =>
    simp only []
    split
    · split
      · next found hp =>
        refine .pure hm ?_
        rintro u rfl
        exact (hr partly rfl).within (within_of_peekThrough hp)
      · exact .throw hm
    · exact .throw hm

/-- What was found is resolved in turn. -/
theorem settles_target (along : Option Path) (hm : m.RefersTo marks) (found : Option Value) :
    (∀ v, found = some v → Settles marks m (f v along) (g v along) (Found? marks)) →
    Settles marks m (match found with | some v => f v along | none => pure none)
      (fun beyond n => match found with | some v => g v along beyond n | none => pure none)
      (Found? marks) := by
  intro h
  cases found with
  | some v => exact h v rfl
  | none => exact .pure hm nofun

/-- What was not found is looked for in the environment. -/
theorem settles_beneath (along : Option Path) (path : Path) (environment : Option Value)
    (found : Option Value) (hm : m.RefersTo marks) (hf : Found? marks found)
    (he : ∀ e, environment = some e → e.RefersTo marks)
    (h : ∀ v along m, m.RefersTo marks → v.RefersTo marks →
      Settles marks m (f v along) (g v along) (Found? marks)) :
    Settles marks m
      (do
        let found ← match found, environment with
          | none, some environment => findIn f environment path
          | found, _ => pure found
        match found with | some v => f v along | none => pure none)
      (fun beyond n => do
        let found ← match found, environment with
          | none, some environment => findIn (fun v along => g v along beyond n) environment path
          | found, _ => pure found
        match found with | some v => g v along beyond n | none => pure none)
      (Found? marks) := by
  have target (found : Option Value) (m : Memory) (hm : m.RefersTo marks)
      (hf : Found? marks found) := settles_target (f := f) (g := g) along hm found
    fun v hv => h v along m hm (hf v hv)
  match found, environment with
  | some v, _ => exact (Settles.pure hm hf).bind target
  | none, none => exact (Settles.pure hm hf).bind target
  | none, some e => exact (settles_findIn (h e (some path) m hm (he e rfl))).bind target

end Lookup

theorem settles_lookUp {s : Setting}
    {f : List PathReference → Value → Option Path → Step (Option Value)}
    {g : List PathReference → Value → Option Path → Deeper → Nat → Step (Option Value)}
    {outer : List PathReference} {r : Reference} {along : Option Path} (hm : m.RefersTo marks)
    (root : s.root.RefersTo marks) (environment : ∀ e, s.environment = some e → e.RefersTo marks)
    (h : ∀ trace v along m, m.RefersTo marks → v.RefersTo marks →
      Settles marks m (f trace v along) (g trace v along) (Found? marks)) :
    Settles marks m (lookUp s f outer r along)
      (fun beyond n => lookUp s (fun trace v along => g trace v along beyond n) outer r along)
      (Found? marks) := by
  unfold lookUp
  refine (settles_findIn (h _ _ _ m hm root)).bind fun found m₁ hm₁ hf => ?_
  cases found with
  | some v => exact h _ v along m₁ hm₁ (hf v rfl)
  | none =>
    cases r.target.path.drop? r.included with
    | none => exact .pure hm₁ nofun
    | some path =>
      have beneath (found : Option Value) (m : Memory) (hm : m.RefersTo marks)
          (hf : Found? marks found) := settles_beneath along path s.environment found hm hf
        environment (h (outer ++ [{ r.target with path }]))
      by_cases inner : r.included > 0
      · simp only [inner, if_true]
        exact (settles_findIn (h _ _ _ m₁ hm₁ root)).bind beneath
      · simp only [inner, if_false]
        exact (Settles.pure hm₁ hf).bind beneath

theorem settles_settleLookup {s : Setting} {v : Value} {target : PathReference}
    {x : Step (Option Value)} {y : Deeper → Nat → Step (Option Value)} (hv : v.RefersTo marks)
    (h : Settles marks m x y (Found? marks)) :
    Settles marks m (settleLookup s v target x) (fun beyond n => settleLookup s v target (y beyond n))
      (Found? marks) := by
  unfold settleLookup
  refine (h.tryCatch fun e m' hm => ?_).bind fun found m' hm hf => ?_
  · cases e with
    | error e => exact .throw hm
    | cycle trace =>
      simp only []
      split
      · exact .pure hm nofun
      · exact .throw hm
  · cases found with
    | some w => exact .pure hm hf
    | none =>
      simp only []
      split
      · exact .pure hm nofun
      split
      · refine .pure hm ?_
        rintro _ ⟨⟩
        exact hv
      · exact .throw hm

/-! ### The recursion -/

/-- An activity that amounts to the same as the surroundings: of the references that there are,
those are available that are not being looked up. -/
structure Activity.Matches (marks : List Nat) (a : Activity) (c : Surroundings) : Prop where
  merges : a.merges = c.merges
  trace : a.trace = c.trace
  lookups : ∀ n ∈ marks, n ∈ c.available ↔ n ∉ a.lookups

theorem Activity.Matches.within {a : Activity} {c : Surroundings} (h : a.Matches marks c) (n : Nat)
    (trace : List PathReference) :
    Activity.Matches marks { a with lookups := n :: a.lookups, trace } (c.within n trace) where
  merges := h.merges
  trace := rfl
  lookups k hk := by
    simp only [Surroundings.within, List.mem_filter, bne_iff_ne, h.lookups k hk, List.mem_cons,
      not_or]
    exact And.comm

theorem Activity.Matches.opening {a : Activity} {c : Surroundings} (h : a.Matches marks c)
    (node : Option Nat) (layer base : Nat) (v : Value) :
    Activity.Matches marks
      { a with merges := match v.isPending, node with
          | true, some node => ⟨node, layer, base⟩ :: a.merges
          | _, _ => a.merges }
      (c.opening node layer base v) :=
  ⟨h.merges ▸ rfl, h.trace, h.lookups⟩

theorem Activity.Matches.showing? {a : Activity} {c : Surroundings} (h : a.Matches marks c)
    (v : Value) : (a.surroundings []).showing? v = c.showing? v := by
  cases v with
  | merge p k ls => simp only [Surroundings.showing?, Activity.surroundings, h.merges]
  | _ => rfl

section Recursion

variable {s : Setting} {c : Surroundings}

/-- Where the references have marks from the list, a computation comes to the same as its
approximations with enough rounds further down. -/
def Reaches (s : Setting) (marks : List Nat) (c : Surroundings) (v : Value)
    (x : Step (Option Value)) (y : Deeper → Activity → Step (Option Value)) : Prop :=
  ∀ a m, Activity.Matches marks a c → m.RefersTo marks → v.RefersTo marks →
    Settles marks m x (fun beyond n => y (resolveTo s beyond n) a) (Found? marks)

def ReachesLayers (s : Setting) (marks : List Nat) (c : Surroundings) (whole : Value)
    (node : Option Nat) (along : Option Path) (layer : Nat) (above : Option Value)
    (below : List Value) : Prop :=
  ∀ a m, Activity.Matches marks a c → m.RefersTo marks → Found? marks above →
    (∀ l ∈ below, l.RefersTo marks) →
    Settles marks m (resolveLayers s c whole node along layer above below)
      (fun beyond n => roundLayers (resolveTo s beyond n) a whole node along layer above below)
      (Found? marks)

def ReachesItems (s : Setting) (marks : List Nat) (c : Surroundings) (xs : List Value) : Prop :=
  ∀ a m, Activity.Matches marks a c → m.RefersTo marks → (∀ x ∈ xs, x.RefersTo marks) →
    Settles marks m (resolveItems s c xs) (fun beyond n => roundItems (resolveTo s beyond n) a xs)
      (fun rs => ∀ r ∈ rs, Found? marks r)

def ReachesFields (s : Setting) (marks : List Nat) (c : Surroundings) (along : Option Path)
    (fs : Entries Value) : Prop :=
  ∀ a m, Activity.Matches marks a c → m.RefersTo marks → (∀ f ∈ fs, f.2.RefersTo marks) →
    Settles marks m (resolveFields s c along fs)
      (fun beyond n => roundFields (resolveTo s beyond n) a along fs)
      (fun rs => ∀ f ∈ rs, Found? marks f.2)

/-- A node that is resolved to itself. -/
theorem reaches_self {v : Value} {along : Option Path}
    (resolved : resolveNode s c v along = pure (some v))
    (round : ∀ deeper a, roundNode s deeper a v along = pure (some v)) :
    Reaches s marks c v (resolveNode s c v along) (fun deeper a => roundNode s deeper a v along) := by
  intro a m _ hm hv
  simp only [resolved, round]
  refine .pure hm ?_
  rintro _ ⟨⟩
  exact hv

/-- A result is kept under the mark of the node. -/
theorem settles_kept (v : Value) (along : Option Path) (r : Option Value) (m : Memory)
    (hm : m.RefersTo marks) : Found? marks r →
    Settles marks m
      (match r with
        | none => pure none
        | some w => do
          keep s v along w
          return some w)
      (fun _ _ => match r with
        | none => pure none
        | some w => do
          keep s v along w
          return some w)
      (Found? marks) := by
  intro hr
  cases r with
  | none => exact .pure hm nofun
  | some w =>
    exact (Settles.of_ensures (keep_ensures hm (hr w rfl))).bind fun _ _ hm' _ => .pure hm' hr

/-- A round adds what is remembered to what is in the node, and what shows of it. -/
theorem reaches_resolve {v : Value} {along : Option Path}
    (node : Reaches s marks c v (resolveNode s c v along)
      (fun deeper a => roundNode s deeper a v along))
    (shown : ∀ w, c.showing? v = some (some w) →
      Reaches s marks c w (resolve s c w along) (fun deeper a => deeper a w along)) :
    Reaches s marks c v (resolve s c v along) (fun deeper a => deeper a v along) := by
  intro a m ha hm hv
  refine .succ ?_
  simp only [resolveTo, round, ha.showing? v]
  rw [resolve]
  refine .get_bind ?_
  cases known : m.recall? v along with
  | some w =>
    refine .pure hm ?_
    rintro _ ⟨⟩
    exact hm.recall known
  | none =>
    simp only []
    split
    · next h =>
      simp only [h]
      exact (node a m ha hm hv).bind (settles_kept v along)
    · next h =>
      simp only [h, ha.trace]
      exact Settles.bind (Q := fun _ => False) (.throw hm) fun _ _ _ => False.elim
    · next w h =>
      simp only [h]
      exact (shown w h a m ha hm (hv.showing markStable_markedIn h)).bind (settles_kept v along)

theorem reachesItems_cons {v : Value} {vs : List Value}
    (head : Reaches s marks c v (resolve s c v none) (fun deeper a => deeper a v none))
    (tail : ReachesItems s marks c vs) : ReachesItems s marks c (v :: vs) := by
  intro a m ha hm hvs
  obtain ⟨hv, hvs⟩ := List.forall_mem_cons.1 hvs
  simp only [roundItems]
  rw [resolveItems]
  refine (head a m ha hm hv).bind fun r m₁ hm₁ hr => (tail a m₁ ha hm₁ hvs).bind fun rs m₂ hm₂ hrs =>
    .pure hm₂ (List.forall_mem_cons.2 ⟨hr, hrs⟩)

theorem reachesFields_cons {along : Option Path} {key : String} {v : Value} {fs : Entries Value}
    (head : ∀ path, alongField along key = some path →
      Reaches s marks c v (resolve s c v path) (fun deeper a => deeper a v path))
    (tail : ReachesFields s marks c along fs) :
    ReachesFields s marks c along ((key, v) :: fs) := by
  intro a m ha hm hfs
  obtain ⟨hv, hfs⟩ := List.forall_mem_cons.1 hfs
  simp only [roundFields]
  rw [resolveFields]
  have rest (r : Option Value) (m : Memory) (hm : m.RefersTo marks) (hr : Found? marks r) :
      Settles marks m (do return (key, r) :: (← resolveFields s c along fs))
        (fun beyond n => do return (key, r) :: (← roundFields (resolveTo s beyond n) a along fs))
        (fun rs => ∀ f ∈ rs, Found? marks f.2) :=
    (tail a m ha hm hfs).bind fun rs m' hm' hrs =>
      .pure hm' (List.forall_mem_cons.2 ⟨hr, hrs⟩)
  cases path : alongField along key with
  | none =>
    -- the path does not lead to this field
    refine (Settles.pure hm ?_).bind rest
    rintro _ ⟨⟩
    exact hv
  | some path' => exact (head path' path a m ha hm hv).bind rest

/-- One round for a layer that is no merge itself. -/
theorem roundLayers_cons {deeper : Deeper} {a : Activity} {whole : Value} {node : Option Nat}
    {along : Option Path} {layer : Nat} {above : Option Value} {v : Value} {below : List Value}
    (flat : v.isMerge = false) :
    roundLayers deeper a whole node along layer above (v :: below) = (do
      let base ← if v.isPending then reserve below else pure 0
      let merges := match v.isPending, node with
        | true, some node => ⟨node, layer, base⟩ :: a.merges
        | _, _ => a.merges
      let result ← deeper { a with merges } v along
      let above := match above, result with
        | some above, some w => some (above.withFallback w)
        | none, some w => some w
        | above, none => above
      roundLayers deeper a whole node along (layer + 1) above below) := by
  cases v with
  | merge p k ls => cases flat
  | _ => rfl

theorem reachesLayers_cons {whole : Value} {node : Option Nat} {along : Option Path} {layer : Nat}
    {above : Option Value} {v : Value} {below : List Value} (flat : v.isMerge = false)
    (head : ∀ base, Reaches s marks (c.opening node layer base v) v
      (resolve s (c.opening node layer base v) v along) (fun deeper a => deeper a v along))
    (tail : ∀ result, ReachesLayers s marks c whole node along (layer + 1)
      (match above, result with
        | some above, some w => some (above.withFallback w)
        | none, some w => some w
        | above, none => above) below) :
    ReachesLayers s marks c whole node along layer above (v :: below) := by
  intro a m ha hm habove hls
  obtain ⟨hv, hls⟩ := List.forall_mem_cons.1 hls
  rw [resolveLayers]
  swap
  · rintro p k ls rfl
    cases flat
  simp only [Bool.false_eq_true, if_false, roundLayers_cons flat]
  have rest (base : Nat) (m : Memory) (hm : m.RefersTo marks) :=
    (head base _ m (ha.opening node layer base v) hm hv).bind fun result m' hm' hr =>
      tail result a m' ha hm' (by
        cases above with
        | none => cases result with
          | none => exact habove
          | some w => exact hr
        | some u => cases result with
          | none => exact habove
          | some w =>
            rintro _ ⟨⟩
            exact (habove u rfl).withFallback (hr w rfl)) hls
  by_cases waits : v.isPending = true
  · simp only [if_pos waits]
    exact (Settles.of_ensures (reserve_ensures hm below)).bind fun base m hm _ => rest base m hm
  · simp only [if_neg waits]
    exact (Settles.pure (Q := fun _ => True) hm trivial).bind fun base m hm _ => rest base m hm

theorem reaches_reference {p : Provenance} {r : Reference} {along : Option Path}
    (root : s.root.RefersTo marks) (environment : ∀ e, s.environment = some e → e.RefersTo marks)
    (h : ∀ n, p.mark = some n → n ∈ c.available → ∀ trace v along,
      Reaches s marks (c.within n trace) v (resolve s (c.within n trace) v along)
        (fun deeper a => deeper a v along)) :
    Reaches s marks c (.reference p r) (resolveNode s c (.reference p r) along)
      (fun deeper a => roundNode s deeper a (.reference p r) along) := by
  intro a m ha hm hv
  obtain ⟨n, hn, mark⟩ := hv p r .self
  rw [resolveNode]
  simp only [roundNode, mark]
  by_cases available : n ∈ c.available
  · simp only [dif_pos available, if_neg ((ha.lookups n hn).1 available), ha.trace]
    exact settles_settleLookup hv (settles_lookUp hm root environment fun trace v along m hm hv =>
      h n mark available trace v along _ m (ha.within n trace) hm hv)
  · -- the reference is being looked up
    have busy : n ∈ a.lookups := Decidable.not_not.1 (mt (ha.lookups n hn).2 available)
    simp only [dif_neg available, if_pos busy, ha.trace]
    exact .throw hm

theorem reaches_object {p : Provenance} {closed : Bool} {fs : Entries Value} {along : Option Path}
    (waits : ¬ fieldsResolved fs = true) (h : ReachesFields s marks c along fs) :
    Reaches s marks c (.object p closed fs) (resolveNode s c (.object p closed fs) along)
      (fun deeper a => roundNode s deeper a (.object p closed fs) along) := by
  intro a m ha hm hv
  rw [resolveNode]
  simp only [roundNode, if_neg waits]
  refine (h a m ha hm hv.field).bind fun rs m₁ hm₁ hrs =>
    (Settles.of_ensures (rebuildObject_ensures markStable_markedIn hm₁ hv hrs)).bind
      fun w m₂ hm₂ hw => .pure hm₂ ?_
  rintro _ ⟨⟩
  exact hw

theorem reaches_list {p : Provenance} {xs : List Value} {along : Option Path}
    (waits : ¬ (itemsResolved xs || along.isSome) = true) (h : ReachesItems s marks c xs) :
    Reaches s marks c (.list p xs) (resolveNode s c (.list p xs) along)
      (fun deeper a => roundNode s deeper a (.list p xs) along) := by
  intro a m ha hm hv
  rw [resolveNode]
  simp only [roundNode, if_neg waits]
  refine (h a m ha hm fun x => hv.part).bind fun rs m₁ hm₁ hrs =>
    (Settles.of_ensures (rebuildList_ensures markStable_markedIn hm₁ hv hrs)).bind
      fun w m₂ hm₂ hw => .pure hm₂ ?_
  rintro _ ⟨⟩
  exact hw

theorem reaches_concat {p : Provenance} {xs : List Value} {along : Option Path}
    (h : ReachesItems s marks c xs) :
    Reaches s marks c (.concat p xs) (resolveNode s c (.concat p xs) along)
      (fun deeper a => roundNode s deeper a (.concat p xs) along) := by
  intro a m ha hm hv
  rw [resolveNode]
  refine (h a m ha hm fun x => hv.part).bind fun rs m₁ hm₁ hrs =>
    .of_ensures (joinPieces_ensures markStable_markedIn hm₁ fun x hx => ?_)
  obtain ⟨r, hr, e⟩ := List.mem_filterMap.1 hx
  exact hrs r hr x e

theorem reaches_merge {p : Provenance} {k : MergeKind} {ls : List Value} {along : Option Path}
    (h : ReachesLayers s marks c (.merge p k ls) p.mark along 0 none ls) :
    Reaches s marks c (.merge p k ls) (resolveNode s c (.merge p k ls) along)
      (fun deeper a => roundNode s deeper a (.merge p k ls) along) := by
  intro a m ha hm hv
  rw [resolveNode]
  refine (h a m ha hm (by rintro _ ⟨⟩) fun l => hv.part).bind fun r m₁ hm₁ hr => ?_
  cases r with
  | none => exact .pure hm₁ (by rintro _ ⟨⟩)
  | some w =>
    refine (Settles.of_ensures (renew_ensures markStable_markedIn hm₁ (hr w rfl))).bind
      fun u m₂ hm₂ hu => .pure hm₂ ?_
    rintro _ ⟨⟩
    exact hu

/-- **Enough rounds come to the same as the resolution**: the induction goes along the recursion. -/
theorem reaches (root : s.root.RefersTo marks)
    (environment : ∀ e, s.environment = some e → e.RefersTo marks) (c : Surroundings) (v : Value)
    (along : Option Path) :
    Reaches s marks c v (resolve s c v along) (fun deeper a => deeper a v along) := by
  refine (resolve.mutual_induct s
    (fun c v along => Reaches s marks c v (resolve s c v along) fun deeper a => deeper a v along)
    (fun c v along => Reaches s marks c v (resolveNode s c v along)
      fun deeper a => roundNode s deeper a v along)
    (fun c whole node along layer above below =>
      ReachesLayers s marks c whole node along layer above below)
    (fun c xs => ReachesItems s marks c xs) (fun c along fs => ReachesFields s marks c along fs)
    ?resolve ?objectResolved ?object ?listResolved ?list ?unmarked ?reference ?unavailable ?concat
    ?merge ?leaf ?noLayers ?nested ?layers ?noItems ?items ?noFields ?field ?otherField).1 c v along
  case resolve => exact fun c v along node shown => reaches_resolve node shown
  case objectResolved =>
    exact fun c along p closed fs h => reaches_self (by rw [resolveNode, if_pos h])
      fun deeper a => by simp only [roundNode, if_pos h]
  case object => exact fun c along p closed fs h ih => reaches_object h ih
  case listResolved =>
    exact fun c along p xs h => reaches_self (by rw [resolveNode, if_pos h])
      fun deeper a => by simp only [roundNode, if_pos h]
  case list => exact fun c along p xs h ih => reaches_list h ih
  case unmarked =>
    exact fun c along p r h => reaches_reference root environment fun n hn => by simp [h] at hn
  case reference =>
    intro c along p r m hm hc ih
    refine reaches_reference root environment fun n hn _ => ?_
    cases hm.symm.trans hn
    exact ih
  case unavailable =>
    intro c along p r m hm hc
    refine reaches_reference root environment fun n hn h => ?_
    cases hm.symm.trans hn
    exact absurd h hc
  case concat => exact fun c along p ps ih => reaches_concat ih
  case merge => exact fun c along p k ls ih => reaches_merge ih
  case leaf =>
    intro c v along notObject notList notReference notConcat notMerge
    refine reaches_self (by rw [resolveNode] <;> assumption) fun deeper a => ?_
    cases v with
    | object p closed fs => exact (notObject _ _ _ rfl).elim
    | list p xs => exact (notList _ _ rfl).elim
    | reference p r => exact (notReference _ _ rfl).elim
    | concat p ps => exact (notConcat _ _ rfl).elim
    | merge p k ls => exact (notMerge _ _ _ rfl).elim
    | _ => rfl
  case noLayers =>
    intro c whole node along layer above a m _ hm habove _
    rw [resolveLayers]
    exact .pure hm habove
  case nested =>
    intro c whole node along layer above v below nested _ _ a m _ hm _ _
    cases v with
    | merge p k ls =>
      rw [resolveLayers]
      exact Settles.bind (Q := fun _ => False) (.throw hm) fun _ _ _ => False.elim
    | _ => exact absurd nested Bool.false_ne_true
  case layers =>
    intro c whole node along layer above v below flat head tail
    refine reachesLayers_cons ?_ head tail
    cases v with
    | merge p k ls => exact absurd rfl flat
    | _ => rfl
  case noItems =>
    intro c a m _ hm _
    rw [resolveItems]
    exact .pure hm (List.forall_mem_nil _)
  case items => exact fun c v vs head tail => reachesItems_cons head tail
  case noFields =>
    intro c along a m _ hm _
    rw [resolveFields]
    exact .pure hm (List.forall_mem_nil _)
  case field =>
    intro c along key v fs path hpath tail head
    refine reachesFields_cons (fun path' hpath' => ?_) tail
    cases hpath.symm.trans hpath'
    exact head
  case otherField =>
    intro c along key v fs hpath tail
    refine reachesFields_cons (fun path' hpath' => ?_) tail
    cases hpath.symm.trans hpath'

end Recursion

/-! ### Whole trees -/

/-- Resolves all of `v` in that many rounds at most. -/
def runTo (o : ResolveOptions) (root v : Value) (next : Nat) (beyond : Deeper) (depth : Nat) :
    Except Error Value :=
  outcome ((resolveTo (settingOf o root next) beyond depth {} v none).run.run
    { next := ((o.environment.map fun e => (ofVariables e).markFrom next).map (·.2)).getD next }).1

theorem exists_depth_run {o : ResolveOptions} {root v : Value} {next : Nat}
    (hroot : root.RefersTo (v.referenceMarks ++ root.referenceMarks))
    (hv : v.RefersTo (v.referenceMarks ++ root.referenceMarks)) :
    ∃ depth, ∀ n, depth ≤ n → ∀ beyond, runTo o root v next beyond n = run o root v next := by
  have environment (e : Value) (he : (settingOf o root next).environment = some e) :
      e.RefersTo (v.referenceMarks ++ root.referenceMarks) := by
    obtain ⟨_, h, rfl⟩ := Option.map_eq_some_iff.1 he
    obtain ⟨vars, -, rfl⟩ := Option.map_eq_some_iff.1 h
    have texts : (ofVariables vars).RefersTo (v.referenceMarks ++ root.referenceMarks) := by
      refine .object fun f hf => ?_
      obtain ⟨e, -, rfl⟩ := List.mem_map.1 hf
      exact .of_parts nofun nofun
    exact texts.markFrom markStable_markedIn next
  have matched : Activity.Matches (v.referenceMarks ++ root.referenceMarks) {}
      { available := v.referenceMarks ++ root.referenceMarks } :=
    ⟨rfl, rfl, fun n hn => by simp [hn]⟩
  obtain ⟨depth, reached⟩ := (reaches (s := settingOf o root next) hroot environment
    { available := v.referenceMarks ++ root.referenceMarks } v none {} { next :=
      ((o.environment.map fun e => (ofVariables e).markFrom next).map (·.2)).getD next }
    matched nofun hv).reached
  refine ⟨depth, fun n le beyond => ?_⟩
  rw [run_eq, runTo, reached n le beyond]
  rfl

end Resolution

namespace Value

open Resolution

/-- A tree with marks on all nodes refers to what its references are marked with, and it uses up
marks for that. -/
theorem RefersTo.of_coherent {v : Value} (h : v.Coherent) {next : Nat} (le : v.freeMark ≤ next) :
    next ≤ (v.markFrom next).2 ∧ ∀ marks, (∀ n ∈ (v.markFrom next).1.referenceMarks, n ∈ marks) →
      (v.markFrom next).1.RefersTo marks := by
  obtain ⟨g, markable, below⟩ := h.exists_table le
  obtain ⟨g', grows, known⟩ := exists_known_markFrom v g next below markable
  exact ⟨grows.le, fun marks => .of_known known⟩

/-- Resolves as `Value.resolve` does, in that many rounds at most. -/
def resolveTo (v : Value) (o : ResolveOptions) (beyond : Deeper) (depth : Nat) (next : Nat := 0) :
    Except Error Value :=
  if v.isResolved then .ok v
  else
    let root := v.markFrom (max next v.freeMark)
    runTo o root.1 root.1 root.2 beyond depth

/-- Resolves as `Value.resolveIn` does, in that many rounds at most. -/
def resolveInTo (v source : Value) (o : ResolveOptions) (beyond : Deeper) (depth : Nat)
    (next : Nat := 0) : Except Error Value :=
  if v.isResolved then .ok v
  else
    let own := v.markFrom (max next (max v.freeMark source.freeMark))
    let root := source.markFrom own.2
    runTo o root.1 own.1 root.2 beyond depth

theorem exists_depth_resolve {v : Value} (coherent : v.Coherent) (o : ResolveOptions) (next : Nat) :
    ∃ depth, ∀ n, depth ≤ n → ∀ beyond, v.resolveTo o beyond n next = v.resolve o next := by
  unfold resolveTo resolve
  split
  · exact ⟨0, fun _ _ _ => rfl⟩
  · have own := RefersTo.of_coherent coherent (Nat.le_max_right next v.freeMark)
    exact exists_depth_run (own.2 _ fun _ => List.mem_append_right _)
      (own.2 _ fun _ => List.mem_append_left _)

theorem exists_depth_resolveIn {v source : Value} (coherent : v.Coherent)
    (source_coherent : source.Coherent) (o : ResolveOptions) (next : Nat) :
    ∃ depth, ∀ n, depth ≤ n → ∀ beyond,
      v.resolveInTo source o beyond n next = v.resolveIn source o next := by
  unfold resolveInTo resolveIn
  split
  · exact ⟨0, fun _ _ _ => rfl⟩
  · have own := RefersTo.of_coherent coherent
      (by omega : v.freeMark ≤ max next (max v.freeMark source.freeMark))
    have root := RefersTo.of_coherent source_coherent
      (Nat.le_trans (by omega : source.freeMark ≤ max next (max v.freeMark source.freeMark)) own.1)
    exact exists_depth_run (root.2 _ fun _ => List.mem_append_right _)
      (own.2 _ fun _ => List.mem_append_left _)

/-- **Resolution terminates**, for a tree in itself and for a value in any other tree, whatever the
references are: it takes no more than some depth of rounds, so that nothing shows of what there
would be beyond. -/
theorem exists_depth {v source : Value} (coherent : v.Coherent) (source_coherent : source.Coherent)
    (o : ResolveOptions) (next : Nat) :
    ∃ depth, ∀ n, depth ≤ n → ∀ beyond,
      v.resolveInTo source o beyond n next = v.resolveIn source o next
        ∧ v.resolveTo o beyond n next = v.resolve o next := by
  obtain ⟨depth, elsewhere⟩ := exists_depth_resolveIn coherent source_coherent o next
  obtain ⟨depth', itself⟩ := exists_depth_resolve coherent o next
  refine ⟨max depth depth', fun n le beyond => ⟨elsewhere n ?_ beyond, itself n ?_ beyond⟩⟩
  · exact Nat.le_trans (Nat.le_max_left _ _) le
  · exact Nat.le_trans (Nat.le_max_right _ _) le

/-- References to each other and to themselves, in pieces, in layers and in an object. -/
theorem exists_depth_example :
    let here : Provenance := { origin := .environment }
    let pointer (key : String) := ofReference .environment ⟨.ofKey key, true⟩
    let source := object here false
      [("a", concat here [pointer "b", pointer "a"]),
        ("b", merge here .value [pointer "b", pointer "c"]),
        ("c", object here false [("d", pointer "c")])]
    ∃ depth, ∀ n, depth ≤ n → ∀ beyond,
      (pointer "a").resolveInTo source {} beyond n 0 = (pointer "a").resolveIn source {} 0
        ∧ (pointer "a").resolveTo {} beyond n 0 = (pointer "a").resolve {} 0 := by
  intro here pointer source
  have unmarked {v : Value} (h : v.allNodes (fun u => u.mark.isNone) = true) : v.Coherent :=
    .of_unmarked fun u hu => Option.isNone_iff_eq_none.1 (hu.check h)
  exact exists_depth (unmarked (by decide)) (unmarked (by decide)) {} 0

end Value

end Hocon
