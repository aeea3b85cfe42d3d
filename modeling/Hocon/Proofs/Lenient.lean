import Hocon.Proofs.Outcomes
import Hocon.Proofs.Safety

/-!
# Leaving references in place

A resolution may be allowed to leave mandatory references to nothing in place.  Then its results
may still wait, and the contracts of strict resolutions say nothing about it.  It cannot trip over
itself either: a lenient resolution fails only for neighbours that cannot be joined, for a mandatory
reference in a cycle, and for a lookup that meets a merge of which a layer still waits.

For this much less has to be known about results.  They are well formed, so that waiting merges can
be looked into, and the root is always resolved to an object, so that paths can be looked up in it.
The latter is a matter of marks: results are found by marks, so no node that is no object may have
the mark of the root (`Value.ObjectAt`).
-/

namespace Hocon

namespace Value

variable {n next : Nat} {g : Table} {u v w : Value}

/-! ### The mark of the root -/

/-- Each node with the mark `n` is an object. -/
inductive ObjectAt (n : Nat) : Value → Prop
  | node {v : Value} (own : v.mark = some n → v.fields?.isSome = true)
      (parts : ∀ u ∈ v.parts, ObjectAt n u) : ObjectAt n v

namespace ObjectAt

theorem own (h : ObjectAt n v) (mark : v.mark = some n) : v.fields?.isSome = true := by
  cases h with
  | node own _ => exact own mark

theorem parts (h : ObjectAt n v) : ∀ u ∈ v.parts, ObjectAt n u := by
  cases h with
  | node _ parts => exact parts

theorem new (mark : v.mark = none) (parts : ∀ u ∈ v.parts, ObjectAt n u) : ObjectAt n v :=
  .node (fun h => by cases mark.symm.trans h) parts

theorem inherited : Inherited (ObjectAt n) where
  parts _ h := h.parts
  new _ mark _ := new mark

/-- New marks are others than one that is used. -/
theorem markFrom (h : ObjectAt n v) (used : n < next) : ObjectAt n (v.markFrom next).1 := by
  induction h generalizing next with
  | @node v own parts ih =>
    cases hm : v.mark with
    | some k =>
      rw [markFrom_of_mark hm]
      exact .node own parts
    | none =>
      obtain ⟨mark, parts, -⟩ := markFrom_of_no_mark hm next
      refine .node (fun h => ?_) ?_
      · have := Option.some.inj (mark.symm.trans h)
        omega
      · rw [parts]
        exact forall_mem_markItems fun u hu k le => ih u hu (by omega)

/-- In a register there is one node with the mark. -/
theorem of_known (known : v.Known g) (entry : g n = some w) (object : w.fields?.isSome = true) :
    ObjectAt n v := by
  induction known with
  | node mark entry' _ ih =>
    refine .node (fun h => ?_) ih
    cases mark.symm.trans h
    cases entry'.symm.trans entry
    exact object

end ObjectAt

/-- A tree that a lenient resolution may hold, where the root has the mark `n`. -/
structure Admitted (n : Nat) (v : Value) : Prop where
  wellFormed : v.WellFormed .any
  objectAt : v.ObjectAt n

namespace Admitted

theorem iff : v.Admitted n ↔ v.WellFormed .any ∧ v.ObjectAt n :=
  ⟨fun h => ⟨h.wellFormed, h.objectAt⟩, fun h => ⟨h.1, h.2⟩⟩

theorem parts (h : v.Admitted n) : ∀ u ∈ v.parts, u.Admitted n :=
  fun u hu => ⟨h.wellFormed.parts u hu, h.objectAt.parts u hu⟩

theorem withFallback (hv : v.Admitted n) (hw : w.Admitted n) : (v.withFallback w).Admitted n where
  wellFormed := hv.wellFormed.withFallback hw.wellFormed
  objectAt := ObjectAt.inherited.withFallback hv.wellFormed hw.wellFormed hv.objectAt hw.objectAt

theorem joinClosed : JoinClosed (Admitted n) := by
  have closed : JoinClosed fun v => v.WellFormed .any ∧ v.ObjectAt n :=
    ObjectAt.inherited.joinClosed
  simpa only [← iff] using closed

theorem markFrom (h : v.Admitted n) (used : n < next) : (v.markFrom next).1.Admitted n where
  wellFormed := h.wellFormed.markFrom (fun _ _ _ => id) next
  objectAt := h.objectAt.markFrom used

end Admitted

/-! ### Looking through trees that wait -/

/-- What looking through a tree comes to: nothing, something with a property, or a layer that
waits. -/
def Reveals (P : Value → Prop) : Except Error (Option Value) → Prop
  | .ok found => ∀ u, found = some u → P u
  | .error e => ∃ path key whole layer, e = .pending (.hidden path key whole layer)

section

variable {manner : Manner} {P : Value → Prop} (parts : ∀ v, P v → ∀ u ∈ v.parts, P u)
include parts

theorem reveals_peekLayers (path : Path) (whole : Origin) {ls : List Value}
    (waits : ∃ l ∈ ls, l.fields? = none) (h : ∀ l ∈ ls, P l) :
    Reveals P (peekLayers path whole ls) := by
  induction ls with
  | nil =>
    obtain ⟨l, hl, -⟩ := waits
    cases hl
  | cons l ls ih =>
    rw [peekLayers]
    split
    · next fs hf =>
      obtain ⟨p, c, rfl⟩ := eq_object_of_fields? hf
      -- the layer that is no object is further below
      have below : Reveals P (peekLayers path whole ls) := by
        refine ih ?_ fun x hx => h x (List.mem_cons_of_mem _ hx)
        obtain ⟨x, hx, notObject⟩ := waits
        rcases List.mem_cons.1 hx with rfl | hx
        · cases notObject
        · exact ⟨x, hx, notObject⟩
      split
      · next v hv =>
        split
        · rintro _ ⟨⟩
          have part : v ∈ (object p c fs).parts :=
            mem_parts_of_mem_fields (Entries.mem_of_get? hv)
          exact parts _ (h _ List.mem_cons_self) v part
        · exact below
      · exact below
    · split
      · exact ⟨_, _, _, _, rfl⟩
      · rintro _ ⟨⟩

theorem reveals_peekFirst (path : Path) (wf : v.WellFormed manner) (h : P v) :
    Reveals P (v.peekFirst path) := by
  cases v with
  | object p c fs =>
    exact fun u hu => parts _ h u (mem_parts_of_mem_fields (Entries.mem_of_get? hu))
  | merge p k ls =>
    cases k with
    | value => rintro _ ⟨⟩
    | object => exact reveals_peekLayers parts path p.origin (wf.exists_layer rfl) (parts _ h)
  | _ => rintro _ ⟨⟩

/-- Only a layer that waits comes into the way of looking through a well formed tree. -/
theorem reveals_peekThrough (wf : ∀ v, P v → v.WellFormed manner) (first : String)
    (rest : List String) (h : P v) : Reveals P (v.peekThrough first rest) := by
  induction rest generalizing first v with
  | nil => exact reveals_peekFirst parts _ (wf v h) h
  | cons next rest ih =>
    have reveals := reveals_peekFirst parts ⟨first, next :: rest⟩ (wf v h) h
    rw [peekThrough]
    generalize v.peekFirst _ = found at reveals
    obtain e | _ | u := found
    · exact reveals
    · rintro _ ⟨⟩
    · show Reveals P (if u.isObjectValued then u.peekThrough next rest else pure none)
      split
      · exact ih next (reveals u rfl)
      · rintro _ ⟨⟩

end

end Value

namespace Resolution

open Value

variable {n : Nat} {inside : Prop} {α β : Type}

/-! ### Runs -/

/-- What is remembered may be held, and what is remembered of the root is an object. -/
structure Remembers (n : Nat) (m : Memory) : Prop where
  used : n < m.next
  memo : ∀ memo ∈ m.memos, memo.result.Admitted n
    ∧ (memo.node = n → memo.result.fields?.isSome = true)

/-- The errors of a lenient resolution. -/
def Tolerated (e : Error) : Prop :=
  (∃ o fault, e = .wrongType o fault)
    ∨ (∃ o r trace, r.optional = false ∧ e = .unresolved o (.cycle r trace))
    ∨ ∃ path key whole layer, e = .pending (.hidden path key whole layer)

/-- What a run does: what is remembered stays right, an outcome is as expected, an error is among
the tolerated ones, and a cycle is met only `inside` of a lookup. -/
def Tolerates (n : Nat) (inside : Prop) (x : Step α) (Q : α → Prop) : Prop :=
  ∀ m, Remembers n m → Ensures x m fun out m' => Remembers n m' ∧
    match out with
    | .ok a => Q a
    | .error (.cycle _) => inside
    | .error (.error e) => Tolerated e

namespace Tolerates

variable {x : Step α} {Q R : α → Prop} {S : β → Prop}

theorem pure {a : α} (h : Q a) : Tolerates n inside (pure a) Q :=
  fun _ remembers => Ensures.pure ⟨remembers, h⟩

theorem cycle {reached : List PathReference} (h : inside) :
    Tolerates n inside (throw (.cycle reached) : Step α) Q :=
  fun _ remembers => Ensures.throw ⟨remembers, h⟩

theorem error {e : Error} (h : Tolerated e) :
    Tolerates n inside (throw (.error e) : Step α) Q :=
  fun _ remembers => Ensures.throw ⟨remembers, h⟩

theorem bind {f : α → Step β} (hx : Tolerates n inside x Q)
    (hf : ∀ a, Q a → Tolerates n inside (f a) S) : Tolerates n inside (x >>= f) S := by
  intro m remembers
  refine Ensures.bind (hx m remembers) (fun a m' h => hf a h.2 m' h.1) fun e m' h => ?_
  cases e <;> exact h

/-- One of two computations with the same one behind. -/
theorem ite_bind {p : Prop} [Decidable p] {y : Step α} {f : α → Step β}
    (hx : Tolerates n inside (if p then x else y) Q)
    (hf : ∀ a, Q a → Tolerates n inside (f a) S) :
    Tolerates n inside (if p then x >>= f else y >>= f) S := by
  by_cases h : p
  · rw [if_pos h] at hx ⊢
    exact hx.bind hf
  · rw [if_neg h] at hx ⊢
    exact hx.bind hf

theorem mono (hx : Tolerates n inside x Q) (h : ∀ a, Q a → R a) : Tolerates n inside x R := by
  refine fun m remembers => (hx m remembers).mono fun out m' hout => ⟨hout.1, ?_⟩
  match out with
  | .ok a => exact h a hout.2
  | .error (.cycle _) | .error (.error _) => exact hout.2

/-- In a lookup all cycles are fine. -/
theorem nested (hx : Tolerates n inside x Q) : Tolerates n True x Q := by
  refine fun m remembers => (hx m remembers).mono fun out m' hout => ⟨hout.1, ?_⟩
  match out with
  | .error (.cycle _) => trivial
  | .ok _ | .error (.error _) => exact hout.2

theorem get_bind {f : Memory → Step β} (hf : ∀ m, Remembers n m → Tolerates n inside (f m) S) :
    Tolerates n inside (get >>= f) S :=
  fun m remembers => Ensures.get_bind (hf m remembers m remembers)

theorem renew {w : Value} (h : w.Admitted n) :
    Tolerates n inside (renew w) fun u => u.Admitted n ∧ u.fields?.isSome = w.fields?.isSome := by
  refine fun m remembers => Ensures.modifyGet ⟨⟨?_, remembers.memo⟩, h.markFrom remembers.used, ?_⟩
  · exact Nat.lt_of_lt_of_le remembers.used (le_markFrom w m.next)
  · exact (alike_markFrom w m.next).fields?_isSome_eq

/-- A lookup deals with the cycles that are met in it. -/
theorem lookup {f : List PathReference → Step α} (hx : Tolerates n True x Q)
    (hf : ∀ reached, Tolerates n inside (f reached) Q) :
    Tolerates n inside (tryCatch x fun
      | .cycle reached => f reached
      | .error e => throw (.error e)) Q := by
  refine fun m remembers => Ensures.tryCatch (hx m remembers) (fun a m' h => h) fun e m' h => ?_
  cases e with
  | cycle reached => exact hf reached m' h.1
  | error e => exact error h.2 m' h.1

end Tolerates

/-- The setting of a lenient resolution without environment. -/
structure Lenient (s : Setting) (n : Nat) : Prop where
  allowed : s.allowUnresolved = true
  alone : s.environment = none
  admitted : s.root.Admitted n
  mark : s.root.mark = some n

/-- What may be resolved: outside of any lookup it is a part of the root, and what shows of the
merges that are open has marks of its own. -/
structure Ready (g : Table) (n : Nat) (c : Surroundings) (v : Value) : Prop where
  admitted : v.Admitted n
  known : c.trace = [] → v.Known g
  outside : Outside g c v
  reserved : ∀ o ∈ c.merges, n < o.base

/-- A result that may be held. -/
abbrev Result (n : Nat) (r : Option Value) : Prop := ∀ w, r = some w → w.Admitted n

/-- Results that may be held. -/
abbrev Results (n : Nat) (rs : List (Option Value)) : Prop := ∀ u, some u ∈ rs → u.Admitted n

/-- Results for fields. -/
structure FieldResults (n : Nat) (fs : Entries Value) (rs : Entries (Option Value)) : Prop where
  keys : Entries.keys rs = Entries.keys fs
  admitted : ∀ k u, (k, some u) ∈ rs → u.Admitted n

/-- A result for `v`: the root gives an object. -/
def ResultFor (n : Nat) (v : Value) (r : Option Value) : Prop :=
  Result n r ∧ (v.mark = some n → ∃ w, r = some w ∧ w.fields?.isSome = true)

variable {s : Setting} {g : Table} {c : Surroundings} {u v w : Value} {along : Option Path}
  {p : Provenance}

theorem Result.some (h : w.Admitted n) : Result n (some w) := by
  rintro _ ⟨⟩
  exact h

theorem Result.gone : Result n none := by
  rintro _ ⟨⟩

/-- What is no object is not the root. -/
theorem Result.resultFor {r : Option Value} (h : Result n r) (ready : Ready g n c v)
    (notObject : v.fields? = none) : ResultFor n v r := by
  refine ⟨h, fun mark => ?_⟩
  have := ready.admitted.objectAt.own mark
  rw [notObject] at this
  cases this

namespace Ready

theorem part (h : Ready g n c v) (hu : u ∈ v.parts) : Ready g n c u where
  admitted := h.admitted.parts u hu
  known trace := (h.known trace).parts u hu
  outside := h.outside.part hu
  reserved := h.reserved

/-- What is looked up may be resolved in the lookup. -/
theorem within (h : Ready g n c v) (hu : u.Admitted n) (m : Nat) (t : PathReference) :
    Ready g n (c.within m (c.trace ++ [t])) u where
  admitted := hu
  known trace := by simp [Surroundings.within] at trace
  outside := .within
  reserved := h.reserved

theorem layer {k : MergeKind} {ls : List Value} {l : Value} {i base : Nat}
    (h : Ready g n c (.merge p k ls)) (hl : l ∈ ls) (reserved : l.isPending = true → n < base) :
    Ready g n (c.opening p.mark i base l) l where
  admitted := h.admitted.parts l hl
  known trace := (h.known trace).parts l hl
  outside trace := h.outside.layer (h.known trace) hl trace
  reserved o ho := by
    simp only [Surroundings.opening] at ho
    split at ho
    · next pending _ =>
      rcases List.mem_cons.1 ho with rfl | ho
      · exact reserved pending
      · exact h.reserved o ho
    · exact h.reserved o ho

/-- An open merge is come back to in a lookup only. -/
theorem trace_ne_nil (h : Ready g n c v) {shown : Option Value} (hs : c.showing? v = some shown) :
    c.trace ≠ [] :=
  fun trace => h.outside.trace_ne_nil (h.known trace) hs trace

/-- What shows of an open merge may be resolved. -/
theorem shown (h : Ready g n c v) (hs : c.showing? v = some (some w)) : Ready g n c w where
  admitted := by
    cases v with
    | merge p k ls =>
      obtain ⟨o, ho, hw⟩ := Option.map_eq_some_iff.1 hs
      obtain ⟨u, hu, rfl⟩ := Option.map_eq_some_iff.1 hw
      have merged : u.Admitted n := mergeLayers?_of_merged (fun _ _ hv hw => hv.withFallback hw)
        (fun l hl => h.admitted.parts l (List.mem_of_mem_drop hl)) hu
      exact merged.markFrom (h.reserved o (List.mem_of_find?_eq_some ho))
    | _ => cases hs
  known trace := absurd trace (h.trace_ne_nil hs)
  outside trace := absurd trace (h.trace_ne_nil hs)
  reserved := h.reserved

end Ready

/-! ### Steps -/

theorem Remembers.recall {m : Memory} (h : Remembers n m) (hw : m.recall? v along = some w) :
    ResultFor n v (some w) := by
  unfold Memory.recall? at hw
  split at hw
  · cases hw
  · next node mark =>
    have find {a : Option Path} (ha : m.find? node a = some w) : ResultFor n v (some w) := by
      obtain ⟨memo, hm, rfl⟩ := Option.map_eq_some_iff.1 ha
      obtain ⟨admitted, object⟩ := h.memo memo (List.mem_of_find?_eq_some hm)
      have same := List.find?_some hm
      simp only [Bool.and_eq_true, beq_iff_eq] at same
      refine ⟨.some admitted, fun root => ⟨_, rfl, object ?_⟩⟩
      exact same.1.trans (Option.some.inj (mark.symm.trans root))
    split at hw
    · next hn =>
      cases hw
      exact find hn
    · split at hw
      · exact find hw
      · cases hw

theorem Remembers.remember {m : Memory} (h : Remembers n m) (hw : ResultFor n v (some w))
    (a : Option Path) : Remembers n (m.remember v a w) where
  used := (Memory.next_remember m v w a).symm ▸ h.used
  memo := by
    unfold Memory.remember
    split
    · exact h.memo
    · next node mark =>
      refine List.forall_mem_cons.2 ⟨⟨hw.1 w rfl, ?_⟩, h.memo⟩
      rintro rfl
      obtain ⟨_, ⟨⟩, object⟩ := hw.2 mark
      exact object

theorem tolerates_keepResult (lenient : Lenient s n) {r : Option Value} (h : ResultFor n v r) :
    Tolerates n inside (keepResult s v along r) (ResultFor n v) := by
  cases r with
  | none => exact .pure h
  | some w =>
    have remember (a : Option Path) :
        Tolerates n inside (modify fun m => m.remember v a w : Step Unit) fun _ => True :=
      fun m remembers => Ensures.modify ⟨remembers.remember h a, trivial⟩
    refine .bind (Q := fun _ => True) ?_ fun _ _ => .pure h
    unfold keep
    rw [lenient.allowed, Bool.or_true, if_pos rfl]
    split
    · exact remember none
    · exact remember along

/-- An object stays one. -/
theorem tolerates_rebuildObject {closed : Bool} {fs : Entries Value}
    {rs : Entries (Option Value)} (ready : Ready g n c (.object p closed fs))
    (hrs : FieldResults n fs rs) :
    Tolerates n inside (rebuildObject (.object p closed fs) fs rs) fun w =>
      w.Admitted n ∧ w.fields?.isSome = true := by
  unfold rebuildObject
  split
  · exact .pure ⟨ready.admitted, rfl⟩
  · have fields (k : String) (u : Value)
        (hu : (k, u) ∈ rs.filterMap fun f => f.2.map fun w => (f.1, w)) : u.Admitted n := by
      obtain ⟨⟨k', r⟩, hr, e⟩ := List.mem_filterMap.1 hu
      obtain ⟨w, rfl, e⟩ := Option.map_eq_some_iff.1 e
      cases e
      exact hrs.admitted _ _ hr
    refine (Tolerates.renew ⟨?_, .new rfl ?_⟩).mono fun w h => ⟨h.1, h.2⟩
    · refine .object (fun _ _ => trivial) closed ?_ fun k u hu => (fields k u hu).wellFormed
      exact (hrs.keys ▸ keys_left_sublist rs).nodup ready.admitted.wellFormed.nodup
    · intro u hu
      obtain ⟨f, hf, rfl⟩ := List.mem_map.1 hu
      exact (fields f.1 f.2 hf).objectAt

theorem Results.admitted {rs : List (Option Value)} (hrs : Results n rs) :
    ∀ u ∈ rs.filterMap id, u.Admitted n := by
  intro u hu
  obtain ⟨r, hr, rfl⟩ := List.mem_filterMap.1 hu
  exact hrs u hr

theorem tolerates_rebuildList {xs : List Value} {rs : List (Option Value)} (h : v.Admitted n)
    (hrs : Results n rs) : Tolerates n inside (rebuildList v xs rs) fun w => w.Admitted n := by
  have items := Results.admitted hrs
  unfold rebuildList
  split
  · exact .pure h
  · refine (Tolerates.renew ⟨?_, .new rfl ?_⟩).mono fun w hw => hw.1
    · exact .list (fun _ _ => trivial) fun u hu => (items u hu).wellFormed
    · exact fun u hu => (items u hu).objectAt

/-- Pieces that do not come together become a concatenation again. -/
theorem tolerates_joinPieces (lenient : Lenient s n) {ps : List Value}
    (hps : ∀ u ∈ ps, u.Admitted n) : Tolerates n inside (joinPieces s v ps) (Result n) := by
  unfold joinPieces
  split
  · next he => exact .error (.inl (exists_wrongType_of_joinRun he))
  · exact .pure .gone
  · next w hw =>
    have joined := Admitted.joinClosed.joinRun hps hw w List.mem_cons_self
    exact (Tolerates.renew joined).bind fun u hu => .pure (.some hu.1)
  · next ws _ _ hws =>
    have joined := Admitted.joinClosed.joinRun hps hws
    rw [if_pos lenient.allowed]
    refine (Tolerates.renew ⟨?_, .new rfl ?_⟩).bind fun u hu => .pure (.some hu.1)
    · exact .concat (fun _ _ => trivial) trivial fun u hu => (joined u hu).wellFormed
    · exact fun u hu => (joined u hu).objectAt

/-- The marks that are reserved are not used. -/
theorem tolerates_reserve (below : List Value) :
    Tolerates n inside (reserve below) fun base => n < base := by
  refine fun m remembers => Ensures.modifyGet ⟨⟨?_, remembers.memo⟩, remembers.used⟩
  split
  · exact Nat.lt_of_lt_of_le remembers.used (le_markFrom _ m.next)
  · exact remembers.used

/-! ### Lookups -/

theorem tolerates_findIn (lenient : Lenient s n)
    {resolve : Value → Option Path → Step (Option Value)} (path : Path)
    (h : Tolerates n inside (resolve s.root (some path)) (ResultFor n s.root)) :
    Tolerates n inside (findIn resolve s.root path) (Result n) := by
  refine h.bind fun r hr => ?_
  obtain ⟨w, rfl, object⟩ := hr.2 lenient.mark
  have valued : w.isObjectValued = true := by
    cases w <;> first | rfl | cases object
  have reveals := reveals_peekThrough (fun _ => Admitted.parts) (fun _ => Admitted.wellFormed)
    path.first path.rest (hr.1 w rfl)
  simp only [valued, if_true]
  split
  · next found hf =>
    rw [hf] at reveals
    exact .pure reveals
  · next e he =>
    rw [he] at reveals
    exact .error (.inr (.inr reveals))

theorem tolerates_lookUp (lenient : Lenient s n)
    {resolve : List PathReference → Value → Option Path → Step (Option Value)}
    {outer : List PathReference} {r : Reference}
    (h : ∀ t u along, u.Admitted n →
      Tolerates n True (resolve (outer ++ [t]) u along) (ResultFor n u)) :
    Tolerates n True (lookUp s resolve outer r along) (Result n) := by
  have find (t : PathReference) (path : Path) :
      Tolerates n True (findIn (resolve (outer ++ [t])) s.root path) (Result n) :=
    tolerates_findIn lenient path (h _ _ _ lenient.admitted)
  have follow (t : PathReference) {u : Value} (hu : u.Admitted n) :
      Tolerates n True (resolve (outer ++ [t]) u along) (Result n) :=
    (h _ _ _ hu).mono fun _ => And.left
  unfold lookUp
  refine (find _ _).bind fun found hf => ?_
  cases found with
  | some u => exact follow _ (hf u rfl)
  | none =>
    cases r.target.path.drop? r.included with
    | none => exact .pure .gone
    | some path =>
      -- the second attempt is the last one
      refine .ite_bind (y := pure none) (Q := Result n) ?_ fun found hf => ?_
      · split
        · exact find _ path
        · exact .pure .gone
      · cases found with
        | some u => exact follow _ (hf u rfl)
        | none =>
          rw [lenient.alone]
          exact .pure .gone

/-- A cycle fails a mandatory reference, and one without a target stays in place. -/
theorem tolerates_settleLookup (lenient : Lenient s n) {target : PathReference}
    {x : Step (Option Value)} (hv : v.Admitted n) (hx : Tolerates n True x (Result n)) :
    Tolerates n inside (settleLookup s v target x) (Result n) := by
  unfold settleLookup
  refine .bind (Q := Result n) (.lookup hx fun reached => ?_) fun found hf => ?_
  · split
    · exact .pure .gone
    · next mandatory =>
      exact .error (.inr (.inl ⟨_, _, _, by simpa using mandatory, rfl⟩))
  · cases found with
    | some w => exact .pure hf
    | none =>
      simp only [lenient.allowed, if_true]
      split
      · exact .pure .gone
      · exact .pure (.some hv)

/-! ### The recursion -/

/-- A node gives what is remembered of it, what shows of it, or what is in it. -/
theorem tolerates_shown (lenient : Lenient s n) (ready : Ready g n c v)
    (node : Tolerates n (c.trace ≠ []) (resolveNode s c v along) (ResultFor n v))
    (shown : ∀ w, c.showing? v = some (some w) →
      Tolerates n (c.trace ≠ []) (resolve s c w along) (ResultFor n w)) :
    Tolerates n (c.trace ≠ []) (resolve s c v along) (ResultFor n v) := by
  rw [resolve_eq]
  refine .get_bind fun m remembers => ?_
  split
  · next w hw => exact .pure (remembers.recall hw)
  · refine .bind ?_ fun r hr => tolerates_keepResult lenient hr
    cases hs : c.showing? v with
    | none => exact node
    | some showing =>
      cases showing with
      | none => exact .cycle (ready.trace_ne_nil hs)
      | some w =>
        have merge : v.fields? = none := by
          cases v <;> first | rfl | cases hs
        exact (shown w hs).mono fun r hr => Result.resultFor hr.1 ready merge

theorem tolerates_object {closed : Bool} {fs : Entries Value}
    (ready : Ready g n c (.object p closed fs)) (fields : ¬ fieldsResolved fs = true →
      Tolerates n inside (resolveFields s c along fs) (FieldResults n fs)) :
    Tolerates n inside (resolveNode s c (.object p closed fs) along)
      (ResultFor n (.object p closed fs)) := by
  rw [resolveNode]
  split
  · exact .pure ⟨.some ready.admitted, fun _ => ⟨_, rfl, rfl⟩⟩
  · next waits =>
    refine (fields waits).bind fun rs hrs => ?_
    refine (tolerates_rebuildObject ready hrs).bind fun w hw => ?_
    exact .pure ⟨.some hw.1, fun _ => ⟨w, rfl, hw.2⟩⟩

theorem tolerates_list {xs : List Value} (ready : Ready g n c (.list p xs))
    (items : ¬ (itemsResolved xs || along.isSome) = true →
      Tolerates n inside (resolveItems s c xs) (Results n)) :
    Tolerates n inside (resolveNode s c (.list p xs) along) (ResultFor n (.list p xs)) := by
  rw [resolveNode]
  split
  · exact .pure (Result.resultFor (.some ready.admitted) ready rfl)
  · next waits =>
    refine (items waits).bind fun rs hrs => ?_
    refine (tolerates_rebuildList ready.admitted hrs).bind fun w hw => ?_
    exact .pure (Result.resultFor (.some hw) ready rfl)

/-- Outside of any lookup all references can be looked up. -/
theorem tolerates_reference (lenient : Lenient s n) {r : Reference}
    (ready : Ready g n c (.reference p r)) (h : ∀ m, p.mark = some m → m ∈ c.available →
      ∀ t u along, u.Admitted n →
        Tolerates n True (resolve s (c.within m (c.trace ++ [t])) u along) (ResultFor n u)) :
    Tolerates n (c.trace ≠ []) (resolveNode s c (.reference p r) along)
      (ResultFor n (.reference p r)) := by
  rw [resolveNode]
  split
  · next unmarked =>
    refine .cycle fun trace => ?_
    obtain ⟨m, mark, -⟩ := (ready.known trace).exists_mark
    cases mark.symm.trans unmarked
  · next m mark =>
    split
    · next available =>
      refine (tolerates_settleLookup lenient ready.admitted ?_).mono fun r hr =>
        hr.resultFor ready rfl
      exact tolerates_lookUp lenient (h m mark available)
    · next unavailable =>
      refine .cycle fun trace => unavailable ((ready.outside trace).1 m ?_)
      simp [referenceMarks, mark]

theorem tolerates_concat (lenient : Lenient s n) {ps : List Value}
    (ready : Ready g n c (.concat p ps))
    (pieces : Tolerates n inside (resolveItems s c ps) (Results n)) :
    Tolerates n inside (resolveNode s c (.concat p ps) along) (ResultFor n (.concat p ps)) := by
  rw [resolveNode]
  refine pieces.bind fun rs hrs => ?_
  exact (tolerates_joinPieces lenient (Results.admitted hrs)).mono fun r hr =>
    hr.resultFor ready rfl

theorem tolerates_merge {k : MergeKind} {ls : List Value} (ready : Ready g n c (.merge p k ls))
    (layers : Tolerates n inside
      (resolveLayers s c (.merge p k ls) p.mark along 0 none ls) (Result n)) :
    Tolerates n inside (resolveNode s c (.merge p k ls) along)
      (ResultFor n (.merge p k ls)) := by
  rw [resolveNode]
  refine layers.bind fun r hr => ?_
  split
  · next w =>
    refine (Tolerates.renew (hr w rfl)).bind fun u hu => ?_
    exact .pure (Result.resultFor (.some hu.1) ready rfl)
  · exact .pure (Result.resultFor .gone ready rfl)

theorem tolerates_resolveItems_cons {vs : List Value}
    (head : Tolerates n inside (resolve s c v none) (Result n))
    (tail : Tolerates n inside (resolveItems s c vs) (Results n)) :
    Tolerates n inside (resolveItems s c (v :: vs)) (Results n) := by
  rw [resolveItems]
  refine head.bind fun r hr => tail.bind fun rs hrs => .pure fun u hu => ?_
  rcases List.mem_cons.1 hu with rfl | hu
  · exact hr u rfl
  · exact hrs u hu

theorem tolerates_resolveFields_cons {key : String} {fs : Entries Value}
    (head : ∀ a, alongField along key = some a →
      Tolerates n inside (resolve s c v a) (Result n))
    (hv : v.Admitted n)
    (tail : Tolerates n inside (resolveFields s c along fs) (FieldResults n fs)) :
    Tolerates n inside (resolveFields s c along ((key, v) :: fs))
      (FieldResults n ((key, v) :: fs)) := by
  have rest (r : Option Value) (hr : Result n r) :
      Tolerates n inside (do
          let rs ← resolveFields s c along fs
          pure ((key, r) :: rs)) (FieldResults n ((key, v) :: fs)) := by
    refine tail.bind fun rs hrs => .pure ⟨congrArg (key :: ·) hrs.keys, fun k u hu => ?_⟩
    rcases List.mem_cons.1 hu with e | hu
    · cases e
      exact hr u rfl
    · exact hrs.admitted k u hu
  rw [resolveFields]
  cases ha : alongField along key with
  | none => exact rest _ (.some hv)
  | some a => exact (head a ha).bind rest

theorem Result.overlay {a b : Option Value} (ha : Result n a) (hb : Result n b) :
    Result n (Entries.overlay a b) := by
  intro w hw
  rcases Entries.overlay_cases hw with h | h | ⟨x, y, hx, hy, rfl⟩
  · exact ha w h
  · exact hb w h
  · exact (ha x hx).withFallback (hb y hy)

theorem tolerates_resolveLayers_cons {whole : Value} {node : Option Nat} {layer : Nat}
    {above : Option Value} {below : List Value} (flat : v.isMerge = false)
    (head : ∀ base, (v.isPending = true → n < base) →
      Tolerates n inside (resolve s (c.opening node layer base v) v along) (Result n))
    (tail : ∀ result, Result n result → Tolerates n inside
      (resolveLayers s c whole node along (layer + 1) (Entries.overlay above result) below)
      (Result n)) :
    Tolerates n inside (resolveLayers s c whole node along layer above (v :: below))
      (Result n) := by
  rw [resolveLayers]
  swap
  · rintro p k ls rfl
    cases flat
  simp only [Bool.false_eq_true, if_false]
  have rest (base : Nat) (reserved : v.isPending = true → n < base)
      {next : Option Value → Step (Option Value)}
      (hnext : ∀ result, next result
        = resolveLayers s c whole node along (layer + 1) (Entries.overlay above result) below) :
      Tolerates n inside (resolve s (c.opening node layer base v) v along >>= next)
        (Result n) :=
    (head base reserved).bind fun result hr => hnext result ▸ tail result hr
  -- only a layer that waits can come back to the merge
  split
  · refine (tolerates_reserve below).bind fun base used => ?_
    exact rest base (fun _ => used) fun result =>
      congrArg (resolveLayers s c whole node along (layer + 1) · below)
        (Contract.overlay_eq above result)
  · next waits =>
    exact rest 0 (fun h => absurd h waits) fun result =>
      congrArg (resolveLayers s c whole node along (layer + 1) · below)
        (Contract.overlay_eq above result)

/-- **A lenient resolution has tolerated errors only**, and cycles only in lookups. -/
theorem tolerates_resolve (lenient : Lenient s n) (c : Surroundings) (v : Value)
    (along : Option Path) (ready : Ready g n c v) :
    Tolerates n (c.trace ≠ []) (resolve s c v along) (ResultFor n v) := by
  -- along the recursion of the resolver, one case for each of its branches
  revert ready
  refine (resolve.mutual_induct s
    (fun c v along => Ready g n c v →
      Tolerates n (c.trace ≠ []) (resolve s c v along) (ResultFor n v))
    (fun c v along => Ready g n c v →
      Tolerates n (c.trace ≠ []) (resolveNode s c v along) (ResultFor n v))
    (fun c whole node along layer above below => ∀ p k ls, whole = .merge p k ls → node = p.mark →
      (∀ l ∈ below, l ∈ ls) → Ready g n c whole → Result n above →
      Tolerates n (c.trace ≠ []) (resolveLayers s c whole node along layer above below) (Result n))
    (fun c xs => (∀ x ∈ xs, Ready g n c x) →
      Tolerates n (c.trace ≠ []) (resolveItems s c xs) (Results n))
    (fun c along fs => (∀ f ∈ fs, Ready g n c f.2) →
      Tolerates n (c.trace ≠ []) (resolveFields s c along fs) (FieldResults n fs))
    ?resolve ?objectResolved ?object ?listResolved ?list ?unmarked ?reference ?unavailable ?concat
    ?merge ?leaf ?noLayers ?nested ?layers ?noItems ?items ?noFields ?field ?otherField).1 c v along
  case resolve =>
    exact fun c v along node shown ready =>
      tolerates_shown lenient ready (node ready) fun w hs => shown w hs (ready.shown hs)
  case objectResolved =>
    exact fun c along p closed fs h ready => tolerates_object ready fun waits => absurd h waits
  case object =>
    exact fun c along p closed fs h ih ready =>
      tolerates_object ready fun _ => ih fun f hf => ready.part (mem_parts_of_mem_fields hf)
  case listResolved =>
    exact fun c along p xs h ready => tolerates_list ready fun waits => absurd h waits
  case list =>
    exact fun c along p xs h ih ready =>
      tolerates_list ready fun _ => ih fun x hx => ready.part hx
  case unmarked =>
    refine fun c along p r h ready => tolerates_reference lenient ready fun m mark => ?_
    cases h.symm.trans mark
  case reference =>
    refine fun c along p r m h available ih ready =>
      tolerates_reference lenient ready fun m' mark _ t u along hu => ?_
    cases h.symm.trans mark
    exact (ih _ u along (ready.within hu m t)).nested
  case unavailable =>
    refine fun c along p r m h unavailable ready =>
      tolerates_reference lenient ready fun m' mark available => ?_
    cases h.symm.trans mark
    exact absurd available unavailable
  case concat =>
    exact fun c along p ps ih ready => tolerates_concat lenient ready (ih fun x hx => ready.part hx)
  case merge =>
    exact fun c along p k ls ih ready =>
      tolerates_merge ready (ih p k ls rfl rfl (fun _ => id) ready .gone)
  case leaf =>
    intro c v along notObject notList notReference notConcat notMerge ready
    have self : resolveNode s c v along = pure (some v) := by
      rw [resolveNode]
      all_goals assumption
    rw [self]
    refine .pure (Result.resultFor (.some ready.admitted) ready ?_)
    cases v with
    | object p closed fs => exact (notObject _ _ _ rfl).elim
    | _ => rfl
  case noLayers =>
    intro c whole node along layer above p k ls _ _ _ _ habove
    rw [resolveLayers]
    exact .pure habove
  case nested =>
    intro c whole node along layer above v below nested _ _ p k ls hw _ mem ready _
    subst hw
    have flat := ready.admitted.wellFormed.flat v (mem v List.mem_cons_self)
    cases v with
    | merge p k ls => cases flat
    | _ => exact absurd nested Bool.false_ne_true
  case layers =>
    intro c whole node along layer above v below _ head tail p k ls hw hnode mem ready habove
    subst hw hnode
    have hv := mem v List.mem_cons_self
    have flat : v.isMerge = false := ready.admitted.wellFormed.flat v hv
    refine tolerates_resolveLayers_cons flat (fun base reserved => ?_) fun result hr => ?_
    · exact (head base (ready.layer hv reserved)).mono fun _ => And.left
    · have merged := habove.overlay hr
      rw [← Contract.overlay_eq] at merged ⊢
      exact tail result p k ls rfl rfl (fun l hl => mem l (List.mem_cons_of_mem _ hl)) ready merged
  case noItems =>
    intro c _
    rw [resolveItems]
    exact .pure (by rintro _ ⟨⟩)
  case items =>
    intro c v vs head tail hvs
    obtain ⟨hv, hvs⟩ := List.forall_mem_cons.1 hvs
    exact tolerates_resolveItems_cons ((head hv).mono fun _ => And.left) (tail hvs)
  case noFields =>
    intro c along _
    rw [resolveFields]
    exact .pure ⟨rfl, by rintro _ _ ⟨⟩⟩
  case field =>
    intro c along key v fs a ha tail head hfs
    obtain ⟨hv, hfs⟩ := List.forall_mem_cons.1 hfs
    refine tolerates_resolveFields_cons (fun a' ha' => ?_) hv.admitted (tail hfs)
    cases ha.symm.trans ha'
    exact (head hv).mono fun _ => And.left
  case otherField =>
    intro c along key v fs ha tail hfs
    obtain ⟨hv, hfs⟩ := List.forall_mem_cons.1 hfs
    refine tolerates_resolveFields_cons (fun a' ha' => ?_) hv.admitted (tail hfs)
    cases ha.symm.trans ha'

/-! ### Whole resolutions -/

/-- **A lenient resolution of a tree in itself** gives an object, or has a tolerated error. -/
theorem resolve_tolerated {v : Value} (coherent : v.Coherent) (wf : v.WellFormed .any)
    (object : v.fields?.isSome = true) (next : Nat) :
    match v.resolve { allowUnresolved := true } next with
    | .ok r => r.fields?.isSome = true
    | .error e => Tolerated e := by
  by_cases resolved : v.isResolved = true
  · rw [Value.resolve, if_pos resolved]
    exact object
  obtain ⟨g, known, below⟩ := exists_known_marked coherent next
  have like : v.Alike (marked v next).1 := alike_markFrom v _
  obtain ⟨n, mark, entry⟩ := known.exists_mark
  have admitted : (marked v next).1.Admitted n :=
    ⟨wf.alike (fun _ _ _ => id) like, .of_known known entry (like.fields?_isSome_eq.trans object)⟩
  have lenient : Lenient (settingOf { allowUnresolved := true } (marked v next).1 (marked v next).2)
      n := ⟨rfl, rfl, admitted, mark⟩
  have ready : Ready g n { available := (marked v next).1.referenceMarks
      ++ (marked v next).1.referenceMarks } (marked v next).1 :=
    ⟨admitted, fun _ => known, fun _ => ⟨fun _ hn => List.mem_append_left _ hn, by rintro _ ⟨⟩⟩,
      by rintro _ ⟨⟩⟩
  have outcome := tolerates_resolve lenient _ _ none ready (startOf { allowUnresolved := true }
    (marked v next).2) ⟨below n _ entry, by rintro _ ⟨⟩⟩
  rw [resolve_eq_run (by simpa using resolved), run_eq]
  unfold Ensures at outcome
  generalize ((resolve _ _ _ none).run.run (startOf { allowUnresolved := true }
    (marked v next).2)).1 = r at outcome
  obtain ⟨-, outcome⟩ := outcome
  obtain (trace | e) | r := r
  · exact absurd rfl outcome
  · exact outcome
  · obtain ⟨w, rfl, object⟩ := outcome.2 mark
    exact object

end Resolution

/-- Resolving the tree of a document that includes nothing, where references without a target may
stay, gives an object; or it fails because neighbours cannot be joined, because a mandatory
reference is in a cycle, or because a path leads through a merge that waits for one that stays.
That a reference has no target is no reason. -/
theorem Value.resolve_lenient {files : FileTree} {text : String} {v : Value}
    (parsed : ((parseText files {} text).run.run []).1 = .ok v)
    (alone : Document.IncludesNothing text) (next : Nat) :
    match v.resolve { allowUnresolved := true } next with
    | .ok r => r.fields?.isSome = true
    | .error e => (∃ o fault, e = .wrongType o fault)
        ∨ (∃ o r trace, r.optional = false ∧ e = .unresolved o (.cycle r trace))
        ∨ ∃ path key whole layer, e = .pending (.hidden path key whole layer) := by
  obtain ⟨-, sound, object⟩ := Document.parseText_spec parsed alone
  exact Resolution.resolve_tolerated ⟨_, sound.markable⟩ sound.wellFormed.any object next

/-- References to nothing, alone, beside text, and in a merge that is looked through. -/
theorem Value.resolve_lenient_example :
    let text := "a = $\x7bnone\x7d, b = $\x7ba\x7d x, c = $\x7bnone\x7d, c.d = 1, e = $\x7bc.d\x7d"
    ∃ v, ((parseText {} {} text).run.run []).1 = .ok v ∧ Document.IncludesNothing text
      ∧ match v.resolve { allowUnresolved := true } 0 with
        | .ok r => r.fields?.isSome = true
        | .error e => (∃ o fault, e = .wrongType o fault)
            ∨ (∃ o r trace, r.optional = false ∧ e = .unresolved o (.cycle r trace))
            ∨ ∃ path key whole layer, e = .pending (.hidden path key whole layer) := by
  intro text
  obtain ⟨v, parsed, alone⟩ := Document.exists_parsed {} (by decide +kernel :
    (Document.readAlone text).toOption.any (·.fields?.isSome) = true)
  exact ⟨v, parsed, alone, v.resolve_lenient parsed alone 0⟩

/-- A reference to itself, and a reference into a merge that waits for one without a target. -/
theorem Value.resolve_lenient_counterexample :
    (∃ v o fault, ((parseText {} {} "a = $\x7ba\x7d").run.run []).1 = .ok v
        ∧ v.resolve { allowUnresolved := true } = .error (.unresolved o fault))
      ∧ ∃ v fault,
        ((parseText {} {} "m = $\x7bnone\x7d, m.x = 1, b = $\x7bm.y\x7d").run.run []).1 = .ok v
        ∧ v.resolve { allowUnresolved := true } = .error (.pending fault) := by
  refine ⟨?cycle, ?through⟩
  case cycle =>
    have read : (Document.readAlone "a = $\x7ba\x7d").toOption
        = some (object onLine false [("a", lineRef (.ofKey "a") false)]) := by decide +kernel
    refine ⟨_, onLine.origin, .cycle ⟨.ofKey "a", false⟩ [⟨.ofKey "a", false⟩],
      Document.parsed_of_readAlone {} read rfl, ?_⟩
    cbv
  case through =>
    have read : (Document.readAlone "m = $\x7bnone\x7d, m.x = 1, b = $\x7bm.y\x7d").toOption
        = some (object onLine false [("m", .merge onLine .object
          [object onLine false [("x", lineNumber 1)], lineRef (.ofKey "none") false]),
          ("b", lineRef ⟨"m", ["y"]⟩ false)]) := by decide +kernel
    refine ⟨_, .hidden (.ofKey "y") "y" onLine.origin onLine.origin,
      Document.parsed_of_readAlone {} read rfl, ?_⟩
    cbv

end Hocon
