import Hocon.Proofs.Outcomes
import Hocon.Proofs.Passage
import Hocon.Proofs.Remarking

/-!
# Variables come second

Variables of the environment are for references to nothing else.  If a tree has mandatory
references only and can be resolved without variables, there is no such reference, so the tree is
resolved to the same with any variables (`Value.resolve_environment`).

The two runs are not the same.  The variables take the first marks that are free, and so all nodes
that come up later have other marks (`Remarking`).  What the run without variables comes to, the
other one comes to with these marks (`Resolution.carries_all`); nothing is said about failures,
which is what leaves the lookup in the environment out.
-/

namespace Hocon

namespace Value

/-- The reference has to have a target. -/
def IsMandatory (_ : Provenance) (r : Reference) : Prop := r.target.optional = false

/-- All references of the tree have to have a target. -/
abbrev Mandatory : Value → Prop := RefersBy IsMandatory

theorem markStable_isMandatory : MarkStable IsMandatory := fun _ _ _ _ h => h

end Value

namespace Resolution

open Value

variable {σ : Remarking} {m m₁ : Memory} {c : Surroundings} {s s' : Setting} {v w : Value}
  {a : Option Path}

/-! ### Memories and surroundings with other marks -/

def Memory.remark (σ : Remarking) (m : Memory) : Memory where
  memos := m.memos.map fun memo =>
    { memo with node := σ.of memo.node, result := memo.result.remark σ }
  next := σ.of m.next

def Surroundings.remark (σ : Remarking) (c : Surroundings) : Surroundings where
  available := c.available.map σ.of
  merges := c.merges.map fun o => { o with node := σ.of o.node, base := σ.of o.base }
  trace := c.trace

/-- The marks that are free are put in order by others that are in order, and all that is remembered
is mandatory. -/
structure Memory.Fits (σ : Remarking) (m : Memory) : Prop where
  low : σ.low ≤ m.next
  mandatory : m.RefersBy IsMandatory

/-- What shows of the open merges has marks that were free. -/
def Surroundings.Fits (σ : Remarking) (c : Surroundings) : Prop := ∀ o ∈ c.merges, σ.low ≤ o.base

theorem of_beq_of (i j : Nat) : (σ.of i == σ.of j) = (i == j) := σ.injective.beq_eq

theorem map_of_beq (i j : Option Nat) : (i.map σ.of == j.map σ.of) = (i == j) :=
  (Option.map_injective σ.injective).beq_eq

theorem Memory.find?_remark (m : Memory) (n : Nat) (a : Option Path) :
    (m.remark σ).find? (σ.of n) a = (m.find? n a).map (Value.remark σ) := by
  simp only [find?, remark, List.find?_map, Function.comp_def, of_beq_of, Option.map_map]

theorem Memory.recall?_remark (m : Memory) (v : Value) (a : Option Path) :
    (m.remark σ).recall? (v.remark σ) a = (m.recall? v a).map (Value.remark σ) := by
  unfold Memory.recall?
  rw [mark_remark]
  cases v.mark with
  | none => rfl
  | some n =>
    simp only [Option.map_some, find?_remark]
    cases m.find? n none with
    | some w => rfl
    | none =>
      simp only [Option.map_none]
      split <;> rfl

theorem Memory.remember_remark (m : Memory) (v w : Value) (a : Option Path) :
    (m.remark σ).remember (v.remark σ) a (w.remark σ) = (m.remember v a w).remark σ := by
  unfold remember
  rw [mark_remark]
  cases v.mark <;> rfl

theorem Surroundings.mem_available_remark (c : Surroundings) (n : Nat) :
    σ.of n ∈ (c.remark σ).available ↔ n ∈ c.available :=
  List.mem_map_of_injective σ.injective

theorem Surroundings.within_remark (c : Surroundings) (n : Nat) (trace : List PathReference) :
    (c.remark σ).within (σ.of n) trace = (c.within n trace).remark σ := by
  simp only [within, remark, List.filter_map, Function.comp_def, bne, of_beq_of]

/-- The base of a merge that is opened matters only if the layer waits. -/
theorem Surroundings.opening_remark (c : Surroundings) (node : Option Nat) (layer : Nat)
    {base base' : Nat} (h : v.isPending = true → base' = σ.of base) :
    (c.remark σ).opening (node.map σ.of) layer base' (v.remark σ)
      = (c.opening node layer base v).remark σ := by
  unfold opening
  rw [isPending_remark]
  cases pending : v.isPending with
  | false => cases node <;> rfl
  | true =>
    cases node with
    | none => rfl
    | some n => rw [h pending]; rfl

theorem Surroundings.Fits.opening (h : c.Fits σ) {base : Nat}
    (low : v.isPending = true → σ.low ≤ base) (node : Option Nat) (layer : Nat) :
    (c.opening node layer base v).Fits σ := by
  unfold Surroundings.opening
  intro o ho
  simp only [] at ho
  split at ho
  · next pending =>
    rcases List.mem_cons.1 ho with rfl | ho
    · exact low pending
    · exact h o ho
  · exact h o ho

theorem Surroundings.showing?_remark (h : c.Fits σ) (v : Value) :
    (c.remark σ).showing? (v.remark σ) = (c.showing? v).map (Option.map (Value.remark σ)) := by
  cases v with
  | merge p k ls =>
    rw [remark_merge]
    have same (o : OpenMerge) : (some (σ.of o.node) == (p.remark σ).mark) = (some o.node == p.mark) :=
      map_of_beq (some o.node) p.mark
    simp only [showing?, remark, List.find?_map, Function.comp_def, same]
    cases ho : c.merges.find? fun o => some o.node == p.mark with
    | none => rfl
    | some o =>
      simp only [Option.map_some, ← List.map_drop, mergeLayers?_remark, Option.map_map]
      congr 2
      funext u
      exact congrArg Prod.fst (markFrom_remark u o.base (h o (List.mem_of_find?_eq_some ho)))
  | _ => rfl

/-! ### Steps that come to the same -/

/-- `y` comes to the same as `x` with other marks.  This says nothing of failures. -/
def Repeats {α : Type} (σ : Remarking) (f : α → α) (m : Memory) (x y : Step α) : Prop :=
  ∀ r m₁, x.run.run m = (.ok r, m₁) →
    σ.low ≤ m₁.next ∧ y.run.run (m.remark σ) = (.ok (f r), m₁.remark σ)

/-- What `x` comes to is right, and `y` comes to the same with other marks. -/
def Attains {α : Type} (σ : Remarking) (f : α → α) (right : α → Prop) (m : Memory)
    (x y : Step α) : Prop :=
  ∀ r m₁, x.run.run m = (.ok r, m₁) →
    right r ∧ m₁.Fits σ ∧ y.run.run (m.remark σ) = (.ok (f r), m₁.remark σ)

/-- What a computation comes to that may find nothing. -/
abbrev AttainsResult (σ : Remarking) (m : Memory) (x y : Step (Option Value)) : Prop :=
  Attains σ (Option.map (Value.remark σ)) (ResultRefersBy IsMandatory) m x y

/-- A computation that comes to something behind another one. -/
theorem exists_of_run_bind {α β : Type} {x : Step α} {f : α → Step β} {r : β} {m₂ : Memory}
    (h : (x >>= f).run.run m = (.ok r, m₂)) :
    ∃ b m₁, x.run.run m = (.ok b, m₁) ∧ (f b).run.run m₁ = (.ok r, m₂) := by
  rcases hx : x.run.run m with ⟨e | b, m₁⟩
  · rw [run_bind_of_error hx] at h
    cases h
  · rw [run_bind_of_ok hx] at h
    exact ⟨b, m₁, rfl, h⟩

namespace Attains

variable {α β : Type} {f : α → α} {g : β → β} {right : α → Prop} {right' : β → Prop} {x y : Step α}

theorem pure {r : α} (fits : m.Fits σ) (h : right r) :
    Attains σ f right m (pure r) (pure (f r)) := by
  rintro _ _ ⟨⟩
  exact ⟨h, fits, rfl⟩

theorem throw {e : Failure} : Attains σ f right m (throw e) y := by
  rintro _ _ ⟨⟩

theorem bind {k k' : α → Step β} (hx : Attains σ f right m x y)
    (hk : ∀ r m₁, m₁.Fits σ → right r → Attains σ g right' m₁ (k r) (k' (f r))) :
    Attains σ g right' m (x >>= k) (y >>= k') := by
  intro r m₂ h
  obtain ⟨b, m₁, hb, h⟩ := exists_of_run_bind h
  obtain ⟨hright, fits, run⟩ := hx b m₁ hb
  rw [run_bind_of_ok run]
  exact hk b m₁ fits hright r m₂ h

theorem get_bind {k k' : Memory → Step α} (h : Attains σ f right m (k m) (k' (m.remark σ))) :
    Attains σ f right m (get >>= k) (get >>= k') := h

/-- What is right is known from what is ensured of all outcomes. -/
theorem of_ensures (h : Ensures x m fun out m₁ => m₁.RefersBy IsMandatory ∧ ∀ r, out = .ok r → right r)
    (repeats : Repeats σ f m x y) : Attains σ f right m x y := by
  intro r m₁ hx
  unfold Ensures at h
  rw [hx] at h
  obtain ⟨low, same⟩ := repeats r m₁ hx
  exact ⟨h.2 r rfl, ⟨low, h.1⟩, same⟩

end Attains

/-! ### Keeping and rebuilding -/

theorem repeats_renew (low : σ.low ≤ m.next) (w : Value) :
    Repeats σ (Value.remark σ) m (renew w) (renew (w.remark σ)) := by
  rintro _ _ ⟨⟩
  refine ⟨Nat.le_trans low (le_markFrom w m.next), ?_⟩
  show (Except.ok ((w.remark σ).markFrom (σ.of m.next)).1,
    { m.remark σ with next := ((w.remark σ).markFrom (σ.of m.next)).2 }) = _
  rw [markFrom_remark w m.next low]
  rfl

theorem attains_renew (fits : m.Fits σ) (hw : w.Mandatory) :
    Attains σ (Value.remark σ) Mandatory m (renew w) (renew (w.remark σ)) :=
  .of_ensures (renew_ensures markStable_isMandatory fits.mandatory hw) (repeats_renew fits.low w)

theorem run_reserve (below : List Value) (m : Memory) :
    (reserve below).run.run m = (.ok m.next,
      { m with next := (mergeLayers? below).elim m.next fun w => (w.markFrom m.next).2 }) := by
  show (Except.ok m.next, _) = _
  cases mergeLayers? below <;> rfl

theorem attains_reserve (fits : m.Fits σ) (below : List Value) :
    Attains σ σ.of (σ.low ≤ ·) m (reserve below) (reserve (below.map (Value.remark σ))) := by
  intro _ _ run
  rw [run_reserve] at run ⊢
  cases run
  have next : σ.low ≤ ((mergeLayers? below).elim m.next fun w => (w.markFrom m.next).2)
      ∧ (mergeLayers? (below.map (Value.remark σ))).elim (σ.of m.next)
          (fun w => (w.markFrom (σ.of m.next)).2)
        = σ.of ((mergeLayers? below).elim m.next fun w => (w.markFrom m.next).2) := by
    rw [mergeLayers?_remark]
    cases mergeLayers? below with
    | none => exact ⟨fits.low, rfl⟩
    | some w =>
      exact ⟨Nat.le_trans fits.low (le_markFrom w m.next),
        congrArg Prod.snd (markFrom_remark w m.next fits.low)⟩
  refine ⟨fits.low, ⟨next.1, fits.mandatory⟩, ?_⟩
  exact congrArg (fun n => (Except.ok (σ.of m.next), { m.remark σ with next := n })) next.2

theorem attains_keep (strict : s.allowUnresolved = s'.allowUnresolved) (fits : m.Fits σ)
    (hw : w.Mandatory) :
    Attains σ id (fun _ => True) m (keep s v a w) (keep s' (v.remark σ) a (w.remark σ)) := by
  have remember (b : Option Path) :
      Repeats σ id m (modify fun m => m.remember v b w : Step Unit)
        (modify fun m => m.remember (v.remark σ) b (w.remark σ)) := by
    rintro _ _ ⟨⟩
    refine ⟨?_, congrArg (Except.ok (), ·) (m.remember_remark v w b)⟩
    rw [Memory.next_remember]
    exact fits.low
  refine .of_ensures (keep_ensures fits.mandatory hw) ?_
  unfold keep
  rw [isResolved_remark, ← strict]
  split
  · exact remember none
  split
  · exact remember a
  · rintro _ _ ⟨⟩

/-- Whether nothing changed does not depend on marks. -/
theorem marks_beq_remark (rs : List (Option Value)) (vs : List Value) :
    ((rs.map (Option.map (Value.remark σ))).map (·.bind mark)
        == (vs.map (Value.remark σ)).map mark)
      = (rs.map (·.bind mark) == vs.map mark) := by
  have results : (rs.map (Option.map (Value.remark σ))).map (·.bind mark)
      = (rs.map (·.bind mark)).map (Option.map σ.of) := by
    rw [List.map_map, List.map_map]
    refine List.map_congr_left fun r _ => ?_
    cases r with
    | none => rfl
    | some w => exact mark_remark w
  have nodes : (vs.map (Value.remark σ)).map mark = (vs.map mark).map (Option.map σ.of) := by
    rw [List.map_map, List.map_map]
    exact List.map_congr_left fun v _ => mark_remark v
  rw [results, nodes]
  exact (List.map_injective_iff.2 (Option.map_injective σ.injective)).beq_eq

theorem attains_rebuildObject (fits : m.Fits σ) (hv : v.Mandatory) (fs : Entries Value)
    {rs : Entries (Option Value)} (hrs : ∀ f ∈ rs, ResultRefersBy IsMandatory f.2) :
    Attains σ (Value.remark σ) Mandatory m (rebuildObject v fs rs)
      (rebuildObject (v.remark σ) (Entries.mapValues (Value.remark σ) fs)
        (Entries.mapValues (Option.map (Value.remark σ)) rs)) := by
  refine .of_ensures (rebuildObject_ensures markStable_isMandatory fits.mandatory hv hrs) ?_
  have marks : ((Entries.mapValues (Option.map (Value.remark σ)) rs).map (fun f => f.2.bind mark)
        == (Entries.mapValues (Value.remark σ) fs).map fun f => f.2.mark)
      = (rs.map (fun f => f.2.bind mark) == fs.map fun f => f.2.mark) := by
    have same : (((rs.map (·.2)).map (Option.map (Value.remark σ))).map (·.bind mark) == _) = _ :=
      marks_beq_remark (rs.map (·.2)) (fs.map (·.2))
    simpa only [Entries.mapValues, List.map_map, Function.comp_def] using same
  have fields : (Entries.mapValues (Option.map (Value.remark σ)) rs).filterMap
        (fun f => f.2.map fun w => (f.1, w))
      = Entries.mapValues (Value.remark σ) (rs.filterMap fun f => f.2.map fun w => (f.1, w)) := by
    simp only [Entries.mapValues, List.filterMap_map, List.map_filterMap, Option.map_map,
      Function.comp_def]
  unfold rebuildObject
  rw [marks, fields, origin_remark, ignoresFallbacks_remark]
  split
  · rintro _ _ ⟨⟩
    exact ⟨fits.low, rfl⟩
  · have := repeats_renew fits.low (.object { origin := v.origin } v.ignoresFallbacks
      (rs.filterMap fun f => f.2.map fun w => (f.1, w)))
    rwa [remark_object] at this

theorem filterMap_remark (rs : List (Option Value)) :
    (rs.map (Option.map (Value.remark σ))).filterMap id
      = (rs.filterMap id).map (Value.remark σ) := by
  simp only [List.filterMap_map, List.map_filterMap, Function.comp_def, id]

theorem attains_rebuildList (fits : m.Fits σ) (hv : v.Mandatory) (xs : List Value)
    {rs : List (Option Value)} (hrs : ∀ r ∈ rs, ResultRefersBy IsMandatory r) :
    Attains σ (Value.remark σ) Mandatory m (rebuildList v xs rs)
      (rebuildList (v.remark σ) (xs.map (Value.remark σ)) (rs.map (Option.map (Value.remark σ)))) := by
  refine .of_ensures (rebuildList_ensures markStable_isMandatory fits.mandatory hv hrs) ?_
  unfold rebuildList
  rw [marks_beq_remark, filterMap_remark, origin_remark]
  split
  · rintro _ _ ⟨⟩
    exact ⟨fits.low, rfl⟩
  · have := repeats_renew fits.low (ofItems v.origin (rs.filterMap id))
    rwa [ofItems, remark_list] at this

theorem attains_joinPieces (strict : s.allowUnresolved = s'.allowUnresolved) (fits : m.Fits σ)
    (v : Value) {ps : List Value} (hps : ∀ x ∈ ps, x.Mandatory) :
    AttainsResult σ m (joinPieces s v ps) (joinPieces s' (v.remark σ) (ps.map (Value.remark σ))) := by
  refine .of_ensures (joinPieces_ensures markStable_isMandatory fits.mandatory hps) ?_
  have single (w : Value) : Repeats σ (Option.map (Value.remark σ)) m
      (do return some (← renew w)) (do return some (← renew (w.remark σ))) := by
    intro r m₂ h
    obtain ⟨u, m₁, hu, last⟩ := exists_of_run_bind h
    cases last
    obtain ⟨low, run⟩ := repeats_renew fits.low w u _ hu
    refine ⟨low, ?_⟩
    rw [run_bind_of_ok run]
    rfl
  unfold joinPieces
  cases hj : joinRun true ps with
  | error e => rintro _ _ ⟨⟩
  | ok ws =>
    rw [joinRun_remark hj]
    match ws with
    | [] =>
      rintro _ _ ⟨⟩
      exact ⟨fits.low, rfl⟩
    | [w] => exact single w
    | w :: w' :: ws =>
      simp only [List.map_cons, origin_remark]
      rw [← strict]
      split
      · have waiting := single (.concat { origin := v.origin } (w :: w' :: ws))
        rw [remark_concat] at waiting
        exact waiting
      · rintro _ _ ⟨⟩

/-! ### Looking up -/

theorem attains_findIn {f f' : Value → Option Path → Step (Option Value)} {path : Path}
    (h : AttainsResult σ m (f v (some path)) (f' (v.remark σ) (some path))) :
    AttainsResult σ m (findIn f v path) (findIn f' (v.remark σ) path) := by
  refine h.bind fun r m₁ fits hr => ?_
  cases r with
  | none => exact .throw
  | some partly =>
    simp only [Option.map_some, isObjectValued_remark]
    split
    · cases hp : partly.peekThrough path.first path.rest with
      | error e => exact .throw
      | ok found =>
        rw [peekThrough_remark hp]
        refine .pure fits ?_
        rintro u rfl
        exact (hr partly rfl).within (within_of_peekThrough hp)
    · exact .throw

/-- What is found without variables is found with them: they come last. -/
theorem lookUp_attains {f f' : List PathReference → Value → Option Path → Step (Option Value)}
    (same : s.root.remark σ = s'.root) (bare : s.environment = none) (root : s.root.Mandatory)
    (resolving : ∀ trace u b m, m.Fits σ → u.Mandatory →
      AttainsResult σ m (f trace u b) (f' trace (u.remark σ) b))
    {outer : List PathReference} {r : Reference} (fits : m.Fits σ)
    (h : (lookUp s f outer r a).run.run m = (.ok (some w), m₁)) :
    w.Mandatory ∧ m₁.Fits σ ∧ (lookUp s' f' outer r a).run.run (m.remark σ)
      = (.ok (some (w.remark σ)), m₁.remark σ) := by
  have find (trace : List PathReference) (path : Path) {m : Memory} (fits : m.Fits σ) :
      AttainsResult σ m (findIn (f trace) s.root path) (findIn (f' trace) s'.root path) := by
    rw [← same]
    exact attains_findIn (resolving trace s.root (some path) m fits root)
  have target (trace : List PathReference) {m : Memory} (fits : m.Fits σ) {u : Value}
      (hu : u.Mandatory) (h : (f trace u a).run.run m = (.ok (some w), m₁)) :
      w.Mandatory ∧ m₁.Fits σ ∧ (f' trace (u.remark σ) a).run.run (m.remark σ)
        = (.ok (some (w.remark σ)), m₁.remark σ) := by
    obtain ⟨result, after, run⟩ := resolving trace u a m fits hu _ _ h
    exact ⟨result w rfl, after, run⟩
  unfold lookUp at h ⊢
  obtain ⟨found, m₂, run, h⟩ := exists_of_run_bind h
  obtain ⟨hfound, fits₂, run⟩ := find _ _ fits found m₂ run
  rw [run_bind_of_ok run]
  cases found with
  | some u => exact target _ fits₂ (hfound u rfl) h
  | none =>
    simp only [Option.map_none] at h ⊢
    cases back : r.target.path.drop? r.included with
    | none =>
      simp only [back] at h
      cases h
    | some path =>
      simp only [back, bare] at h ⊢
      by_cases inner : r.included > 0
      · rw [if_pos inner] at h ⊢
        obtain ⟨found, m₃, run, h⟩ := exists_of_run_bind h
        obtain ⟨hfound, fits₃, run⟩ := find _ _ fits₂ found m₃ run
        rw [run_bind_of_ok run]
        cases found with
        | some u => exact target _ fits₃ (hfound u rfl) h
        | none => cases h
      · rw [if_neg inner] at h
        cases h

/-- What was found is what the lookup means. -/
theorem settleLookup_run_of_ok {target : PathReference} {x : Step (Option Value)}
    (h : x.run.run m = (.ok (some w), m₁)) :
    (settleLookup s v target x).run.run m = (.ok (some w), m₁) := by
  unfold settleLookup
  simp only [ExceptT.run_bind, ExceptT.run_tryCatch, StateT.run_bind, h]
  rfl

/-- A mandatory reference comes to what is found for it, or it fails. -/
theorem exists_of_run_settleLookup {target : PathReference} {x : Step (Option Value)}
    {r : Option Value} (strict : s.allowUnresolved = false) (mandatory : target.optional = false)
    (h : (settleLookup s v target x).run.run m = (.ok r, m₁)) :
    ∃ w, r = some w ∧ x.run.run m = (.ok (some w), m₁) := by
  rcases hx : x.run.run m with ⟨(trace | e) | found | w, m₂⟩
  case ok.some =>
    rw [settleLookup_run_of_ok hx] at h
    cases h
    exact ⟨w, rfl, rfl⟩
  all_goals
    unfold settleLookup at h
    simp only [ExceptT.run_bind, ExceptT.run_tryCatch, StateT.run_bind, hx, mandatory, strict] at h
    cases h

/-! ### The recursion -/

section Recursion

variable (s s')

/-- Resolving something comes to the same in both settings. -/
def Carries (σ : Remarking) (c : Surroundings) (v : Value) (x : Step (Option Value))
    (y : Surroundings → Value → Step (Option Value)) : Prop :=
  ∀ m, m.Fits σ → c.Fits σ → v.Mandatory → AttainsResult σ m x (y (c.remark σ) (v.remark σ))

/-- Resolving items. -/
def ItemsCarry (σ : Remarking) (c : Surroundings) (xs : List Value) : Prop :=
  ∀ m, m.Fits σ → c.Fits σ → (∀ x ∈ xs, x.Mandatory) →
    Attains σ (List.map (Option.map (Value.remark σ)))
      (fun rs => ∀ r ∈ rs, ResultRefersBy IsMandatory r) m
      (resolveItems s c xs) (resolveItems s' (c.remark σ) (xs.map (Value.remark σ)))

/-- Resolving fields. -/
def FieldsCarry (σ : Remarking) (c : Surroundings) (a : Option Path) (fs : Entries Value) : Prop :=
  ∀ m, m.Fits σ → c.Fits σ → (∀ f ∈ fs, f.2.Mandatory) →
    Attains σ (Entries.mapValues (Option.map (Value.remark σ)))
      (fun rs => ∀ f ∈ rs, ResultRefersBy IsMandatory f.2) m
      (resolveFields s c a fs) (resolveFields s' (c.remark σ) a (Entries.mapValues (Value.remark σ) fs))

/-- Resolving layers of a merge from number `layer` on. -/
def LayersCarry (σ : Remarking) (c : Surroundings) (whole : Value) (node : Option Nat)
    (a : Option Path) (layer : Nat) (above : Option Value) (below : List Value) : Prop :=
  ∀ m, m.Fits σ → c.Fits σ → ResultRefersBy IsMandatory above → (∀ l ∈ below, l.Mandatory) →
    AttainsResult σ m (resolveLayers s c whole node a layer above below)
      (resolveLayers s' (c.remark σ) (whole.remark σ) (node.map σ.of) a layer
        (above.map (Value.remark σ)) (below.map (Value.remark σ)))

variable {s s'}

theorem itemsCarry_cons {xs : List Value}
    (head : Carries σ c v (resolve s c v none) fun c v => resolve s' c v none)
    (tail : ItemsCarry s s' σ c xs) : ItemsCarry s s' σ c (v :: xs) := by
  intro m fits around mandatory
  obtain ⟨hv, hxs⟩ := List.forall_mem_cons.1 mandatory
  rw [List.map_cons, resolveItems, resolveItems]
  refine (head m fits around hv).bind fun r m₁ fits₁ hr => ?_
  refine (tail m₁ fits₁ around hxs).bind fun rs m₂ fits₂ hrs => ?_
  exact .pure fits₂ (List.forall_mem_cons.2 ⟨hr, hrs⟩)

theorem fieldsCarry_cons {key : String} {fs : Entries Value}
    (head : ∀ b, alongField a key = some b →
      Carries σ c v (resolve s c v b) fun c v => resolve s' c v b)
    (tail : FieldsCarry s s' σ c a fs) : FieldsCarry s s' σ c a ((key, v) :: fs) := by
  intro m fits around mandatory
  obtain ⟨hv, hfs⟩ := List.forall_mem_cons.1 mandatory
  show Attains _ _ _ m _ (resolveFields s' _ a ((key, v.remark σ) :: Entries.mapValues _ fs))
  rw [resolveFields, resolveFields]
  have rest {r : Option Value} {m₁ : Memory} (fits₁ : m₁.Fits σ) (hr : ResultRefersBy IsMandatory r) :
      Attains σ (Entries.mapValues (Option.map (Value.remark σ)))
        (fun rs => ∀ f ∈ rs, ResultRefersBy IsMandatory f.2) m₁
        (do let rs ← resolveFields s c a fs; pure ((key, r) :: rs))
        (do
          let rs ← resolveFields s' (c.remark σ) a (Entries.mapValues (Value.remark σ) fs)
          pure ((key, r.map (Value.remark σ)) :: rs)) :=
    (tail m₁ fits₁ around hfs).bind fun rs m₂ fits₂ hrs =>
      .pure fits₂ (List.forall_mem_cons.2 ⟨hr, hrs⟩)
  cases ha : alongField a key with
  | none =>
    refine rest fits ?_
    rintro _ ⟨⟩
    exact hv
  | some b => exact (head b ha m fits around hv).bind fun r m₁ fits₁ hr => rest fits₁ hr

theorem resultRefersBy_overlay {P : Provenance → Reference → Prop} {above result : Option Value}
    (ha : ResultRefersBy P above) (hr : ResultRefersBy P result) :
    ResultRefersBy P (Entries.overlay above result) := by
  cases above with
  | none =>
    cases result with
    | none => exact ha
    | some w => exact hr
  | some u =>
    cases result with
    | none => exact ha
    | some w =>
      rintro _ ⟨⟩
      exact (ha u rfl).withFallback (hr w rfl)

theorem overlay_remark (above result : Option Value) :
    Entries.overlay (above.map (Value.remark σ)) (result.map (Value.remark σ))
      = (Entries.overlay above result).map (Value.remark σ) := by
  cases above with
  | none => cases result <;> rfl
  | some u =>
    cases result with
    | none => rfl
    | some w => exact congrArg some (withFallback_remark u w)

theorem layersCarry_cons {whole : Value} {node : Option Nat} {layer : Nat} {above : Option Value}
    {below : List Value} (flat : v.isMerge = false)
    (head : ∀ base, Carries σ (c.opening node layer base v) v
      (resolve s (c.opening node layer base v) v a) fun c v => resolve s' c v a)
    (tail : ∀ result,
      LayersCarry s s' σ c whole node a (layer + 1) (Entries.overlay above result) below) :
    LayersCarry s s' σ c whole node a layer above (v :: below) := by
  intro m fits around habove mandatory
  obtain ⟨hv, hbelow⟩ := List.forall_mem_cons.1 mandatory
  rw [List.map_cons, resolveLayers, resolveLayers]
  rotate_left
  · rintro p k ls eq
    cases v <;> cases eq
    cases flat
  · rintro p k ls rfl
    cases flat
  simp only [Bool.false_eq_true, if_false]
  have waits : (v.remark σ).isPending = v.isPending := isPending_remark v
  have rest {base base' : Nat} {m₁ : Memory} (fits₁ : m₁.Fits σ)
      (low : v.isPending = true → σ.low ≤ base) (reserved : v.isPending = true → base' = σ.of base)
      {next next' : Option Value → Step (Option Value)}
      (hnext : ∀ r, next r = resolveLayers s c whole node a (layer + 1)
        (Entries.overlay above r) below)
      (hnext' : ∀ r, next' r = resolveLayers s' (c.remark σ) (whole.remark σ) (node.map σ.of) a
        (layer + 1) (Entries.overlay (above.map (Value.remark σ)) r)
        (below.map (Value.remark σ))) :
      AttainsResult σ m₁ (resolve s (c.opening node layer base v) v a >>= next)
        (resolve s' ((c.remark σ).opening (node.map σ.of) layer base' (v.remark σ))
          (v.remark σ) a >>= next') := by
    rw [c.opening_remark node layer reserved]
    refine (head base m₁ fits₁ (around.opening low node layer) hv).bind fun r m₂ fits₂ hr => ?_
    rw [hnext, hnext', overlay_remark]
    exact tail r m₂ fits₂ around (resultRefersBy_overlay habove hr) hbelow
  -- only a layer that waits can come back to the merge
  by_cases pending : v.isPending = true
  · rw [if_pos pending, if_pos (waits.trans pending)]
    refine (attains_reserve fits below).bind fun base m₁ fits₁ low => ?_
    exact rest fits₁ (fun _ => low) (fun _ => rfl)
      (fun r => congrArg (resolveLayers s c whole node a (layer + 1) · below)
        (Contract.overlay_eq above r))
      fun r => congrArg (resolveLayers s' (c.remark σ) _ _ a (layer + 1) · _)
        (Contract.overlay_eq (above.map (Value.remark σ)) r)
  · rw [if_neg pending, if_neg (waits ▸ pending)]
    exact rest fits (absurd · pending) (absurd · pending)
      (fun r => congrArg (resolveLayers s c whole node a (layer + 1) · below)
        (Contract.overlay_eq above r))
      fun r => congrArg (resolveLayers s' (c.remark σ) _ _ a (layer + 1) · _)
        (Contract.overlay_eq (above.map (Value.remark σ)) r)

theorem attains_keepResult (strict : s.allowUnresolved = s'.allowUnresolved) (fits : m.Fits σ)
    {r : Option Value} (hr : ResultRefersBy IsMandatory r) :
    AttainsResult σ m (keepResult s v a r)
      (keepResult s' (v.remark σ) a (r.map (Value.remark σ))) := by
  cases r with
  | none => exact .pure fits (by rintro _ ⟨⟩)
  | some w =>
    exact (attains_keep strict fits (hr w rfl)).bind fun _ _ fits₁ _ => .pure fits₁ hr

theorem carries_resolve (strict : s.allowUnresolved = s'.allowUnresolved)
    (node : Carries σ c v (resolveNode s c v a) fun c v => resolveNode s' c v a)
    (shown : ∀ x, c.showing? v = some (some x) →
      Carries σ c x (resolve s c x a) fun c x => resolve s' c x a) :
    Carries σ c v (resolve s c v a) fun c v => resolve s' c v a := by
  intro m fits around hv
  simp only [resolve_eq]
  refine .get_bind ?_
  rw [m.recall?_remark]
  cases known : m.recall? v a with
  | some w =>
    refine .pure fits ?_
    rintro _ ⟨⟩
    exact fits.mandatory.recall known
  | none =>
    rw [Surroundings.showing?_remark around]
    have shows : AttainsResult σ m (resolveShown s c v a (c.showing? v))
        (resolveShown s' (c.remark σ) (v.remark σ) a
          ((c.showing? v).map (Option.map (Value.remark σ)))) := by
      cases hs : c.showing? v with
      | none => exact node m fits around hv
      | some part =>
        cases part with
        | none => exact .throw
        | some x => exact shown x hs m fits around (hv.showing markStable_isMandatory hs)
    exact shows.bind fun r m₁ fits₁ hr => attains_keepResult strict fits₁ hr

theorem carries_self (left : resolveNode s c v a = pure (some v))
    (right : resolveNode s' (c.remark σ) (v.remark σ) a = pure (some (v.remark σ))) :
    Carries σ c v (resolveNode s c v a) fun c v => resolveNode s' c v a := by
  intro m fits _ hv
  simp only [left, right]
  refine .pure fits ?_
  rintro _ ⟨⟩
  exact hv

theorem carries_object {p : Provenance} {closed : Bool} {fs : Entries Value}
    (waits : ¬ fieldsResolved fs = true) (h : FieldsCarry s s' σ c a fs) :
    Carries σ c (object p closed fs) (resolveNode s c (object p closed fs) a) fun c v =>
      resolveNode s' c v a := by
  intro m fits around hv
  simp only [remark_object]
  rw [resolveNode, resolveNode, fieldsResolved_remark, if_neg waits, if_neg waits]
  refine (h m fits around hv.field).bind fun rs m₁ fits₁ hrs => ?_
  have rebuilt := attains_rebuildObject fits₁ hv fs hrs
  rw [remark_object] at rebuilt
  refine rebuilt.bind fun w m₂ fits₂ hw => .pure fits₂ ?_
  rintro _ ⟨⟩
  exact hw

theorem carries_list {p : Provenance} {xs : List Value}
    (waits : ¬ (itemsResolved xs || a.isSome) = true) (h : ItemsCarry s s' σ c xs) :
    Carries σ c (list p xs) (resolveNode s c (list p xs) a) fun c v => resolveNode s' c v a := by
  intro m fits around hv
  simp only [remark_list]
  rw [resolveNode, resolveNode, itemsResolved_remark, if_neg waits, if_neg waits]
  refine (h m fits around fun x hx => hv.part hx).bind fun rs m₁ fits₁ hrs => ?_
  have rebuilt := attains_rebuildList fits₁ hv xs hrs
  rw [remark_list] at rebuilt
  refine rebuilt.bind fun w m₂ fits₂ hw => .pure fits₂ ?_
  rintro _ ⟨⟩
  exact hw

theorem carries_concat (strict : s.allowUnresolved = s'.allowUnresolved) {p : Provenance}
    {ps : List Value} (h : ItemsCarry s s' σ c ps) :
    Carries σ c (concat p ps) (resolveNode s c (concat p ps) a) fun c v => resolveNode s' c v a := by
  intro m fits around hv
  simp only [remark_concat]
  rw [resolveNode, resolveNode]
  refine (h m fits around fun x hx => hv.part hx).bind fun rs m₁ fits₁ hrs => ?_
  have resolved : ∀ x ∈ rs.filterMap id, x.Mandatory := fun x hx => by
    obtain ⟨r, hr, found⟩ := List.mem_filterMap.1 hx
    exact hrs r hr x found
  have joined := attains_joinPieces strict fits₁ (concat p ps) resolved
  rw [remark_concat] at joined
  rwa [filterMap_remark]

theorem carries_merge {p : Provenance} {k : MergeKind} {ls : List Value}
    (h : LayersCarry s s' σ c (merge p k ls) p.mark a 0 none ls) :
    Carries σ c (merge p k ls) (resolveNode s c (merge p k ls) a) fun c v => resolveNode s' c v a := by
  intro m fits around hv
  simp only [remark_merge]
  rw [resolveNode, resolveNode]
  have layers := h m fits around (by rintro _ ⟨⟩) fun l hl => hv.part hl
  rw [remark_merge] at layers
  refine layers.bind fun r m₁ fits₁ hr => ?_
  cases r with
  | none => exact .pure fits₁ (by rintro _ ⟨⟩)
  | some w =>
    refine (attains_renew fits₁ (hr w rfl)).bind fun u m₂ fits₂ hu => .pure fits₂ ?_
    rintro _ ⟨⟩
    exact hu

theorem carries_reference (same : s.root.remark σ = s'.root) (bare : s.environment = none)
    (strict : s.allowUnresolved = false) (root : s.root.Mandatory) {p : Provenance} {r : Reference}
    (ih : ∀ n, p.mark = some n → n ∈ c.available → ∀ trace u b,
      Carries σ (c.within n trace) u (resolve s (c.within n trace) u b) fun c u => resolve s' c u b) :
    Carries σ c (reference p r) (resolveNode s c (reference p r) a) fun c v =>
      resolveNode s' c v a := by
  intro m fits around hv
  simp only [Value.remark]
  rw [resolveNode, resolveNode]
  cases mark : p.mark with
  | none => exact .throw
  | some n =>
    have mark' : (p.remark σ).mark = some (σ.of n) := by rw [Provenance.remark, mark]; rfl
    simp only [mark']
    by_cases free : n ∈ c.available
    · rw [dif_pos free, dif_pos (c.mem_available_remark n |>.2 free)]
      intro r' m₁ h
      obtain ⟨w, rfl, found⟩ := exists_of_run_settleLookup strict (hv p r .self) h
      have resolving (trace : List PathReference) (u : Value) (b : Option Path) (m : Memory)
          (fits : m.Fits σ) (hu : u.Mandatory) :
          AttainsResult σ m (resolve s (c.within n trace) u b)
            (resolve s' ((c.remark σ).within (σ.of n) trace) (u.remark σ) b) := by
        rw [c.within_remark]
        exact ih n mark free trace u b m fits around hu
      obtain ⟨hw, fits₁, found'⟩ := lookUp_attains same bare root resolving fits found
      refine ⟨?_, fits₁, settleLookup_run_of_ok found'⟩
      rintro _ ⟨⟩
      exact hw
    · rw [dif_neg free]
      exact .throw

/-- **Resolving comes to the same with variables as without** them, if all references are
mandatory. -/
theorem carries_all (same : s.root.remark σ = s'.root) (bare : s.environment = none)
    (strict : s.allowUnresolved = false) (strict' : s'.allowUnresolved = false)
    (root : s.root.Mandatory) (c : Surroundings) (v : Value) (a : Option Path) :
    Carries σ c v (resolve s c v a) fun c v => resolve s' c v a := by
  have allow : s.allowUnresolved = s'.allowUnresolved := strict.trans strict'.symm
  -- along the recursion of the run without variables, one case for each of its branches
  refine (resolve.mutual_induct s
    (fun c v a => Carries σ c v (resolve s c v a) fun c v => resolve s' c v a)
    (fun c v a => Carries σ c v (resolveNode s c v a) fun c v => resolveNode s' c v a)
    (fun c whole node a layer above below => LayersCarry s s' σ c whole node a layer above below)
    (fun c xs => ItemsCarry s s' σ c xs) (fun c a fs => FieldsCarry s s' σ c a fs)
    ?resolve ?objectResolved ?object ?listResolved ?list ?unmarked ?reference ?unavailable ?concat
    ?merge ?leaf ?noLayers ?nested ?layers ?noItems ?items ?noFields ?field ?otherField).1 c v a
  case resolve => exact fun c v a node shown => carries_resolve allow node shown
  case objectResolved =>
    intro c a p closed fs h
    refine carries_self (by rw [resolveNode, if_pos h]) ?_
    rw [remark_object, resolveNode, fieldsResolved_remark, if_pos h]
  case object => exact fun c a p closed fs h ih => carries_object h ih
  case listResolved =>
    intro c a p xs h
    refine carries_self (by rw [resolveNode, if_pos h]) ?_
    rw [remark_list, resolveNode, itemsResolved_remark, if_pos h]
  case list => exact fun c a p xs h ih => carries_list h ih
  case unmarked =>
    exact fun c a p r h => carries_reference same bare strict root fun n hn => by simp [h] at hn
  case reference =>
    intro c a p r m hm hc ih
    refine carries_reference same bare strict root fun n hn _ => ?_
    cases hm.symm.trans hn
    exact ih
  case unavailable =>
    intro c a p r m hm hc
    refine carries_reference same bare strict root fun n hn h => ?_
    cases hm.symm.trans hn
    exact absurd h hc
  case concat => exact fun c a p ps ih => carries_concat allow ih
  case merge => exact fun c a p k ls ih => carries_merge ih
  case leaf =>
    intro c v a notObject notList notReference notConcat notMerge
    refine carries_self (by rw [resolveNode] <;> assumption) ?_
    cases v with
    | object => exact (notObject _ _ _ rfl).elim
    | list => exact (notList _ _ rfl).elim
    | reference => exact (notReference _ _ rfl).elim
    | concat => exact (notConcat _ _ rfl).elim
    | merge => exact (notMerge _ _ _ rfl).elim
    | _ => rw [Value.remark, resolveNode] <;> intros <;> contradiction
  case noLayers =>
    intro c whole node a layer above m fits _ habove _
    rw [List.map_nil, resolveLayers, resolveLayers]
    exact .pure fits habove
  case nested =>
    intro c whole node a layer above v below nested _ _ m fits _ _ _
    cases v with
    | merge =>
      rw [resolveLayers]
      exact .throw
    | _ => exact absurd nested Bool.false_ne_true
  case layers =>
    intro c whole node a layer above v below flat head tail
    refine layersCarry_cons ?_ head fun result => Contract.overlay_eq above result ▸ tail result
    cases v with
    | merge p k ls => exact absurd rfl flat
    | _ => rfl
  case noItems =>
    intro c m fits _ _
    rw [List.map_nil, resolveItems, resolveItems]
    exact .pure fits (by rintro _ ⟨⟩)
  case items => exact fun c v xs head tail => itemsCarry_cons head tail
  case noFields =>
    intro c a m fits _ _
    show Attains _ _ _ m _ (resolveFields s' _ a [])
    rw [resolveFields, resolveFields]
    exact .pure fits (by rintro _ ⟨⟩)
  case field =>
    intro c a key v fs path hpath tail head
    refine fieldsCarry_cons (fun path' hpath' => ?_) tail
    cases hpath.symm.trans hpath'
    exact head
  case otherField =>
    intro c a key v fs hpath tail
    refine fieldsCarry_cons (fun path' hpath' => ?_) tail
    cases hpath.symm.trans hpath'

end Recursion

/-! ### Whole trees -/

/-- The contract that asks for nothing more than what every resolution keeps to. -/
def plainContract (s : Setting) (strict : s.allowUnresolved = false) : Contract s .spelled where
  pre _ _ _ _ := True
  post _ _ _ := True
  fail _ _ := True
  strict := strict
  query_alike _ _ _ _ := trivial
  pre_grows _ _ := trivial
  post_part _ := trivial
  post_whole _ _ := trivial
  post_marked _ _ _ := trivial
  hidden _ _ _ := trivial
  shown _ _ _ := trivial
  post_shown _ _ _ _ := trivial
  unavailable _ _ _ _ := trivial
  source _ _ _ _ _ _ := trivial
  target _ _ _ _ _ _ _ := trivial
  post_reference _ _ _ := trivial
  missing _ _ _ := by split <;> trivial
  cycle _ _ _ := by split <;> trivial
  error _ := trivial
  retrace _ := trivial
  post_self _ _ := trivial
  post_list_part _ := trivial
  field _ _ _ := trivial
  post_object _ _ _ _ := trivial
  item _ _ := trivial
  post_list _ _ _ := trivial
  piece _ _ := trivial
  post_concat _ _ _ := by split <;> trivial
  layer _ _ _ _ := trivial
  post_merge _ _ _ := trivial

/-- A tree resolves to a well formed tree in which nothing waits. -/
theorem wellFormed_of_resolve {r : Value} {next : Nat} (h : v.Resolvable)
    (resolved : v.resolve {} next = .ok r) : r.WellFormed .spelled ∧ r.isResolved = true := by
  by_cases waits : v.isResolved = true
  · rw [Value.resolve, if_pos waits] at resolved
    cases resolved
    exact ⟨h.wellFormed, waits⟩
  · have spec := (plainContract (settingOf {} (marked v next).1 (marked v next).2) rfl).resolve_spec
      h.coherent h.wellFormed h.object (by simpa using waits) (by rintro _ ⟨⟩) fun _ _ _ => trivial
    rw [resolved] at spec
    exact ⟨spec.wellFormed r rfl, (spec.settled r rfl).isResolved⟩

theorem exists_of_outcome {m : Memory} {x : Step (Option Value)} {r : Value}
    (h : outcome (x.run.run m).1 = .ok r) : ∃ m₁, x.run.run m = (.ok (some r), m₁) := by
  rcases hx : x.run.run m with ⟨(trace | e) | found | w, m₁⟩ <;> rw [hx] at h <;> cases h
  exact ⟨m₁, rfl⟩

/-- A run with variables comes to the same with the marks that the variables leave. -/
theorem run_remark {root r : Value} {next : Nat} {vars : Entries String} (low : σ.low ≤ next)
    (first : σ.of next = ((ofVariables vars).markFrom next).2) (fixed : root.remark σ = root)
    (mandatory : root.Mandatory) (h : run {} root root next = .ok r) :
    run { environment := some vars } root root next = .ok (r.remark σ) := by
  let c : Surroundings := { available := root.referenceMarks ++ root.referenceMarks }
  have marks : root.referenceMarks.map σ.of = root.referenceMarks := by
    rw [← referenceMarks_remark, fixed]
  have surroundings : c.remark σ = c := by
    show Surroundings.mk (List.map σ.of (_ ++ _)) [] [] = Surroundings.mk (_ ++ _) [] []
    rw [List.map_append, marks]
  have fits : Memory.Fits σ { next } := ⟨low, by rintro _ ⟨⟩⟩
  have same : (settingOf {} root next).root.remark σ
      = (settingOf { environment := some vars } root next).root := fixed
  obtain ⟨m₁, run⟩ := exists_of_outcome h
  obtain ⟨-, -, run⟩ := carries_all same rfl rfl rfl mandatory c root none { next } fits (by rintro _ ⟨⟩)
    mandatory (some r) m₁ run
  rw [surroundings, fixed, Memory.remark, first] at run
  exact congrArg (fun x => outcome x.1) run

/-- **What a tree resolves to without variables it resolves to with them**, up to the marks of its
nodes. -/
theorem exists_resolve_remark {r : Value} {next : Nat} (coherent : v.Coherent)
    (mandatory : v.Mandatory) (waits : v.isResolved = false) (resolved : v.resolve {} next = .ok r)
    (vars : Entries String) :
    ∃ σ, v.resolve { environment := some vars } next = .ok (r.remark σ) := by
  obtain ⟨g, known, below⟩ := exists_known_marked coherent next
  rw [resolve_eq_run waits] at resolved
  have le := (ofVariables vars).le_markFrom (marked v next).2
  -- the variables take the marks in between
  refine ⟨.shift (marked v next).2 (((ofVariables vars).markFrom (marked v next).2).2
    - (marked v next).2), ?_⟩
  rw [resolve_eq_run waits]
  refine run_remark (Nat.le_refl _) ?_ (remark_eq_self known fun n u hu => if_pos (below n u hu))
    (mandatory.markFrom markStable_isMandatory _) resolved
  show (if _ < _ then _ else _ + _) = _
  rw [if_neg (Nat.lt_irrefl _)]
  omega

end Resolution

/-- **The environment never overrides the configuration.**  A document all of whose references are
mandatory is resolved with any variables to what it is resolved to without. -/
theorem Value.resolve_environment {v r : Value} {next : Nat} (parsed : v.Parsed)
    (mandatory : v.Mandatory) (resolved : v.resolve {} next = .ok r) (vars : Entries String) :
    ∃ w, v.resolve { environment := some vars } next = .ok w ∧ w.equals r = true := by
  have h := parsed.isRoot.resolvable
  obtain ⟨wf, settled⟩ := Resolution.wellFormed_of_resolve h resolved
  have equal {w : Value} (like : r.Alike w) (settled' : w.isResolved = true) : w.equals r = true := by
    have same : w.content (fun _ => .absent) = r.content fun _ => .absent := like.content_eq
    exact equals_of_content_eq (wf.alike (fun _ _ _ _ => trivial) like) settled' wf settled same
  by_cases waits : v.isResolved = true
  · rw [Value.resolve, if_pos waits] at resolved
    cases resolved
    exact ⟨v, by rw [Value.resolve, if_pos waits], equal (.refl v) settled⟩
  · obtain ⟨σ, resolved'⟩ := Resolution.exists_resolve_remark h.coherent mandatory
      (by simpa using waits) resolved vars
    exact ⟨r.remark σ, resolved', equal r.alike_remark ((isResolved_remark r).trans settled)⟩

/-- Variables for two keys that references name. -/
theorem Value.resolve_environment_example :
    let root := object onLine false layered
    let vars : Entries String := [("c", "2"), ("a", "3")]
    ∃ r w, root.Parsed ∧ root.Mandatory ∧ root.resolve {} 0 = .ok r
      ∧ root.resolve { environment := some vars } 0 = .ok w ∧ w.equals r = true := by
  intro root vars
  have checked : root.allNodes (referencePasses fun r => !r.target.optional) = true := by decide
  have mandatory : root.Mandatory := fun p r hr => by
    simpa [IsMandatory, referencePasses] using hr.check checked
  have found : (root.resolve {} 0).toOption.isSome = true := by cbv
  cases hr : root.resolve {} 0 with
  | error e =>
    rw [hr] at found
    cases found
  | ok r =>
    obtain ⟨w, hw, equal⟩ := resolve_environment parsed_layered mandatory hr vars
    exact ⟨r, w, parsed_layered, mandatory, rfl, hw, equal⟩

end Hocon
