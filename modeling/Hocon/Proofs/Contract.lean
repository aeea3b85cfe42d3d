import Mathlib.Data.List.Forall2
import Hocon.Proofs.Ensures
import Hocon.Proofs.Settled

/-!
# Contracts of a resolution

A resolution is one recursion through five functions, with a memory that outlives failures.  All
that is to be proved about it has the same shape: if a node may be resolved here (`pre`), then
what it is resolved to is right (`post`), or there is a reason for the failure (`fail`).  A
`Contract` consists of such conditions and of what each kind of node has to do for them; no
field of it speaks of runs, memory or marks.  `Contract.resolve_run` goes through the recursion
once and for all.

On the way the theorem proves what every contract needs: that a mark finds the result of the
node it belongs to, that results are resolved as far as they were asked for, and that none of the
internal errors can occur.
-/

namespace Hocon.Resolution

open Value

/-- The roots that references are looked up in. -/
def Setting.IsSource (s : Setting) (e : Value) : Prop := e = s.root ∨ s.environment = some e

/-- The merge with the given number is being resolved in its layer `layer`. -/
def Surroundings.opening (c : Surroundings) (node : Option Nat) (layer base : Nat) (v : Value) :
    Surroundings :=
  { c with merges := match v.isPending, node with
      | true, some node => ⟨node, layer, base⟩ :: c.merges
      | _, _ => c.merges }

theorem Memory.find?_remember (m : Memory) (v w : Value) (n : Nat) (a b : Option Path) :
    (m.remember v a w).find? n b = if v.mark = some n ∧ a = b then some w else m.find? n b := by
  unfold Memory.remember
  cases hv : v.mark with
  | none => simp
  | some k =>
    unfold Memory.find?
    rw [List.find?_cons]
    by_cases same : k = n ∧ a = b
    · obtain ⟨rfl, rfl⟩ := same
      simp
    · have : (k == n && a == b) = false := by
        rw [Bool.eq_false_iff]
        intro h
        simp only [Bool.and_eq_true, beq_iff_eq] at h
        exact same h
      simp only [this, Option.some.injEq, if_neg same]

theorem Memory.next_remember (m : Memory) (v w : Value) (a : Option Path) :
    (m.remember v a w).next = m.next := by
  unfold Memory.remember
  split <;> rfl

section Answers

variable (manner : Manner) (post : Value → Option Path → Option Value → Prop)

/-- A result of a node as it should be, apart from marks. -/
structure Answer (v : Value) (along : Option Path) (result : Option Value) : Prop where
  post : post v along result
  wellFormed : ∀ w, result = some w → w.WellFormed manner
  settled : ∀ w, result = some w → w.Settled along
  /-- An object stays one. -/
  object : v.fields?.isSome = true → ∃ w, result = some w ∧ w.fields?.isSome = true

/-- What became of a field: nothing if the path does not lead there. -/
def FieldAnswer (along : Option Path) (f : String × Value) (r : String × Option Value) : Prop :=
  r.1 = f.1 ∧
    match alongField along f.1 with
    | some a => Answer manner post f.2 a r.2
    | none => r.2 = some f.2

/-- What is found at a path of a source of which only that much is resolved. -/
def Found (source : Value) (path : Path) (found : Option Value) : Prop :=
  ∃ w, Answer manner post source (some path) (some w)
    ∧ w.peekThrough path.first path.rest = .ok found

/-- What a lookup may come to: what is found in the root, or there without the keys that including
documents added, or else in the environment, is resolved in turn. -/
inductive LookedUp (s : Setting) (r : Reference) (along : Option Path) : Option Value → Prop
  | root {u : Value} {result : Option Value} (found : Found manner post s.root r.target.path (some u))
      (target : Answer manner post u along result) : LookedUp s r along result
  | inner {path : Path} {u : Value} {result : Option Value}
      (missing : Found manner post s.root r.target.path none)
      (inner : r.target.path.drop? r.included = some path)
      (found : Found manner post s.root path (some u))
      (target : Answer manner post u along result) : LookedUp s r along result
  | environment {path : Path} {e u : Value} {result : Option Value}
      (missing : ∀ path ∈ r.paths, Found manner post s.root path none)
      (inner : r.target.path.drop? r.included = some path) (source : s.environment = some e)
      (found : Found manner post e path (some u))
      (target : Answer manner post u along result) : LookedUp s r along result
  | missing (root : ∀ path ∈ r.paths, Found manner post s.root path none)
      (environment : ∀ e path, s.environment = some e →
        r.target.path.drop? r.included = some path → Found manner post e path none) :
      LookedUp s r along none

end Answers

/-- What resolving is to fulfil, and why each kind of node fulfils it. -/
structure Contract (s : Setting) (manner : Manner) where
  /-- What may be resolved, where, and how far. -/
  pre : Table → Surroundings → Value → Option Path → Prop
  /-- What is right as a result. -/
  post : Value → Option Path → Option Value → Prop
  /-- How resolving may fail, below what is being looked up. -/
  fail : List PathReference → Failure → Prop
  strict : s.allowUnresolved = false
  query_alike : ∀ v w, v.Alike w → manner.query v → manner.query w
  pre_grows : ∀ {g n g' n' c v along}, g.Grows False n g' n' → pre g c v along → pre g' c v along
  -- results may be kept
  post_part : ∀ {v w path}, post v none (some w) → post v (some path) (some w)
  post_whole : ∀ {v w along}, post v along (some w) → w.isResolved = true → post v none (some w)
  post_marked : ∀ {v w along} (n : Nat), w.WellFormed manner → post v along (some w) →
    post v along (some (w.markFrom n).1)
  -- a merge that is open shows what is below
  hidden : ∀ {g c v along}, pre g c v along → v.Known g → c.showing? v = some none →
    fail c.trace (.cycle c.trace)
  shown : ∀ {g c v w along}, pre g c v along → v.Known g → c.showing? v = some (some w) →
    pre g c w along
  post_shown : ∀ {g c v w along result}, pre g c v along → v.Known g →
    c.showing? v = some (some w) → post w along result → post v along result
  -- references
  unavailable : ∀ {g c p r m along}, pre g c (.reference p r) along →
    (Value.reference p r).Known g → p.mark = some m → m ∉ c.available → fail c.trace (.cycle c.trace)
  source : ∀ {g c p r m along path e}, pre g c (.reference p r) along →
    (Value.reference p r).Known g → p.mark = some m → m ∈ c.available → path ∈ r.paths →
    s.IsSource e → pre g (c.within m (c.trace ++ [{ r.target with path }])) e (some path)
  target : ∀ {g c p r m along path e u}, pre g c (.reference p r) along →
    (Value.reference p r).Known g → p.mark = some m → m ∈ c.available → path ∈ r.paths →
    s.IsSource e → Found manner post e path (some u) →
    pre g (c.within m (c.trace ++ [{ r.target with path }])) u along
  post_reference : ∀ {g c p r along w}, pre g c (.reference p r) along →
    (Value.reference p r).WellFormed manner → LookedUp manner post s r along (some w) →
    post (.reference p r) along (some w)
  missing : ∀ {g c p r along}, pre g c (.reference p r) along →
    (Value.reference p r).WellFormed manner → LookedUp manner post s r along none →
    if r.target.optional then post (.reference p r) along none
    else fail c.trace (.error (.unresolved p.origin (.noTarget r.target)))
  cycle : ∀ {g c p r along trace}, pre g c (.reference p r) along →
    (Value.reference p r).WellFormed manner → fail (c.trace ++ [r.target]) (.cycle trace) →
    if r.target.optional then post (.reference p r) along none
    else fail c.trace (.error (.unresolved p.origin (.cycle r.target trace)))
  error : ∀ {trace t e}, fail (trace ++ [t]) (.error e) → fail trace (.error e)
  -- under which of its paths a reference is looked up makes no difference
  retrace : ∀ {trace t t' f}, fail (trace ++ [t]) f → fail (trace ++ [t']) f
  -- everything else
  post_self : ∀ {g c v along}, pre g c v along → v.isResolved = true → post v along (some v)
  post_list_part : ∀ {g c p xs path}, pre g c (.list p xs) (some path) →
    post (.list p xs) (some path) (some (.list p xs))
  field : ∀ {g c p closed fs along k v a}, pre g c (.object p closed fs) along → (k, v) ∈ fs →
    alongField along k = some a → pre g c v a
  post_object : ∀ {g c p closed fs along rs}, pre g c (.object p closed fs) along →
    (Value.object p closed fs).WellFormed manner →
    List.Forall₂ (FieldAnswer manner post along) fs rs → ∀ q : Provenance,
    post (.object p closed fs) along
      (some (.object q closed (rs.filterMap fun f => f.2.map fun w => (f.1, w))))
  item : ∀ {g c p xs x}, pre g c (.list p xs) none → x ∈ xs → pre g c x none
  post_list : ∀ {g c p xs rs}, pre g c (.list p xs) none →
    List.Forall₂ (fun x r => Answer manner post x none r) xs rs → ∀ q : Provenance,
    post (.list p xs) none (some (.list q (rs.filterMap id)))
  piece : ∀ {g c p ps along x}, pre g c (.concat p ps) along → x ∈ ps → pre g c x none
  post_concat : ∀ {g c p ps along rs}, pre g c (.concat p ps) along →
    (Value.concat p ps).WellFormed manner →
    List.Forall₂ (fun x r => Answer manner post x none r) ps rs →
    match joinRun true (rs.filterMap id) with
    | .ok ws => post (.concat p ps) along ws.head?
    | .error e => fail c.trace (.error e)
  layer : ∀ {g c p k ls along i l base}, pre g c (.merge p k ls) along →
    (Value.merge p k ls).Known g → (Value.merge p k ls).WellFormed manner → ls[i]? = some l →
    pre g (c.opening p.mark i base l) l along
  post_merge : ∀ {g c p k ls along rs}, pre g c (.merge p k ls) along →
    (Value.merge p k ls).WellFormed manner →
    List.Forall₂ (fun l r => Answer manner post l along r) ls rs →
    post (.merge p k ls) along (rs.foldl Entries.overlay none)

namespace Contract

variable {s : Setting} {manner : Manner} (K : Contract s manner)

/-! ### What holds of the memory -/

/-- A result for a node that the contract answers for. -/
def Answers (v : Value) (along : Option Path) (result : Option Value) : Prop :=
  Answer manner K.post v along result

/-- The results that are kept are right for the nodes that have their marks. -/
structure Kept (g : Table) (m : Memory) : Prop where
  below : ∀ n v, g n = some v → n < m.next
  source : ∀ e, s.IsSource e → e.Known g ∧ e.WellFormed manner ∧ e.fields?.isSome = true
  memo : ∀ memo ∈ m.memos, ∃ v, g memo.node = some v ∧ memo.result.Known g
    ∧ K.Answers v memo.along (some memo.result)

/-- The merges that are open are known, and so is what shows of them. -/
def Opens (g : Table) (c : Surroundings) : Prop :=
  ∀ o ∈ c.merges, ∃ p k ls, g o.node = some (.merge p k ls)
    ∧ ∀ w, mergeLayers? (ls.drop (o.layer + 1)) = some w → (w.markFrom o.base).1.Known g

variable {K} {g g' : Table} {m m' : Memory} {c : Surroundings}

theorem Opens.grows {n n' : Nat} (h : Opens g c) (grows : g.Grows False n g' n') :
    Opens g' c := by
  intro o ho
  obtain ⟨p, k, ls, hg, hw⟩ := h o ho
  exact ⟨p, k, ls, grows.keeps _ _ hg, fun w h => grows.known (hw w h)⟩

/-- The memory with marks used up. -/
theorem Kept.grows (h : K.Kept g m) (grows : g.Grows False m.next g' m'.next)
    (memos : m'.memos = m.memos) : K.Kept g' m' where
  below := grows.below
  source e he := ⟨grows.known (h.source e he).1, (h.source e he).2⟩
  memo := by
    rw [memos]
    intro memo hm
    obtain ⟨v, hg, known, answer⟩ := h.memo memo hm
    exact ⟨v, grows.keeps _ _ hg, grows.known known, answer⟩

/-- A result that is found again is right for the node that was asked for. -/
theorem Kept.recall (h : K.Kept g m) {v w : Value} {along : Option Path} (known : v.Known g)
    (hw : m.recall? v along = some w) : w.Known g ∧ K.Answers v along (some w) := by
  obtain ⟨n, mark, entry⟩ := known.exists_mark
  have find {a : Option Path} (ha : m.find? n a = some w) :
      w.Known g ∧ K.Answers v a (some w) := by
    obtain ⟨memo, hm, rfl⟩ := Option.map_eq_some_iff.1 ha
    obtain ⟨u, hg, known, answer⟩ := h.memo memo (List.mem_of_find?_eq_some hm)
    have same := List.find?_some hm
    simp only [Bool.and_eq_true, beq_iff_eq] at same
    rw [same.1] at hg
    cases hg.symm.trans entry
    exact ⟨known, same.2 ▸ answer⟩
  simp only [Memory.recall?, mark] at hw
  cases hn : m.find? n none with
  | some u =>
    simp only [hn, Option.some.injEq] at hw
    subst hw
    obtain ⟨known', answer⟩ := find hn
    cases along with
    | none => exact ⟨known', answer⟩
    | some path =>
      refine ⟨known', K.post_part answer.post, answer.wellFormed, fun x hx => ?_, answer.object⟩
      exact .resolved (answer.settled x hx).isResolved
  | none =>
    simp only [hn] at hw
    split at hw
    · exact find hw
    · cases hw

/-! ### Runs -/

/-- What a run does that fulfils its part: the table grows with the marks that are used up, what
is kept stays right, and an outcome is as expected or a failure has its reason. -/
def Run (K : Contract s manner) {α : Type} (g : Table) (m : Memory) (trace : List PathReference)
    (x : Step α) (Q : Table → α → Prop) : Prop :=
  Ensures x m fun out m' => ∃ g', g.Grows False m.next g' m'.next ∧ K.Kept g' m' ∧
    match out with
    | .ok a => Q g' a
    | .error f => K.fail trace f

namespace Run

variable {α β : Type} {trace : List PathReference} {x : Step α} {Q : Table → α → Prop}
  {R : Table → β → Prop}

theorem pure {a : α} (kept : K.Kept g m) (h : Q g a) :
    K.Run g m trace (pure a) Q :=
  Ensures.pure ⟨g, .refl kept.below, kept, h⟩

theorem throw {f : Failure} (kept : K.Kept g m) (h : K.fail trace f) :
    K.Run g m trace (throw f : Step α) Q :=
  Ensures.throw ⟨g, .refl kept.below, kept, h⟩

theorem bind {f : α → Step β} (hx : K.Run g m trace x Q)
    (hf : ∀ a g' m', g.Grows False m.next g' m'.next → K.Kept g' m' → Q g' a →
      K.Run g' m' trace (f a) R) : K.Run g m trace (x >>= f) R := by
  refine Ensures.bind hx (fun a m' h => ?_) fun e m' h => h
  obtain ⟨g', grows, kept, ha⟩ := h
  refine (hf a g' m' grows kept ha).mono fun out m'' h => ?_
  obtain ⟨g'', grows', kept', h⟩ := h
  exact ⟨g'', grows.trans grows', kept', h⟩

/-- One of two computations with the same one behind. -/
theorem ite_bind {c : Prop} [Decidable c] {y : Step α} {f : α → Step β}
    (hx : K.Run g m trace (if c then x else y) Q)
    (hf : ∀ a g' m', g.Grows False m.next g' m'.next → K.Kept g' m' → Q g' a →
      K.Run g' m' trace (f a) R) : K.Run g m trace (if c then x >>= f else y >>= f) R := by
  by_cases h : c
  · rw [if_pos h] at hx ⊢
    exact hx.bind hf
  · rw [if_neg h] at hx ⊢
    exact hx.bind hf

theorem mono {R : Table → α → Prop} (hx : K.Run g m trace x Q)
    (h : ∀ g' a, Q g' a → R g' a) : K.Run g m trace x R := by
  refine Ensures.mono hx fun out m' hout => ?_
  obtain ⟨g', grows, kept, hout⟩ := hout
  refine ⟨g', grows, kept, ?_⟩
  cases out with
  | ok a => exact h g' a hout
  | error f => exact hout

/-- The same run in a lookup of another path. -/
theorem retrace {t t' : PathReference} (hx : K.Run g m (trace ++ [t]) x Q) :
    K.Run g m (trace ++ [t']) x Q := by
  refine Ensures.mono hx fun out m' hout => ?_
  obtain ⟨g', grows, kept, hout⟩ := hout
  refine ⟨g', grows, kept, ?_⟩
  cases out with
  | ok a => exact hout
  | error f => exact K.retrace hout

/-- New nodes get marks. -/
theorem renew {w : Value} {Q : Table → Value → Prop} (kept : K.Kept g m)
    (hw : w.Sound manner False g)
    (h : ∀ g', (w.markFrom m.next).1.Known g' → Q g' (w.markFrom m.next).1) :
    K.Run g m trace (renew w) Q := by
  obtain ⟨g', grows, known⟩ := exists_known_markFrom w g m.next kept.below hw.markable
  exact Ensures.modifyGet ⟨g', grows, kept.grows grows rfl, h g' known⟩

end Run

end Contract

end Hocon.Resolution
