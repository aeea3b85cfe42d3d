import Hocon.Proofs.History
import Hocon.Proofs.Resolving

/-!
# A merge seen from its own layers
-/

namespace Hocon

namespace Value

variable {k : Path} {v w d : Value}

/-! ### Piles of definitions -/

/-- What definitions of one key make that are put over each other: the one there is, or a waiting
merge of them. -/
inductive IsPile : Value → List Value → Prop
  | one {v : Value} (flat : v.isMerge = false) : IsPile v [v]
  | many {p : Provenance} {ls : List Value} (two : 2 ≤ ls.length) : IsPile (merge p .value ls) ls

theorem IsPile.layers {ls : List Value} (h : IsPile v ls) : v.layers = ls := by
  cases h with
  | one flat => cases v <;> first | rfl | cases flat
  | many => rfl

theorem lastIgnoresFallbacks_eq_false {ls : List Value} (h : ∀ l ∈ ls, l.ignoresFallbacks = false) :
    lastIgnoresFallbacks ls = false := by
  induction ls with
  | nil => rfl
  | cons l ls ih =>
    obtain ⟨hl, hls⟩ := List.forall_mem_cons.1 h
    cases ls with
    | nil => exact hl
    | cons => exact ih hls

/-- What looks back is put on top of what there was. -/
theorem IsPile.withFallback {ds ls : List Value} (hv : IsPile v ds)
    (looks : ∀ d ∈ ds, LooksBack k d) (hw : IsPile w ls) :
    ∃ o, v.withFallback w = merge { origin := o } .value (ds ++ ls) := by
  have open_ (d : Value) (hd : LooksBack k d) : d.ignoresFallbacks = false := by
    have := hd.isPending
    have := hd.isMerge
    cases d <;> first | rfl | simp_all [isPending, isMerge]
  have notObject : v.fields? = none ∧ v.isObjectValued = false ∧ v.ignoresFallbacks = false := by
    cases hv with
    | many => exact ⟨rfl, rfl, lastIgnoresFallbacks_eq_false fun d hd => open_ d (looks d hd)⟩
    | one =>
      have := (looks v List.mem_cons_self).isPending
      have := (looks v List.mem_cons_self).isMerge
      cases v <;> simp_all [isPending, isMerge, fields?, isObjectValued, ignoresFallbacks]
  have single (waits : ¬ w.isPending = true) : w.layers = [w] := by
    cases w <;> first | rfl | exact absurd rfl waits
  rw [Value.withFallback, absorb?_of_fields?_eq_none notObject.1, if_neg (by simp [notObject.2.2])]
  refine ⟨mergedOrigin (ds ++ ls), ?_⟩
  split
  · rw [hv.layers, hw.layers, stack, notObject.2.1]
    rfl
  · next waits =>
    rw [← single waits, hv.layers, hw.layers, stack, notObject.2.1]
    rfl

theorem isMerge_of_isPending_eq_false (h : v.isPending = false) : v.isMerge = false := by
  cases v <;> first | rfl | cases h

/-- A history put underneath what looks back. -/
theorem History.pile_foldl {ds ls : List Value} (older : History k ls) (hv : IsPile v ds)
    (new : v.isMerge = true → v.mark = none) (looks : ∀ d ∈ ds, LooksBack k d) :
    IsPile (ls.foldl Value.withFallback v) (ds ++ ls)
      ∧ ((ls.foldl Value.withFallback v).isMerge = true →
        (ls.foldl Value.withFallback v).mark = none) := by
  have put {v : Value} {ds : List Value} (hv : IsPile v ds) (looks : ∀ d ∈ ds, LooksBack k d)
      {u : Value} (flat : u.isMerge = false) :
      IsPile (v.withFallback u) (ds ++ [u]) ∧ (v.withFallback u).mark = none := by
    obtain ⟨o, eq⟩ := hv.withFallback looks (.one flat)
    have two : 2 ≤ (ds ++ [u]).length := by
      cases hv <;> simp
      omega
    exact ⟨eq ▸ .many two, eq ▸ rfl⟩
  induction older generalizing v ds with
  | nil => simpa using ⟨hv, new⟩
  | base resolved notObject =>
    have put := put hv looks (isMerge_of_isPending_eq_false (isPending_of_isResolved resolved))
    exact ⟨put.1, fun _ => put.2⟩
  | @cons d older looks' history ih =>
    have put := put hv looks looks'.isMerge
    rw [← List.singleton_append, ← List.append_assoc]
    refine ih put.1 (fun _ => put.2) fun x hx => ?_
    rcases List.mem_append.1 hx with hx | hx
    · exact looks x hx
    · exact List.mem_singleton.1 hx ▸ looks'

/-- What shows of the layers of a history below one of them. -/
theorem History.exists_pile {ls : List Value} (h : History k ls) (present : ls ≠ []) :
    ∃ v, mergeLayers? ls = some v ∧ IsPile v ls ∧ (v.isMerge = true → v.mark = none) := by
  cases h with
  | nil => exact absurd rfl present
  | @base v resolved notObject =>
    have flat := isMerge_of_isPending_eq_false (isPending_of_isResolved resolved)
    exact ⟨v, rfl, .one flat, fun h => absurd (flat.symm.trans h) Bool.false_ne_true⟩
  | @cons d older looks history =>
    refine ⟨_, rfl, history.pile_foldl (.one looks.isMerge) (fun h => ?_) ?_⟩
    · exact absurd (looks.isMerge.symm.trans h) Bool.false_ne_true
    · exact List.forall_mem_singleton.2 looks

end Value

namespace Resolution

open Value

/-! ### What is remembered -/

variable {g : Table} {start : Nat} {m m' m'' : Memory}

theorem Memory.recall?_none (m : Memory) (v : Value) :
    m.recall? v none = v.mark.bind fun n => m.find? n none := by
  unfold Memory.recall?
  cases v.mark with
  | none => rfl
  | some n => cases h : m.find? n none <;> simp [h]

theorem Memory.recall?_remember {v w : Value} {n : Nat} (mark : v.mark = some n) :
    (m.remember v none w).recall? v none = some w := by
  rw [Memory.recall?_none, mark, Option.bind_some, Memory.find?_remember, if_pos ⟨mark, rfl⟩]

/-- Nothing but what is resolved to itself is remembered of the nodes that wait for nothing; `g`
tells the nodes of the tree, whose marks are below `start`. -/
structure Memory.Sane (g : Table) (start : Nat) (m : Memory) : Prop where
  start : start ≤ m.next
  below : ∀ memo ∈ m.memos, memo.node < m.next
  own : ∀ memo ∈ m.memos, ∀ v, g memo.node = some v → v.isPending = false → memo.result = v

/-- Results for nodes that wait stay the same, but for those of some marks. -/
structure Memory.Spares (g : Table) (touched : Nat → Prop) (m m' : Memory) : Prop where
  le : m.next ≤ m'.next
  same : ∀ n < m.next, (∀ v, g n = some v → v.isPending = true) → ¬ touched n →
    m'.find? n none = m.find? n none

namespace Memory

variable {touched touched' : Nat → Prop}

theorem Spares.refl (m : Memory) : m.Spares g touched m := ⟨Nat.le_refl _, fun _ _ _ _ => rfl⟩

theorem Spares.trans (h : m.Spares g touched m') (h' : m'.Spares g touched m'') :
    m.Spares g touched m'' where
  le := Nat.le_trans h.le h'.le
  same n lt waits spared := by
    rw [h'.same n (Nat.lt_of_lt_of_le lt h.le) waits spared, h.same n lt waits spared]

theorem Spares.mono (h : m.Spares g touched m') (le : ∀ n, n < m.next → touched n → touched' n) :
    m.Spares g touched' m' where
  le := h.le
  same n lt waits spared := h.same n lt waits (mt (le n lt) spared)

theorem Sane.renew (h : m.Sane g start) {next : Nat} (le : m.next ≤ next) :
    ({ m with next } : Memory).Sane g start where
  start := Nat.le_trans h.start le
  below memo hm := Nat.lt_of_lt_of_le (h.below memo hm) le
  own := h.own

theorem Spares.renew (h : m.Spares g touched m') {next : Nat} (le : m'.next ≤ next) :
    m.Spares g touched { m' with next } where
  le := Nat.le_trans h.le le
  same := h.same

theorem Sane.remember (h : m.Sane g start) {v w : Value} {n : Nat} (mark : v.mark = some n)
    (lt : n < m.next) (own : ∀ u, g n = some u → u.isPending = false → w = u)
    (along : Option Path) : (m.remember v along w).Sane g start := by
  simp only [Memory.remember, mark]
  exact ⟨h.start, List.forall_mem_cons.2 ⟨lt, h.below⟩, List.forall_mem_cons.2 ⟨own, h.own⟩⟩

theorem Spares.remember (h : m.Spares g touched m') {v w : Value} {n : Nat} (mark : v.mark = some n)
    {along : Option Path} (reach : along = none → (∀ u, g n = some u → u.isPending = true) → touched n) :
    m.Spares g touched (m'.remember v along w) where
  le := Nat.le_trans h.le (Nat.le_of_eq (next_remember m' v w along).symm)
  same i lt waits spared := by
    rw [find?_remember, if_neg, h.same i lt waits spared]
    rintro ⟨same, e⟩
    cases mark.symm.trans same
    exact spared (reach e waits)

/-- Marks that are not given yet have no results. -/
theorem Sane.find?_eq_none (h : m.Sane g start) {n : Nat} (le : m.next ≤ n) :
    m.find? n none = none := by
  refine Option.map_eq_none_iff.2 (List.find?_eq_none.2 fun memo hm => ?_)
  have := h.below memo hm
  simp only [Bool.and_eq_true, beq_iff_eq, not_and]
  omega

theorem Sane.recall (h : m.Sane g start) {v w : Value} {n : Nat} (mark : v.mark = some n)
    (entry : g n = some v) (waits : v.isPending = false) {along : Option Path}
    (hw : m.recall? v along = some w) : w = v := by
  have find {a : Option Path} (ha : m.find? n a = some w) : w = v := by
    obtain ⟨memo, hm, rfl⟩ := Option.map_eq_some_iff.1 ha
    have same := List.find?_some hm
    simp only [Bool.and_eq_true, beq_iff_eq] at same
    exact h.own memo (List.mem_of_find?_eq_some hm) v (same.1 ▸ entry) waits
  simp only [Memory.recall?, mark] at hw
  split at hw
  · next h => exact find (h.trans hw)
  split at hw
  · exact find hw
  · cases hw

end Memory

/-! ### Single steps -/

variable {s : Setting} {c : Surroundings} {k : Path} {K v w : Value} {touched : Nat → Prop}
  {Q : Except Failure (Option Value) → Memory → Prop}

/-- That `Q` holds of a result once it has been kept. -/
def Keeps (s : Setting) (v : Value) (along : Option Path)
    (Q : Except Failure (Option Value) → Memory → Prop) :
    Except Failure (Option Value) → Memory → Prop
  | .ok (some w), m => Ensures (do keep s v along w; return some w) m Q
  | out, m => Q out m

/-- A result that is resolved is good for all of the node. -/
theorem Keeps.resolved {along : Option Path} (h : w.isResolved = true)
    (hQ : Q (.ok (some w)) (m.remember v none w)) : Keeps s v along Q (.ok (some w)) m := by
  show Ensures (do keep s v along w; return some w) m Q
  rw [keep, if_pos h]
  exact hQ

/-- A result that still waits is good for the part that was asked for. -/
theorem Keeps.partly {path : Path} (h : ¬ w.isResolved = true)
    (hQ : Q (.ok (some w)) (m.remember v (some path) w)) :
    Keeps s v (some path) Q (.ok (some w)) m := by
  show Ensures (do keep s v (some path) w; return some w) m Q
  rw [keep, if_neg h]
  simp only [Option.isSome_some, Bool.true_or, if_true]
  exact hQ

/-- A result that still waits is refused if all of the node was asked for. -/
theorem Keeps.refused (strict : s.allowUnresolved = false) (h : w.isResolved = false)
    (hQ : Q (.error (.error (.broken (.stillPending w)))) m) : Keeps s v none Q (.ok (some w)) m := by
  show Ensures (do keep s v none w; return some w) m Q
  rw [keep, if_neg (Bool.eq_false_iff.1 h), strict]
  exact hQ

/-- What has no result yet and is not open is resolved by what is in it. -/
theorem ensures_resolve {along : Option Path} (free : m.recall? v along = none)
    (shut : c.showing? v = none)
    (h : Ensures (resolveNode s c v along) m (Keeps s v along Q)) :
    Ensures (resolve s c v along) m Q := by
  rw [resolve]
  refine Ensures.get_bind ?_
  simp only [free]
  split
  · exact h.bind (fun a m' ha => by cases a <;> exact ha) fun e m' he => he
  · next e => cases e.symm.trans shut
  · next e => cases e.symm.trans shut

/-- What has a result has it again. -/
theorem ensures_resolve_recalled {along : Option Path} (h : m.recall? v along = some w)
    (hw : Q (.ok (some w)) m) : Ensures (resolve s c v along) m Q := by
  rw [resolve]
  refine Ensures.get_bind ?_
  simp only [h]
  exact hw

/-- What an open merge shows is resolved in its place. -/
theorem ensures_resolve_shown {along : Option Path} (free : m.recall? v along = none)
    (shown : c.showing? v = some (some w))
    (h : Ensures (resolve s c w along) m (Keeps s v along Q)) :
    Ensures (resolve s c v along) m Q := by
  rw [resolve]
  refine Ensures.get_bind ?_
  simp only [free]
  split
  · next e => cases e.symm.trans shown
  · next e => cases e.symm.trans shown
  · next u e =>
    cases e.symm.trans shown
    exact h.bind (fun a m' ha => by cases a <;> exact ha) fun e m' he => he

/-- A merge of which nothing shows is a cycle. -/
theorem ensures_resolve_hidden {along : Option Path} (free : m.recall? v along = none)
    (hidden : c.showing? v = some none) (h : Q (.error (.cycle c.trace)) m) :
    Ensures (resolve s c v along) m Q := by
  rw [resolve]
  refine Ensures.get_bind ?_
  simp only [free]
  split
  · next e => cases e.symm.trans hidden
  · exact h
  · next e => cases e.symm.trans hidden

/-! ### Values that need nothing, and references -/

/-- A tree in which references to `k` lead to the node `K`, which is looked up without trouble. -/
structure Site (s : Setting) (k : Path) (K : Value) (g : Table) (start : Nat) : Prop where
  strict : s.allowUnresolved = false
  table : ∀ n v, g n = some v → n < start
  found : ∀ c m, m.Sane g start → Ensures (findIn (resolve s c) s.root k) m fun out m' =>
    out = .ok (some K) ∧ m'.Sane g start ∧ m.Spares g (fun _ => False) m'

/-- The node of a resolved value is the value. -/
theorem resolveNode_of_isResolved (h : v.isResolved = true) :
    resolveNode s c v none = pure (some v) := by
  cases v with
  | object p closed fs => rw [resolveNode, if_pos (show fieldsResolved fs = true from h)]
  | list p xs => rw [resolveNode, if_pos (by simpa [isResolved] using h)]
  | reference | concat | merge => cases h
  | _ => rw [resolveNode] <;> intros <;> contradiction

theorem ensures_resolved (known : v.Known g) (table : ∀ n v, g n = some v → n < start)
    (h : v.isResolved = true) (sane : m.Sane g start) :
    Ensures (resolve s c v none) m fun out m' =>
      out = .ok (some v) ∧ m'.Sane g start ∧ m.Spares g (fun _ => False) m'
        ∧ m'.recall? v none = some v := by
  obtain ⟨n, mark, entry⟩ := known.exists_mark
  have waits := isPending_of_isResolved h
  cases hr : m.recall? v none with
  | some w =>
    cases sane.recall mark entry waits hr
    exact ensures_resolve_recalled hr ⟨rfl, sane, .refl m, hr⟩
  | none =>
    have shut : c.showing? v = none := by cases v <;> first | rfl | cases waits
    refine ensures_resolve hr shut ?_
    rw [resolveNode_of_isResolved h]
    refine Ensures.pure (.resolved h ⟨rfl, ?_, ?_, Memory.recall?_remember mark⟩)
    · refine sane.remember mark (Nat.lt_of_lt_of_le (table n v entry) sane.start) (fun u hu _ => ?_) none
      exact Option.some.inj (entry.symm.trans hu)
    · exact (Memory.Spares.refl m).remember mark fun _ waits' =>
        absurd ((waits' v entry).symm.trans waits) nofun

/-- What resolving a node that a reference points at comes to for the reference. -/
def Refers (p : Provenance) (r : Reference) (Q : Except Failure (Option Value) → Memory → Prop) :
    Except Failure (Option Value) → Memory → Prop
  | .ok (some w), m => w.isResolved = true ∧ Q (.ok (some w)) (m.remember (.reference p r) none w)
  | .error (.error e), m => Q (.error (.error e)) m
  | _, m => if r.target.optional then Q (.ok none) m else ∀ e, Q (.error (.error e)) m

theorem Refers.of_vanished {p : Provenance} {r : Reference} {out : Except Failure (Option Value)}
    (vanished : out = .ok none ∨ ∃ t, out = .error (.cycle t))
    (optional : r.target.optional = true → Q (.ok none) m)
    (mandatory : r.target.optional = false → ∀ e, Q (.error (.error e)) m) : Refers p r Q out m := by
  have both : if r.target.optional then Q (.ok none) m else ∀ e, Q (.error (.error e)) m := by
    split
    · next h => exact optional h
    · next h => exact mandatory (Bool.eq_false_iff.2 h)
  rcases vanished with rfl | ⟨t, rfl⟩ <;> exact both

/-- What looking up a reference comes to for the reference, cycles being told from failures. -/
def SettlesLookup (p : Provenance) (r : Reference) (Q : Except Failure (Option Value) → Memory → Prop) :
    Except Failure (Option Value) → Memory → Prop
  | .ok (some w), m => w.isResolved = true ∧ Q (.ok (some w)) (m.remember (.reference p r) none w)
  | .ok none, m => if r.target.optional then Q (.ok none) m else ∀ e, Q (.error (.error e)) m
  | .error e, m => Q (.error e) m

theorem ensures_reference (site : Site s k K g start) {p : Provenance} {r : Reference} {n : Nat}
    (mark : p.mark = some n) (target : r.target.path = k) (free : m.find? n none = none)
    (available : n ∈ c.available) (sane : m.Sane g start)
    (h : ∀ m', m'.Sane g start → m.Spares g (fun _ => False) m' →
      Ensures (resolve s (c.within n (c.trace ++ [r.target])) K none) m' (Refers p r Q)) :
    Ensures (resolve s c (.reference p r) none) m Q := by
  refine ensures_resolve ?_ rfl ?_
  · rw [Memory.recall?_none]
    simp only [Value.mark, prov, mark, Option.bind_some, free]
  subst target
  rw [resolveNode]
  simp only [mark, dif_pos available]
  -- what is looked up leads to `K`
  have lookedUp : Ensures (lookUp s (fun trace w along => resolve s (c.within n trace) w along)
      c.trace r none) m (Refers p r Q) := by
    unfold lookUp
    refine (site.found _ m sane).bind (fun found m' hm' => ?_) fun e m' hm' => by cases hm'.1
    obtain ⟨hf, sane', spares⟩ := hm'
    cases hf
    exact h m' sane' spares
  refine Ensures.bind (P := SettlesLookup p r Q) (lookedUp.tryCatch (fun a m' ha => ?_) fun e m' he => ?_)
    (fun a m' ha => ?_) fun e m' he => he
  · cases a <;> exact ha
  · cases e with
    | error e => exact he
    | cycle trace =>
      simp only [Refers] at he
      simp only []
      split
      · next optional =>
        show SettlesLookup p r Q (.ok none) m'
        rw [SettlesLookup, if_pos optional]
        rwa [if_pos optional] at he
      · next mandatory =>
        rw [if_neg mandatory] at he
        exact he _
  · cases a with
    | some w => exact .resolved ha.1 ha.2
    | none =>
      simp only [SettlesLookup] at ha ⊢
      split
      · next optional =>
        rw [if_pos optional] at ha
        exact ha
      · next mandatory =>
        rw [if_neg mandatory] at ha
        rw [site.strict, if_neg Bool.false_ne_true]
        exact ha _

/-! ### What shows -/

/-- What is resolved in place of a value: an open merge shows what is below its layer, and this may
be an open merge again.  The list holds the merges that are open. -/
inductive Shows (c : Surroundings) : Value → List Value → Option Value → Prop
  | here {v : Value} (shut : c.showing? v = none) : Shows c v [] (some v)
  | gone {v : Value} (hidden : c.showing? v = some none) : Shows c v [v] none
  | deeper {v w : Value} {ys : List Value} {x : Option Value} (shown : c.showing? v = some (some w))
      (rest : Shows c w ys x) : Shows c v (v :: ys) x

/-- The surroundings with one more open merge. -/
def Surroundings.opened (c : Surroundings) (node layer base : Nat) : Surroundings :=
  { c with merges := ⟨node, layer, base⟩ :: c.merges }

theorem Surroundings.showing?_opened {node layer base : Nat} {p : Provenance} {kind : MergeKind}
    {ls : List Value} :
    (c.opened node layer base).showing? (.merge p kind ls) =
      if p.mark = some node then
        some ((mergeLayers? (ls.drop (layer + 1))).map fun w => (w.markFrom base).1)
      else c.showing? (.merge p kind ls) := by
  simp only [Surroundings.opened, Surroundings.showing?, List.find?_cons]
  by_cases h : p.mark = some node
  · simp [h]
  · rw [if_neg h, show (some node == p.mark) = false from by simpa using Ne.symm h]

theorem Surroundings.isMerge_of_showing? {r : Option Value} (h : c.showing? v = some r) :
    ∃ p kind ls, v = .merge p kind ls := by
  cases v with
  | merge p kind ls => exact ⟨p, kind, ls, rfl⟩
  | _ => cases h

theorem Shows.isMerge {ys : List Value} {x : Option Value} (h : Shows c v ys x) :
    ∀ y ∈ ys, y.isMerge = true := by
  have merge {v : Value} {r : Option Value} (h : c.showing? v = some r) : v.isMerge = true := by
    obtain ⟨p, kind, ls, rfl⟩ := Surroundings.isMerge_of_showing? h
    rfl
  induction h with
  | here => nofun
  | gone hidden => exact List.forall_mem_singleton.2 (merge hidden)
  | deeper shown _ ih => exact List.forall_mem_cons.2 ⟨merge shown, ih⟩

theorem Shows.shut {ys : List Value} {x : Value} (h : Shows c v ys (some x)) :
    c.showing? x = none := by
  generalize hx : some x = o at h
  induction h with
  | here shut => exact Option.some.inj hx ▸ shut
  | gone => cases hx
  | deeper _ _ ih => exact ih hx

/-- Opening what shows at the end shows what is below its layer. -/
theorem Shows.opened {ys : List Value} {p : Provenance} {kind : MergeKind} {ls : List Value}
    {node : Nat} (h : Shows c v ys (some (.merge p kind ls))) (mark : p.mark = some node)
    (layer base : Nat) {x : Option Value}
    (shown : (mergeLayers? (ls.drop (layer + 1))).map (fun w => (w.markFrom base).1) = x)
    (shut : ∀ u, x = some u → (c.opened node layer base).showing? u = none) :
    Shows (c.opened node layer base) v (ys ++ [.merge p kind ls]) x := by
  have still := h.shut
  generalize hx : some (Value.merge p kind ls) = o at h
  induction h with
  | here =>
    cases hx
    have shows : (c.opened node layer base).showing? (.merge p kind ls) = some x := by
      rw [Surroundings.showing?_opened, if_pos mark, shown]
    cases x with
    | none => exact .gone shows
    | some u => exact .deeper shows (.here (shut u rfl))
  | gone => cases hx
  | @deeper v w ys x' shown' _ ih =>
    obtain ⟨q, j, ls', rfl⟩ := Surroundings.isMerge_of_showing? shown'
    refine .deeper ?_ (ih hx)
    rw [Surroundings.showing?_opened, if_neg, shown']
    -- the merge would not be open
    intro same
    have eq : (c.showing? (.merge p kind ls)).isNone = (c.showing? (.merge q j ls')).isNone := by
      simp only [Surroundings.showing?, mark, same, Option.isNone_map]
    rw [still, shown'] at eq
    cases eq

/-- Surroundings with the same open merges show the same. -/
theorem Shows.congr {c' : Surroundings} {ys : List Value} {x : Option Value} (h : Shows c v ys x)
    (merges : c'.merges = c.merges) : Shows c' v ys x := by
  have same (v : Value) : c'.showing? v = c.showing? v := by
    cases v with
    | merge p kind ls => simp only [Surroundings.showing?, merges]
    | _ => rfl
  induction h with
  | here shut => exact .here ((same _).trans shut)
  | gone hidden => exact .gone ((same _).trans hidden)
  | deeper shown _ ih => exact .deeper ((same _).trans shown) ih

/-- The memory with one result for several nodes. -/
def Memory.rememberAll (m : Memory) (ys : List Value) (w : Value) : Memory :=
  ys.foldr (fun y m => m.remember y none w) m

/-- What resolving the value that shows comes to for the merges that are open. -/
def Passes (ys : List Value) (Q : Except Failure (Option Value) → Memory → Prop) :
    Except Failure (Option Value) → Memory → Prop
  | .ok (some w), m => w.isResolved = true ∧ Q (.ok (some w)) (m.rememberAll ys w)
  | out, m => Q out m

theorem ensures_through {ys : List Value} {x : Value} (h : Shows c v ys (some x))
    (free : ∀ y ∈ ys, m.recall? y none = none)
    (hx : Ensures (resolve s c x none) m (Passes ys Q)) : Ensures (resolve s c v none) m Q := by
  generalize ho : some x = o at h
  induction h generalizing Q with
  | here =>
    cases ho
    refine hx.mono fun out m' hout => ?_
    match out with
    | .ok (some w) => exact hout.2
    | .ok none => exact hout
    | .error e => exact hout
  | gone => cases ho
  | deeper shown _ ih =>
    obtain ⟨hv, free⟩ := List.forall_mem_cons.1 free
    refine ensures_resolve_shown hv shown (ih free ?_ ho)
    refine hx.mono fun out m' hout => ?_
    match out with
    | .ok (some w) => exact ⟨hout.1, .resolved hout.1 hout.2⟩
    | .ok none => exact hout
    | .error e => exact hout

/-- If nothing shows in the end, then it is a cycle. -/
theorem ensures_gone {ys : List Value} (h : Shows c v ys none)
    (free : ∀ y ∈ ys, m.recall? y none = none) (hQ : Q (.error (.cycle c.trace)) m) :
    Ensures (resolve s c v none) m Q := by
  generalize ho : none = o at h
  induction h generalizing Q with
  | here => cases ho
  | gone hidden => exact ensures_resolve_hidden (free _ List.mem_cons_self) hidden hQ
  | deeper shown _ ih =>
    obtain ⟨hv, free⟩ := List.forall_mem_cons.1 free
    exact ensures_resolve_shown hv shown (ih free hQ ho)

end Resolution

end Hocon
