import Hocon.Proofs.Towers

/-!
# Resolving a definition piece by piece

A definition of a key in terms of itself is resolved piece by piece, and each reference among the
pieces is looked up anew.  What they see is left open here: nothing at all, in which case the
optional ones vanish (`Drops`), or a value that is the same for all of them once the first has seen
it (`Finds`, `Yields`).  Either way the definition comes to what `Value.revise` says.

What is expected of a run may be that it fails (`Comes`), so that failures need no proofs of their
own.
-/

namespace Hocon.Resolution

open Value

variable {s : Setting} {k : Path} {c : Surroundings} {m m' : Memory} {d v w : Value}

/-! ### Runs that come to what is expected -/

/-- An error if nothing is expected, and else a result that is right for what is expected. -/
abbrev Expects {α β : Type} (expected : Option β) (R : β → α → Memory → Prop)
    (out : Except Failure α) (m : Memory) : Prop :=
  match expected with
  | none => ∃ e, out = .error (.error e)
  | some b => ∃ a, out = .ok a ∧ R b a m

/-- The run gives what is expected. -/
def Comes {α β : Type} (x : Step α) (m : Memory) (expected : Option β)
    (R : β → α → Memory → Prop) : Prop :=
  Ensures x m (Expects expected R)

namespace Comes

variable {α β γ δ : Type} {y : Step α} {o : Option β} {R : β → α → Memory → Prop}

theorem pure {b : β} {a : α} (h : R b a m) : Comes (pure a) m (some b) R :=
  Ensures.pure ⟨a, rfl, h⟩

theorem mono {R' : β → α → Memory → Prop} (hx : Comes y m o R)
    (h : ∀ b a m', o = some b → R b a m' → R' b a m') : Comes y m o R' := by
  refine Ensures.mono hx fun out m' hout => ?_
  cases o with
  | none => exact hout
  | some b =>
    obtain ⟨a, ha, hR⟩ := hout
    exact ⟨a, ha, h b a m' rfl hR⟩

theorem bind {f : α → Step γ} {o' : β → Option δ} {R' : δ → γ → Memory → Prop}
    (hx : Comes y m o R) (hf : ∀ b a m', o = some b → R b a m' → Comes (f a) m' (o' b) R') :
    Comes (y >>= f) m (o.bind o') R' := by
  cases o with
  | none =>
    exact Ensures.bind hx (fun a m' h => by obtain ⟨e, he⟩ := h; cases he) fun e m' h => by
      obtain ⟨e', he⟩ := h
      cases he
      exact ⟨e', rfl⟩
  | some b =>
    exact Ensures.bind hx (fun a m' h => by
      obtain ⟨a', ha, hR⟩ := h
      cases ha
      exact hf b a m' rfl hR) fun e m' h => by
        obtain ⟨a, ha, -⟩ := h
        cases ha

/-- The same run, with something made of what is expected. -/
theorem as {h : β → δ} {R' : δ → α → Memory → Prop} (hx : Comes y m o R)
    (hR : ∀ b a m', o = some b → R b a m' → R' (h b) a m') : Comes y m (o.map h) R' := by
  refine Ensures.mono hx fun out m' hout => ?_
  cases o with
  | none => exact hout
  | some b =>
    obtain ⟨a, ha, hb⟩ := hout
    exact ⟨a, ha, hR b a m' rfl hb⟩

/-- The same run, with something related expected. -/
theorem rel {S : δ → β → Prop} {o' : Option δ} {R' : δ → α → Memory → Prop} (hx : Comes y m o R)
    (same : Option.Rel S o' o) (hR : ∀ b' b a m', S b' b → R b a m' → R' b' a m') :
    Comes y m o' R' := by
  refine Ensures.mono hx fun out m' hout => ?_
  cases same with
  | none => exact hout
  | some h =>
    obtain ⟨a, ha, hb⟩ := hout
    exact ⟨a, ha, hR _ _ a m' h hb⟩

/-- The same run, with something made of the result. -/
theorem map {f : α → γ} {R' : β → γ → Memory → Prop} (hx : Comes y m o R)
    (hf : ∀ b a m', R b a m' → R' b (f a) m') : Comes (do return f (← y)) m o R' := by
  have run : Comes (do return f (← y)) m (o.bind some) R' :=
    hx.bind fun b a m' _ hR => .pure (hf b a m' hR)
  rwa [Option.bind_fun_some] at run

end Comes

/-! ### Pieces -/

section Pieces

variable {P : Memory → Prop} {P' : Value → Memory → Prop} {ps : List Value}

/-- A value comes to `w` while `P` stays true. -/
def Yields (s : Setting) (c : Surroundings) (P : Memory → Prop) (v w : Value) : Prop :=
  ∀ m, P m → Comes (resolve s c v none) m (some w) fun u r m' => r = some u ∧ P m'

/-- Values that need nothing come to themselves. -/
def Plainly (s : Setting) (c : Surroundings) (P : Memory → Prop) (ps : List Value) : Prop :=
  ∀ x ∈ ps, x.isPending = false → Yields s c P x x

/-- A reference that sees nothing vanishes if it is optional. -/
def Drops (s : Setting) (c : Surroundings) (P : Memory → Prop) (p : Provenance) (r : Reference) :
    Prop :=
  ∀ m, P m → Comes (resolve s c (.reference p r) none) m (if r.target.optional then some () else none)
    fun _ r m' => r = none ∧ P m'

/-- A reference sees a value, or it fails. -/
def Finds (s : Setting) (c : Surroundings) (P : Memory → Prop) (P' : Value → Memory → Prop)
    (o : Option Value) (v : Value) : Prop :=
  ∀ m, P m → Comes (resolve s c v none) m o fun u r m' =>
    ∃ w, r = some w ∧ StandsFor u w ∧ P' w m' ∧ m'.recall? v none = some w

/-- The first piece, and then the others. -/
theorem comes_items_cons {β δ : Type} {o : Option β} {R : β → Option Value → Memory → Prop}
    {o' : β → Option δ} {R' : δ → List (Option Value) → Memory → Prop}
    (head : Comes (resolve s c v none) m o R)
    (tail : ∀ b r m', o = some b → R b r m' →
      Comes (resolveItems s c ps) m' (o' b) fun qs rs => R' qs (r :: rs)) :
    Comes (resolveItems s c (v :: ps)) m (o.bind o') R' := by
  rw [resolveItems]
  exact head.bind fun b r m' hb h => (tail b r m' hb h).map fun _ _ _ h => h

/-- Pieces whose references see nothing: the optional ones vanish, up to the first that is
mandatory. -/
theorem comes_items_dropping (pieces : ∀ x ∈ ps, IsPiece k x) (plain : Plainly s c P ps)
    (refs : ∀ pre p r post, ps = pre ++ reference p r :: post →
      (∀ q t, reference q t ∈ pre → t.target.optional = true) → Drops s c P p r) (hm : P m) :
    Comes (resolveItems s c ps) m (substitute none ps) fun qs rs m' =>
      rs.filterMap id = qs ∧ P m' := by
  induction ps generalizing m with
  | nil =>
    rw [resolveItems]
    exact .pure ⟨rfl, hm⟩
  | cons x ps ih =>
    obtain ⟨hx, hps⟩ := List.forall_mem_cons.1 pieces
    obtain ⟨plain_x, plain⟩ := List.forall_mem_cons.1 plain
    have ih (passed : ∀ q t, x = reference q t → t.target.optional = true) {m : Memory}
        (hm : P m) := ih hps plain
      (fun pre p r post e optional => refs (x :: pre) p r post (by rw [e]; rfl) fun q t h =>
        (List.mem_cons.1 h).elim (fun h => passed q t h.symm) (optional q t)) hm
    cases waits : x.isPending with
    | false =>
      have eq : (substitute none ps).map (x :: ·) =
          (some x).bind fun y => (substitute none ps).map (y :: ·) := rfl
      rw [substitute_of_isPending waits, eq]
      refine comes_items_cons (plain_x waits m hm) fun y r m' hy h => ?_
      cases hy
      obtain ⟨rfl, hm'⟩ := h
      refine (ih (fun q t e => by subst e; cases waits) hm').as fun qs rs m'' _ h => ⟨?_, h.2⟩
      rw [List.filterMap_cons, id, h.1]
    | true =>
      obtain ⟨p, r, rfl, -⟩ := hx.of_isPending waits
      have head := refs [] p r ps rfl (by rintro _ _ ⟨⟩) m hm
      have eq : substitute none (reference p r :: ps) =
          (if r.target.optional then some () else none).bind fun _ => substitute none ps := by
        rw [substitute]
        split <;> rfl
      rw [eq]
      refine comes_items_cons head fun _ r' m' optional h => ?_
      obtain ⟨rfl, hm'⟩ := h
      refine (ih (fun q t e => ?_) hm').mono fun qs rs m'' _ h => ⟨?_, h.2⟩
      · cases e
        by_contra mandatory
        rw [if_neg mandatory] at optional
        cases optional
      · rw [List.filterMap_cons, id, h.1]

/-- Pieces whose references all see the same value. -/
theorem comes_items_filling (pieces : ∀ x ∈ ps, IsPiece k x) (plain : Plainly s c P ps)
    (refs : ∀ x ∈ ps, x.isPending = true → Yields s c P x w) (hm : P m) :
    Comes (resolveItems s c ps) m (substitute (some w) ps) fun qs rs m' =>
      rs.filterMap id = qs ∧ P m' := by
  induction ps generalizing m with
  | nil =>
    rw [resolveItems]
    exact .pure ⟨rfl, hm⟩
  | cons x ps ih =>
    obtain ⟨hx, hps⟩ := List.forall_mem_cons.1 pieces
    obtain ⟨plain_x, plain⟩ := List.forall_mem_cons.1 plain
    obtain ⟨refs_x, refs⟩ := List.forall_mem_cons.1 refs
    -- the piece comes to `u`, whatever it is
    have step {u : Value} (head : Yields s c P x u) :
        Comes (resolveItems s c (x :: ps)) m ((substitute (some w) ps).map (u :: ·))
          fun qs rs m' => rs.filterMap id = qs ∧ P m' := by
      have eq : (substitute (some w) ps).map (u :: ·) =
          (some u).bind fun y => (substitute (some w) ps).map (y :: ·) := rfl
      rw [eq]
      refine comes_items_cons (head m hm) fun y r m' hy h => ?_
      obtain ⟨rfl, hm'⟩ := h
      exact (ih hps plain refs hm').as fun qs rs m'' _ h =>
        ⟨by rw [List.filterMap_cons, id, h.1], h.2⟩
    cases waits : x.isPending with
    | false =>
      rw [substitute_of_isPending waits]
      exact step (plain_x waits)
    | true =>
      obtain ⟨p, r, rfl, -⟩ := hx.of_isPending waits
      exact step (refs_x waits)

/-- Pieces of which a reference sees a value first, and then all others see the same. -/
theorem comes_items_finding {o : Option Value} (pieces : ∀ x ∈ ps, IsPiece k x)
    (plain : Plainly s c P ps) (plain' : ∀ w, Plainly s c (P' w) ps)
    (refs : ∀ x ∈ ps, x.isPending = true → Finds s c P P' o x)
    (refs' : ∀ x ∈ ps, x.isPending = true → ∀ w, Yields s c (P' w) x w)
    (looks : ∃ x ∈ ps, x.isPending = true) (hm : P m) :
    Comes (resolveItems s c ps) m o fun u rs m' =>
      ∃ w, StandsFor u w ∧ substitute (some w) ps = some (rs.filterMap id) ∧ P' w m' := by
  induction ps generalizing m with
  | nil =>
    obtain ⟨x, hx, -⟩ := looks
    cases hx
  | cons x ps ih =>
    obtain ⟨hx, hps⟩ := List.forall_mem_cons.1 pieces
    obtain ⟨plain_x, plain⟩ := List.forall_mem_cons.1 plain
    have plain'_ps (w : Value) : Plainly s c (P' w) ps := (List.forall_mem_cons.1 (plain' w)).2
    obtain ⟨refs_x, refs⟩ := List.forall_mem_cons.1 refs
    have refs'_ps := (List.forall_mem_cons.1 refs').2
    cases waits : x.isPending with
    | false =>
      have looks : ∃ x ∈ ps, x.isPending = true := by
        obtain ⟨y, hy, waits'⟩ := looks
        rcases List.mem_cons.1 hy with rfl | hy
        · cases waits.symm.trans waits'
        · exact ⟨y, hy, waits'⟩
      have eq : o = (some x).bind fun _ => o := rfl
      rw [eq]
      refine comes_items_cons (plain_x waits m hm) fun y r m' hy h => ?_
      cases hy
      obtain ⟨rfl, hm'⟩ := h
      refine (ih hps plain plain'_ps refs refs'_ps looks hm').mono fun u rs m'' _ h => ?_
      obtain ⟨w, same, hw, hP⟩ := h
      exact ⟨w, same, by rw [substitute_of_isPending waits, hw, List.filterMap_cons]; rfl, hP⟩
    | true =>
      obtain ⟨p, r, rfl, -⟩ := hx.of_isPending waits
      have eq : o = o.bind some := (Option.bind_fun_some o).symm
      rw [eq]
      refine comes_items_cons (refs_x waits m hm) fun u _ m' _ h => ?_
      obtain ⟨w, rfl, same, hm', -⟩ := h
      obtain ⟨qs, hqs⟩ := exists_substitute w ps
      have rest := comes_items_filling hps (plain'_ps w) (fun x hx waits => refs'_ps x hx waits w) hm'
      rw [hqs] at rest
      refine (rest.as fun qs' rs m'' hq h => ?_ : Comes _ _ ((some qs).map fun _ => u) _)
      cases hq
      refine ⟨w, same, ?_, h.2⟩
      rw [substitute, hqs, List.filterMap_cons, id, h.1]
      rfl

end Pieces

/-! ### Definitions -/

section Definitions

variable {P P' : Memory → Prop} {ps : List Value}

/-- Neighbours that are no objects are joined to one, which is a new node, or to none. -/
theorem comes_joinPieces {qs : List Value} (single : ∀ q ∈ qs, q.Single) :
    Comes (joinPieces s v qs) m (joined qs) fun b r m' =>
      b = none ∧ r = none ∧ m' = m
      ∨ ∃ u, b = some u ∧ u.Single ∧ r = some (u.markFrom m.next).1
        ∧ m' = { m with next := (u.markFrom m.next).2 } := by
  unfold joinPieces joined
  by_cases present : qs = []
  · subst present
    exact .pure (.inl ⟨rfl, rfl, rfl⟩)
  · rcases joinRun_cases present single with ⟨u, hj, hu, -⟩ | ⟨e, he, -⟩
    · rw [hj]
      exact ⟨_, rfl, .inr ⟨u, rfl, hu, rfl, rfl⟩⟩
    · rw [he]
      exact ⟨_, rfl⟩

/-- What resolving the definition `d` comes to, if `b` is expected: nothing, or a value that is
kept. -/
def Makes (P P' : Memory → Prop) (d : Value) (b r : Option Value) (m' : Memory) : Prop :=
  b = none ∧ r = none ∧ P m'
  ∨ ∃ v w, b = some v ∧ r = some w ∧ StandsFor v w ∧ P' m' ∧ m'.recall? d none = some w

/-- A concatenation is what its pieces are joined to. -/
theorem comes_concat {β : Type} {o : Option β} {o' : β → Option (Option Value)} {p : Provenance}
    {n : Nat} (mark : p.mark = some n) (free : m.find? n none = none)
    (renewed : ∀ m next, P m → m.next ≤ next → P { m with next })
    (kept : ∀ m w, P m → P' (m.remember (concat p ps) none w))
    (items : Comes (resolveItems s c ps) m o fun b rs m' =>
      (∀ q ∈ rs.filterMap id, q.Single)
        ∧ Option.Rel SameHeld (o' b) (joined (rs.filterMap id)) ∧ P m') :
    Comes (resolve s c (concat p ps) none) m (o.bind o') (Makes P P' (concat p ps)) := by
  refine ensures_resolve ?_ rfl ?_
  · rw [Memory.recall?_none]
    simp only [Value.mark, prov, mark, Option.bind_some, free]
  -- before the result is kept
  have joined : Comes (resolveNode s c (concat p ps) none) m (o.bind o') fun b r m' =>
      b = none ∧ r = none ∧ P m' ∨ ∃ v w, b = some v ∧ r = some w ∧ StandsFor v w ∧ P m' := by
    rw [resolveNode]
    refine items.bind fun b rs m' _ h => ?_
    obtain ⟨single, same, hm'⟩ := h
    refine (comes_joinPieces single).rel same fun b' b r m'' same h => ?_
    rcases h with ⟨rfl, rfl, rfl⟩ | ⟨u, rfl, hu, rfl, rfl⟩
    · cases same
      exact .inl ⟨rfl, rfl, hm'⟩
    · cases same with
      | some same =>
        exact .inr ⟨_, _, rfl, rfl, same.trans (.of_alike hu (alike_markFrom _ _)),
          renewed _ _ hm' (le_markFrom _ _)⟩
  refine Ensures.mono joined fun out m' h => ?_
  cases ho : o.bind o' with
  | none =>
    rw [ho] at h
    obtain ⟨e, rfl⟩ := h
    exact ⟨e, rfl⟩
  | some b =>
    rw [ho] at h
    obtain ⟨r, rfl, ⟨rfl, rfl, hm'⟩ | ⟨v, w, rfl, rfl, same, hm'⟩⟩ := h
    · exact ⟨none, rfl, .inl ⟨rfl, rfl, hm'⟩⟩
    · exact .resolved same.right.resolved
        ⟨_, rfl, .inr ⟨v, w, rfl, rfl, same, kept _ _ hm', Memory.recall?_remember mark⟩⟩

/-- A definition whose references see nothing. -/
theorem comes_definition_dropping {n : Nat} (looks : LooksBack k d) (wf : d.WellFormed .spelled)
    (mark : d.mark = some n) (free : m.find? n none = none) (plain : Plainly s c P d.pieces)
    (refs : ∀ pre p r post, d.pieces = pre ++ reference p r :: post →
      (∀ q t, reference q t ∈ pre → t.target.optional = true) → Drops s c P p r)
    (renewed : ∀ m next, P m → m.next ≤ next → P { m with next })
    (kept : ∀ m w, P m → P' (m.remember d none w)) (hm : P m) :
    Comes (resolve s c d none) m (revise none d) (Makes P P' d) := by
  rcases looks.reference_or_concat with ⟨p, r, rfl, -⟩ | ⟨p, ps, rfl⟩
  · have eq : revise none (reference p r) =
        (if r.target.optional then some () else none).map fun _ => none := by
      simp only [revise, pieces, substitute]
      split <;> rfl
    rw [eq]
    exact (refs [] p r [] rfl (by rintro _ _ ⟨⟩) m hm).as fun _ r m' _ h => .inl ⟨rfl, h.1, h.2⟩
  · refine comes_concat mark free renewed kept
      ((comes_items_dropping looks.pieces plain refs hm).mono fun qs rs m' hq h => ?_)
    obtain ⟨rfl, hm'⟩ := h
    have single := looks.substitute_single (e := none) (by rintro _ ⟨⟩) wf hq
    refine ⟨single, joined_congr (List.forall₂_same.2 fun q hq => ?_), hm'⟩
    exact ⟨single q hq, single q hq, fun _ => rfl⟩

/-- A definition of which the first reference sees a value, if it does not fail, and then all others
see the same. -/
theorem comes_definition_finding {n : Nat} {o : Option Value} {P' : Value → Memory → Prop}
    (looks : LooksBack k d) (wf : d.WellFormed .spelled) (mark : d.mark = some n)
    (free : m.find? n none = none) (plain : Plainly s c P d.pieces)
    (plain' : ∀ w, Plainly s c (P' w) d.pieces)
    (refs : ∀ x ∈ d.pieces, x.isPending = true → Finds s c P P' o x)
    (refs' : ∀ x ∈ d.pieces, x.isPending = true → ∀ w, Yields s c (P' w) x w)
    (renewed : ∀ w m next, P' w m → m.next ≤ next → P' w { m with next })
    (kept : d ∉ d.pieces → ∀ w m u, P' w m → P' w (m.remember d none u)) (hm : P m) :
    Comes (resolve s c d none) m (o.bind fun u => revise (some u) d)
      (Makes (fun m => ∃ w, P' w m) (fun m => ∃ w, P' w m) d) := by
  rcases looks.reference_or_concat with ⟨p, r, rfl, -⟩ | ⟨p, ps, rfl⟩
  · have eq : (o.bind fun u => revise (some u) (reference p r)) = o.map some := by
      cases o <;> rfl
    rw [eq]
    refine (refs _ (List.mem_singleton.2 rfl) rfl m hm).as fun u r' m' _ h => ?_
    obtain ⟨w, rfl, same, hw, recalled⟩ := h
    exact .inr ⟨u, w, rfl, rfl, same, ⟨w, hw⟩, recalled⟩
  · refine comes_concat mark free (fun m next h le => ?_) (fun m u h => ?_)
      ((comes_items_finding looks.pieces plain plain' refs refs' looks.looks hm).mono
        fun u rs m' _ h => ?_)
    · obtain ⟨w, hw⟩ := h
      exact ⟨w, renewed w m next hw le⟩
    · obtain ⟨w, hw⟩ := h
      -- a concatenation is no piece of itself
      exact ⟨w, kept (fun hd => by cases (looks.pieces _ hd).1) w m u hw⟩
    · obtain ⟨w, same, substituted, hw⟩ := h
      refine ⟨looks.substitute_single (fun _ h => Option.some.inj h ▸ same.right) wf substituted, ?_, w, hw⟩
      have revised : revise (some w) (concat p ps) = joined (rs.filterMap id) := by
        rw [revise, substituted, Option.bind_some]
      exact revised ▸ revise_congr (.some same) (.refl _) looks.pieces wf

end Definitions

end Hocon.Resolution
