import Hocon.Proofs.Merging
import Hocon.Resolution

/-!
# Resolved as far as needed

A lookup resolves only what lies along its path.  `Value.Settled along v` says that `v` is
resolved as far as that: all of it, or what the path leads through.  Such a value is then looked
through, and nothing that waits can come into the way (`Settled.exists_peekThrough`), though the
last key of the path may hold something that is not resolved at all.
-/

namespace Hocon

open Resolution

/-- A step down a path: `alongField` has nothing to say below the last key. -/
theorem Resolution.alongField_some {path : Path} {key : String} {a : Option Path}
    (h : alongField (some path) key = some a) :
    key = path.first ∧ a = path.remainder? ∧ a.isSome = true := by
  simp only [alongField] at h
  split at h
  · next e =>
    cases hr : path.remainder? with
    | none => simp [hr] at h
    | some rest =>
      simp only [hr, Option.map_some, Option.some.injEq] at h
      exact ⟨e, h.symm, by simp [← h]⟩
  · cases h

namespace Value

/-- The value is resolved: all of it, or as far as a path leads through it. -/
inductive Settled : Option Path → Value → Prop
  | resolved {along : Option Path} {v : Value} (h : v.isResolved = true) : Settled along v
  | object {along : Option Path} {p : Provenance} {c : Bool} {fs : Entries Value}
      (fields : ∀ k v a, (k, v) ∈ fs → alongField along k = some a → Settled a v) :
      Settled along (object p c fs)
  | list {path : Path} {p : Provenance} {xs : List Value} : Settled (some path) (list p xs)
  | merge {path : Path} {p : Provenance} {k : MergeKind} {ls : List Value}
      (waiting : ∀ l ∈ ls, l.isPending = false) (layers : ∀ l ∈ ls, Settled (some path) l) :
      Settled (some path) (merge p k ls)

namespace Settled

variable {along : Option Path} {path : Path} {v w : Value}

/-- Without a path, all of the value is resolved. -/
theorem isResolved (h : Settled none v) : v.isResolved = true := by
  generalize ha : (none : Option Path) = along at h
  induction h with
  | resolved h => exact h
  | object fields ih =>
    subst ha
    exact fieldsResolved_iff.2 fun f hf => ih f.1 f.2 none hf rfl rfl
  | list => cases ha
  | merge => cases ha

theorem field {p : Provenance} {c : Bool} {fs : Entries Value}
    (h : Settled along (.object p c fs)) {k : String} {u : Value} (hu : (k, u) ∈ fs)
    {a : Option Path} (ha : alongField along k = some a) : Settled a u := by
  cases h with
  | resolved h => exact .resolved (fieldsResolved_iff.1 h _ hu)
  | object fields => exact fields k u a hu ha

/-- A settled value stands for settled layers of which none waits. -/
theorem layers (h : Settled (some path) v) :
    ∀ l ∈ v.layers, l.isPending = false ∧ Settled (some path) l := by
  cases h with
  | resolved h =>
    intro l hl
    rw [show v.layers = [v] by cases v <;> first | rfl | cases h] at hl
    rw [List.mem_singleton.1 hl]
    exact ⟨isPending_of_isResolved h, .resolved h⟩
  | object fields =>
    intro l hl
    rw [List.mem_singleton.1 hl]
    exact ⟨rfl, .object fields⟩
  | list =>
    intro l hl
    rw [List.mem_singleton.1 hl]
    exact ⟨rfl, .list⟩
  | merge waiting layers => exact fun l hl => ⟨waiting l hl, layers l hl⟩

/-- Neither marks nor the order of fields matter. -/
theorem alike {manner : Manner} (wf : v.WellFormed manner) (h : Settled along v)
    (hw : v.Alike w) : Settled along w := by
  induction hw generalizing along with
  | object _ c keys _ ih =>
    have fields := Alike.forall_fields wf.nodup keys
      (P := fun k u => ∀ a, alongField along k = some a → Settled a u)
      (fun k x y hx hy hp a ha => ih k x y hx hy (wf.field hx) (hp a ha))
      fun k u hu a ha => h.field hu ha
    exact .object fun k u a hu ha => fields k u hu a ha
  | list _ length _ ih =>
    cases along with
    | some path => exact .list
    | none =>
      have items := isResolved_iff.1 h.isResolved
      refine .resolved (isResolved_iff.2 ⟨rfl, Alike.forall_mem length (fun i x y hx hy hr => ?_)
        items.2⟩)
      exact (ih i x y hx hy (wf.parts x (List.mem_of_getElem? hx)) (.resolved hr)).isResolved
  | merge _ k length layers ih =>
    cases h with
    | resolved h => cases h
    | merge waiting settled =>
      refine .merge (Alike.forall_mem length (fun i x y hx hy hp => ?_) waiting)
        (Alike.forall_mem length (fun i x y hx hy hs => ?_) settled)
      · rw [(layers i x y hx hy).isPending_eq, hp]
      · exact ih i x y hx hy (wf.parts x (List.mem_of_getElem? hx)) hs
  | concat | reference =>
    cases h with
    | resolved h => cases h
  | _ => exact .resolved rfl

/-- Merging settled values gives a settled value. -/
theorem withFallback {manner : Manner} (hv : Settled along v) (wv : v.WellFormed manner)
    (ww : w.WellFormed manner) (hw : Settled along w) : Settled along (v.withFallback w) := by
  refine withFallback_cases
    (motive := fun v w u => ∀ along, Settled along v → Settled along w → Settled along u)
    ?self ?fields ?closing ?waiting wv ww along hv hw
  case self => exact fun v w _ _ hv _ => hv
  case fields =>
    intro p q p' c own other fs _ _ _ _ nodup get merged along hv hw
    refine .object fun k u a hu ha => ?_
    rcases Entries.overlay_cases ((get k).symm.trans (Entries.get?_of_mem nodup hu))
      with hx | hy | ⟨x, y, hx, hy, rfl⟩
    · exact hv.field (Entries.mem_of_get? hx) ha
    · exact hw.field (Entries.mem_of_get? hy) ha
    · exact merged k x y hx hy a (hv.field (Entries.mem_of_get? hx) ha)
        (hw.field (Entries.mem_of_get? hy) ha)
  case closing => exact fun p own w _ _ h along _ _ => .resolved h
  case waiting =>
    intro v w _ _ waits along hv hw
    cases along with
    | none =>
      -- what is resolved is never stacked
      rcases waits with h | h
      · rw [isPending_of_isResolved hw.isResolved] at h
        cases h
      · rw [hv.isResolved] at h
        cases h
    | some path =>
      have both (l : Value) (hl : l ∈ v.layers ++ w.layers) :
          l.isPending = false ∧ Settled (some path) l :=
        (List.mem_append.1 hl).elim (hv.layers l) (hw.layers l)
      exact .merge (fun l hl => (both l hl).1) fun l hl => (both l hl).2

/-- Joining resolved values gives a resolved value. -/
theorem joinClosed {manner : Manner} :
    JoinClosed fun v => v.WellFormed manner ∧ Settled none v where
  merged v w hv hw := ⟨hw.1.withFallback hv.1, hw.2.withFallback hw.1 hv.1 hv.2⟩
  appended p q xs ys hx hy := by
    refine ⟨.list (hx.1.lines.merge hy.1.lines) fun x hx' => ?_,
      .resolved (isResolved_iff.2 ⟨rfl, fun x hx' => ?_⟩)⟩
    · exact (List.mem_append.1 hx').elim (hx.1.parts x) (hy.1.parts x)
    · exact (List.mem_append.1 hx').elim ((isResolved_iff.1 hx.2.isResolved).2 x)
        ((isResolved_iff.1 hy.2.isResolved).2 x)
  text v w t hv hw := ⟨.string (hv.1.lines.merge hw.1.lines) t true, .resolved rfl⟩
  split p ps h := by
    have := h.2.isResolved
    cases this

/-! ### Looking through -/

/-- A stack of settled layers shows what it has at a key, if a layer that is no object is among
them: below that nothing shows. -/
theorem exists_peekLayers {P : Value → Prop} (parts : ∀ v, P v → ∀ u ∈ v.parts, P u)
    (path : Path) (whole : Origin) {ls : List Value} (waits : ∃ l ∈ ls, l.fields? = none)
    (settled : ∀ l ∈ ls, l.isPending = false ∧ Settled (some path) l) (h : ∀ l ∈ ls, P l) :
    ∃ r, peekLayers path whole ls = .ok r
      ∧ ∀ u, r = some u → P u ∧ ∀ rest, path.remainder? = some rest → Settled (some rest) u := by
  induction ls with
  | nil =>
    obtain ⟨l, hl, -⟩ := waits
    cases hl
  | cons l ls ih =>
    have pending := settled l List.mem_cons_self
    rw [peekLayers]
    cases hf : l.fields? with
    | none =>
      simp only [pending.1, Bool.false_eq_true, if_false]
      -- a layer that is no object hides what is below
      exact ⟨none, rfl, nofun⟩
    | some fs =>
      obtain ⟨p, c, rfl⟩ := eq_object_of_fields? hf
      have below := ih
        (by
          obtain ⟨x, hx, hn⟩ := waits
          rcases List.mem_cons.1 hx with rfl | hx
          · cases hn
          · exact ⟨x, hx, hn⟩)
        (fun x hx => settled x (List.mem_cons_of_mem _ hx))
        (fun x hx => h x (List.mem_cons_of_mem _ hx))
      cases hg : Entries.get? fs path.first with
      | none =>
        simp only [hg]
        -- the layer has nothing to say about the key
        exact below
      | some u =>
        simp only [hg]
        split
        · refine ⟨some u, rfl, fun u' e => ?_⟩
          cases e
          have mem := Entries.mem_of_get? hg
          refine ⟨parts _ (h _ List.mem_cons_self) u (mem_parts_of_mem_fields mem),
            fun rest hr => pending.2.field mem ?_⟩
          simp [alongField, hr]
        · exact below

theorem exists_peekFirst {manner : Manner} {P : Value → Prop}
    (parts : ∀ v, P v → ∀ u ∈ v.parts, P u) (wf : v.WellFormed manner)
    (settled : Settled (some path) v) (h : P v) :
    ∃ r, v.peekFirst path = .ok r
      ∧ ∀ u, r = some u → P u ∧ ∀ rest, path.remainder? = some rest → Settled (some rest) u := by
  cases v with
  | object p c fs =>
    refine ⟨Entries.get? fs path.first, rfl, fun u hu => ?_⟩
    have mem := Entries.mem_of_get? hu
    refine ⟨parts _ h u (mem_parts_of_mem_fields mem), fun rest hr => settled.field mem ?_⟩
    simp [alongField, hr]
  | merge p k ls =>
    cases k with
    | value => exact ⟨none, rfl, nofun⟩
    | object =>
      exact exists_peekLayers parts path p.origin (wf.exists_layer rfl) settled.layers (parts _ h)
  | _ => exact ⟨none, rfl, nofun⟩

/-- **Nothing that waits comes into the way** of looking through a settled value, and what is
found has whatever all parts of it have. -/
theorem exists_peekThrough {manner : Manner} {P : Value → Prop}
    (parts : ∀ v, P v → ∀ u ∈ v.parts, P u) (wf : ∀ v, P v → v.WellFormed manner)
    (settled : Settled (some path) v) (h : P v) :
    ∃ r, v.peekThrough path.first path.rest = .ok r ∧ ∀ u, r = some u → P u := by
  obtain ⟨first, rest⟩ := path
  induction rest generalizing first v with
  | nil =>
    obtain ⟨r, hr, found⟩ := exists_peekFirst parts (wf v h) settled h
    exact ⟨r, hr, fun u hu => (found u hu).1⟩
  | cons next rest ih =>
    obtain ⟨r, hr, found⟩ := exists_peekFirst parts (wf v h) settled h
    simp only [peekThrough, hr, bind, Except.bind]
    cases r with
    | none => exact ⟨none, rfl, nofun⟩
    | some u =>
      simp only []
      split
      · exact ih (found u rfl).1 next ((found u rfl).2 _ rfl)
      · exact ⟨none, rfl, nofun⟩

end Settled

end Value

end Hocon
