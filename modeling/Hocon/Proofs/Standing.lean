import Mathlib.Algebra.Order.BigOperators.Group.List
import Mathlib.Algebra.Order.Group.Nat
import Hocon.Proofs.Merging

/-!
# Where references stand

What a lookup needs to know depends on which references it comes upon, and that depends on where
they stand.  A reference stands at a place, once for each path that it is looked up at: the keys
that lead to it, with a step of its own into a list.  Pieces of a concatenation stand all at its
place, since joining needs all of each, and so do the layers of a merge.

A tree is `Value.Acyclic` if its references can be ranked so that each has a higher rank than
those that stand on the way to its target or below it.  Then no lookup comes back to itself.
-/

namespace Hocon

/-- A place in a tree: the keys that lead there; `none` leads into a list. -/
abbrev Place := List (Option String)

/-- Whether what is at `path` depends on what stands at `place`: it is on the way or below. -/
def Touches (place : Place) (path : List String) : Prop :=
  place <+: path.map some ∨ path.map some <+: place

instance (place : Place) (path : List String) : Decidable (Touches place path) :=
  inferInstanceAs (Decidable (_ ∨ _))

/-- A reference to `target` that stands at `place`. -/
structure Standing where
  place : Place
  target : List String
  deriving DecidableEq

/-- The reference seen from one step further up. -/
def Standing.below (step : Option String) (s : Standing) : Standing :=
  ⟨step :: s.place, s.target⟩

/-- Places on the way to one place touch every path to it. -/
theorem Touches.of_leads {place tail : Place} {path : List String}
    (h : place <+: path.map some ++ tail) : Touches place path :=
  List.prefix_or_prefix_of_prefix h (List.prefix_append _ _)

/-- The place of the whole touches every path. -/
theorem touches_nil (path : List String) : Touches [] path := .inl (List.nil_prefix)

/-- A path without keys is touched by every place. -/
theorem touches_of_nil (place : Place) : Touches place [] := .inr (List.nil_prefix)

theorem touches_cons {key : String} {place : Place} {path : List String}
    (h : Touches place path) : Touches (some key :: place) (key :: path) :=
  h.imp (List.cons_prefix_cons.2 ⟨rfl, ·⟩) (List.cons_prefix_cons.2 ⟨rfl, ·⟩)

namespace Value

mutual

/-- The references of a tree with their places. -/
def standings : Value → List Standing
  | reference _ r => r.paths.map fun path => ⟨[], path.keys⟩
  | object _ _ fs => standingsOfFields fs
  | list _ xs => (standingsOfItems xs).map (Standing.below none)
  | concat _ ps => (standingsOfItems ps).map fun s => ⟨[], s.target⟩
  | merge _ _ ls => standingsOfItems ls
  | _ => []

def standingsOfFields : Entries Value → List Standing
  | [] => []
  | (k, v) :: fs => v.standings.map (Standing.below (some k)) ++ standingsOfFields fs

def standingsOfItems : List Value → List Standing
  | [] => []
  | v :: vs => v.standings ++ standingsOfItems vs

end

variable {p : Provenance} {s : Standing} {v w : Value}

/-! ### The references of each kind of node -/

theorem mem_standings_reference {r : Reference} :
    s ∈ (reference p r).standings ↔ ∃ path ∈ r.paths, s = ⟨[], path.keys⟩ := by
  rw [standings, List.mem_map]
  exact exists_congr fun path => and_congr_right fun _ => eq_comm

theorem mem_standingsOfItems {xs : List Value} :
    s ∈ standingsOfItems xs ↔ ∃ x ∈ xs, s ∈ x.standings := by
  induction xs with
  | nil => simp [standingsOfItems]
  | cons x xs ih => simp [standingsOfItems, ih]

theorem mem_standings_object {c : Bool} {fs : Entries Value} :
    s ∈ (object p c fs).standings
      ↔ ∃ k v, (k, v) ∈ fs ∧ ∃ t ∈ v.standings, s = t.below (some k) := by
  show s ∈ standingsOfFields fs ↔ _
  induction fs with
  | nil => simp [standingsOfFields]
  | cons f fs ih =>
    obtain ⟨key, u⟩ := f
    rw [standingsOfFields, List.mem_append, ih, List.mem_map]
    constructor
    · rintro (⟨t, ht, rfl⟩ | ⟨k, v, hv, h⟩)
      · exact ⟨key, u, List.mem_cons_self, t, ht, rfl⟩
      · exact ⟨k, v, List.mem_cons_of_mem _ hv, h⟩
    · rintro ⟨k, v, hv, t, ht, rfl⟩
      rcases List.mem_cons.1 hv with e | hv
      · cases e
        exact .inl ⟨t, ht, rfl⟩
      · exact .inr ⟨k, v, hv, t, ht, rfl⟩

theorem mem_standings_list {xs : List Value} :
    s ∈ (list p xs).standings ↔ ∃ x ∈ xs, ∃ t ∈ x.standings, s = t.below none := by
  show s ∈ (standingsOfItems xs).map _ ↔ _
  simp only [List.mem_map, mem_standingsOfItems]
  constructor
  · rintro ⟨t, ⟨x, hx, ht⟩, rfl⟩
    exact ⟨x, hx, t, ht, rfl⟩
  · rintro ⟨x, hx, t, ht, rfl⟩
    exact ⟨t, ⟨x, hx, ht⟩, rfl⟩

theorem mem_standings_concat {ps : List Value} :
    s ∈ (concat p ps).standings ↔ ∃ x ∈ ps, ∃ t ∈ x.standings, s = ⟨[], t.target⟩ := by
  show s ∈ (standingsOfItems ps).map _ ↔ _
  simp only [List.mem_map, mem_standingsOfItems]
  constructor
  · rintro ⟨t, ⟨x, hx, ht⟩, rfl⟩
    exact ⟨x, hx, t, ht, rfl⟩
  · rintro ⟨x, hx, t, ht, rfl⟩
    exact ⟨t, ⟨x, hx, ht⟩, rfl⟩

theorem mem_standings_merge {k : MergeKind} {ls : List Value} :
    s ∈ (merge p k ls).standings ↔ ∃ l ∈ ls, s ∈ l.standings :=
  mem_standingsOfItems

/-- A value and the layers that it stands for have the same references. -/
theorem mem_standings_layers : s ∈ v.standings ↔ ∃ l ∈ v.layers, s ∈ l.standings := by
  cases v with
  | merge p k ls => exact mem_standings_merge
  | _ => simp [layers]

/-- Only references stand anywhere. -/
theorem standings_of_isResolved (h : v.isResolved = true) : v.standings = [] := by
  refine List.eq_nil_iff_forall_not_mem.2 fun s hs => ?_
  induction v using parts_induction generalizing s with
  | node v ih =>
    obtain ⟨pending, parts⟩ := isResolved_iff.1 h
    cases v with
    | object p c fs =>
      obtain ⟨k, u, hu, t, ht, rfl⟩ := mem_standings_object.1 hs
      have hu := mem_parts_of_mem_fields (p := p) (c := c) hu
      exact ih u hu (parts u hu) t ht
    | list p xs =>
      obtain ⟨x, hx, t, ht, rfl⟩ := mem_standings_list.1 hs
      exact ih x hx (parts x hx) t ht
    | reference | concat | merge => cases pending
    | _ => cases hs

/-- Marks and the order of fields do not move references. -/
theorem Alike.mem_standings {manner : Manner} (wf : v.WellFormed manner) (h : v.Alike w)
    (hs : s ∈ w.standings) : s ∈ v.standings := by
  induction h generalizing s with
  | object _ c keys _ ih =>
    obtain ⟨k, y, hy, t, ht, rfl⟩ := mem_standings_object.1 hs
    have hy := Entries.get?_of_mem (keys.nodup_iff.1 wf.nodup) hy
    obtain ⟨x, hx⟩ := Entries.exists_get?_of_mem_keys
      (keys.mem_iff.2 (Entries.mem_keys_of_get? hy))
    exact mem_standings_object.2
      ⟨k, x, Entries.mem_of_get? hx, t, ih k x y hx hy (wf.field hx) ht, rfl⟩
  | list _ length _ ih =>
    obtain ⟨y, hy, t, ht, rfl⟩ := mem_standings_list.1 hs
    obtain ⟨i, x, hx, hy⟩ := exists_place length hy
    have mem := List.mem_of_getElem? hx
    exact mem_standings_list.2 ⟨x, mem, t, ih i x y hx hy (wf.parts x mem) ht, rfl⟩
  | concat _ length _ ih =>
    obtain ⟨y, hy, t, ht, rfl⟩ := mem_standings_concat.1 hs
    obtain ⟨i, x, hx, hy⟩ := exists_place length hy
    have mem := List.mem_of_getElem? hx
    exact mem_standings_concat.2 ⟨x, mem, t, ih i x y hx hy (wf.parts x mem) ht, rfl⟩
  | merge _ k length _ ih =>
    obtain ⟨y, hy, ht⟩ := mem_standings_merge.1 hs
    obtain ⟨i, x, hx, hy⟩ := exists_place length hy
    have mem := List.mem_of_getElem? hx
    exact mem_standings_merge.2 ⟨x, mem, ih i x y hx hy (wf.parts x mem) ht⟩
  | _ => exact hs

/-- Merging makes no references and moves none. -/
theorem mem_standings_withFallback {manner : Manner} (hv : v.WellFormed manner)
    (hw : w.WellFormed manner) (hs : s ∈ (v.withFallback w).standings) :
    s ∈ v.standings ∨ s ∈ w.standings := by
  refine withFallback_cases (motive := fun v w u => ∀ s ∈ u.standings,
    s ∈ v.standings ∨ s ∈ w.standings) ?self ?fields ?closing ?waiting hv hw s hs
  case self => exact fun v w _ s => .inl
  case fields =>
    intro p q p' c own other fs _ _ _ _ nodup get merged s hs
    obtain ⟨k, u, hu, t, ht, rfl⟩ := mem_standings_object.1 hs
    have below {fs : Entries Value} {p : Provenance} {c : Bool} {x : Value}
        (hx : Entries.get? fs k = some x) (ht : t ∈ x.standings) :
        t.below (some k) ∈ (object p c fs).standings :=
      mem_standings_object.2 ⟨k, x, Entries.mem_of_get? hx, t, ht, rfl⟩
    rcases Entries.overlay_cases ((get k).symm.trans (Entries.get?_of_mem nodup hu))
      with ha | hb | ⟨a, b, ha, hb, rfl⟩
    · exact .inl (below ha ht)
    · exact .inr (below hb ht)
    · exact (merged k a b ha hb t ht).imp (below ha) (below hb)
  case closing => exact fun p own w _ _ _ s => .inl
  case waiting =>
    intro v w _ _ _ s hs
    obtain ⟨l, hl, hs⟩ := mem_standings_merge.1 hs
    exact (List.mem_append.1 hl).imp (fun hl => mem_standings_layers.2 ⟨l, hl, hs⟩)
      fun hl => mem_standings_layers.2 ⟨l, hl, hs⟩

/-- What stands in a part found at a path stands in the whole, below that path. -/
theorem mem_standings_of_peek? {keys : List String} {u : Value} (hu : v.peek? keys = some u)
    (hs : s ∈ u.standings) : ⟨keys.map some ++ s.place, s.target⟩ ∈ v.standings := by
  induction keys generalizing v with
  | nil =>
    cases hu
    exact hs
  | cons key keys ih =>
    obtain ⟨p, c, fs, x, rfl, hx, below⟩ := exists_field_of_peek? hu
    exact mem_standings_object.2 ⟨key, x, Entries.mem_of_get? hx, _, ih below, rfl⟩

/-! ### Ranks -/

/-- No reference depends on itself: they can be ranked so that each has a higher rank than those
that what it points at depends on. -/
def Acyclic (v : Value) : Prop :=
  ∃ rank : List String → Nat, ∀ s ∈ v.standings, ∀ t ∈ v.standings,
    Touches t.place s.target → rank t.target < rank s.target

/-- Every path has a higher rank than the references that it depends on. -/
def Ranked (rank : List String → Nat) (v : Value) : Prop :=
  ∀ path, ∀ s ∈ v.standings, Touches s.place path → rank s.target < rank path

/-- There is a rank above all references of a tree. -/
theorem exists_bound (rank : List String → Nat) (v : Value) :
    ∃ b, ∀ s ∈ v.standings, rank s.target < b :=
  ⟨(v.standings.map fun s => rank s.target).sum + 1, fun s hs => Nat.lt_succ_of_le
    (List.single_le_sum (fun _ _ => Nat.zero_le _) _ (List.mem_map.2 ⟨s, hs, rfl⟩))⟩

/-- Paths that no reference points at may be ranked above all others. -/
theorem Acyclic.exists_ranked (h : v.Acyclic) : ∃ rank, v.Ranked rank := by
  obtain ⟨rank, h⟩ := h
  obtain ⟨b, bounded⟩ := exists_bound rank v
  refine ⟨fun path => if ∃ s ∈ v.standings, s.target = path then rank path else b,
    fun path s hs touches => ?_⟩
  simp only []
  rw [if_pos ⟨s, hs, rfl⟩]
  split
  · next target =>
    obtain ⟨t, ht, rfl⟩ := target
    exact h t ht s hs touches
  · exact bounded s hs

end Value

end Hocon
