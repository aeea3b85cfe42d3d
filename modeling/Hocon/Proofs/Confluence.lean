import Hocon.Proofs.Agreement

/-!
# The order of lookups does not show

A resolution goes its own way: it looks up paths in trees that are resolved in part, remembers
what it found, and shows less of a merge whose layer it is in.  In a tame tree nothing of that
shows.  Whatever is resolved, and how far, holds what its references mean, and a failure has a
node that cannot be resolved.

That is a contract (`Resolution.agreement`).  What may be resolved next is always of a lower rank
than all that is being looked up (`Resolution.Below`), so no cycle is met and no merge is come
back to.
-/

namespace Hocon

namespace Resolution

open Value

variable {known : List String → Content} {rank : List String → Nat} {root u v w x : Value}
  {manner : Manner}

/-! ### What may be resolved -/

/-- What is resolved along a path depends on what stands at the place. -/
def TouchesAlong (place : Place) (along : Option Path) : Prop :=
  ∀ path, along = some path → Touches place path.keys

theorem touchesAlong_none (place : Place) : TouchesAlong place none := nofun

theorem touchesAlong_nil (along : Option Path) : TouchesAlong [] along :=
  fun path _ => touches_nil path.keys

/-- A step into a field goes along with the path. -/
theorem touchesAlong_below {place : Place} {key : String} {along a : Option Path}
    (ha : alongField along key = some a) (h : TouchesAlong place a) :
    TouchesAlong (some key :: place) along := by
  rintro ⟨first, rest⟩ rfl
  obtain ⟨rfl, rfl, some⟩ := alongField_some ha
  cases rest with
  | nil => cases some
  | cons next rest => exact touches_cons (h ⟨next, rest⟩ rfl)

/-- `v` is smaller than `w`, and its references stand in `w` somewhere. -/
def Inside (v w : Value) : Prop :=
  sizeOf v < sizeOf w ∧ ∀ s ∈ v.standings, ⟨[], s.target⟩ ∈ w.standings

/-- Resolving `v` along the path needs references of ranks below `b` alone.  All such references
are available, and `v` is none of the merges that are open: it lies in them or is ranked below
them. -/
structure Below (known : List String → Content) (rank : List String → Nat) (g : Table)
    (c : Surroundings) (v : Value) (along : Option Path) (b : Nat) : Prop where
  low : ∀ s ∈ v.standings, TouchesAlong s.place along → rank s.target < b
  available : ∀ n p r, g n = some (.reference p r) → (∀ path ∈ r.paths, rank path.keys < b) →
    n ∈ c.available
  merges : ∀ o ∈ c.merges, ∃ w, g o.node = some w
    ∧ (Inside v w ∨ ∃ s ∈ w.standings, s.place = [] ∧ b ≤ rank s.target)
  calm : v.Calm known

namespace Below

variable {g : Table} {c : Surroundings} {along : Option Path} {b : Nat}

/-- A part is resolved below the same rank. -/
theorem part {a : Option Path} (h : Below known rank g c v along b) (hu : u ∈ v.parts)
    (stands : ∀ s ∈ u.standings, ∃ t ∈ v.standings, t.target = s.target
      ∧ (TouchesAlong s.place a → TouchesAlong t.place along)) :
    Below known rank g c u a b where
  low s hs touches := by
    obtain ⟨t, ht, same, touches'⟩ := stands s hs
    exact same ▸ h.low t ht (touches' touches)
  available := h.available
  merges o ho := by
    obtain ⟨w, hw, inside | rest⟩ := h.merges o ho
    · refine ⟨w, hw, .inl ⟨Nat.lt_trans (sizeOf_lt_of_mem_parts hu) inside.1, fun s hs => ?_⟩⟩
      obtain ⟨t, ht, same, -⟩ := stands s hs
      exact same ▸ inside.2 t ht
    · exact ⟨w, hw, .inr rest⟩
  calm := h.calm.parts u hu

theorem field {p : Provenance} {closed : Bool} {fs : Entries Value} {k : String}
    {a : Option Path} (h : Below known rank g c (.object p closed fs) along b) (hv : (k, v) ∈ fs)
    (ha : alongField along k = some a) : Below known rank g c v a b :=
  h.part (mem_parts_of_mem_fields hv) fun s hs => ⟨s.below (some k),
    mem_standings_object.2 ⟨k, v, hv, s, hs, rfl⟩, rfl, touchesAlong_below ha⟩

theorem item {p : Provenance} {xs : List Value} (h : Below known rank g c (.list p xs) none b)
    (hx : x ∈ xs) : Below known rank g c x none b :=
  h.part (v := .list p xs) hx fun s hs => ⟨s.below none,
    mem_standings_list.2 ⟨x, hx, s, hs, rfl⟩, rfl, fun _ => touchesAlong_none _⟩

theorem piece {p : Provenance} {ps : List Value} (h : Below known rank g c (.concat p ps) along b)
    (hx : x ∈ ps) : Below known rank g c x none b :=
  h.part (v := .concat p ps) hx fun s hs => ⟨⟨[], s.target⟩,
    mem_standings_concat.2 ⟨x, hx, s, hs, rfl⟩, rfl, fun _ => touchesAlong_nil _⟩

/-- A layer lies in the merge that is opened for it. -/
theorem layer {p : Provenance} {k : MergeKind} {ls : List Value} {l : Value} {i base : Nat}
    (h : Below known rank g c (.merge p k ls) along b) (known' : (Value.merge p k ls).Known g)
    (flat : l.isMerge = false) (hl : l ∈ ls) :
    Below known rank g (c.opening p.mark i base l) l along b := by
  have inner : Below known rank g c l along b :=
    h.part (v := .merge p k ls) hl fun s hs => ⟨s, mem_standings_merge.2 ⟨l, hl, hs⟩, rfl, id⟩
  refine ⟨inner.low, inner.available, fun o ho => ?_, inner.calm⟩
  simp only [Surroundings.opening] at ho
  split at ho
  · next n waits mark =>
    rcases List.mem_cons.1 ho with rfl | ho
    · refine ⟨_, known'.entry mark, .inl ⟨sizeOf_lt_of_mem_parts (v := .merge p k ls) hl,
        fun s hs => mem_standings_merge.2 ⟨l, hl, ?_⟩⟩⟩
      -- what waits and is no merge has all its references in one place
      cases l with
      | reference =>
        obtain ⟨path, tried, rfl⟩ := mem_standings_reference.1 hs
        exact hs
      | concat =>
        obtain ⟨x, hx, t, ht, rfl⟩ := mem_standings_concat.1 hs
        exact hs
      | merge => cases flat
      | _ => cases waits
    · exact inner.merges o ho
  · exact inner.merges o ho

theorem grows {g' : Table} {n n' : Nat} (grows : g.Grows False n g' n')
    (h : Below known rank g c v along b) : Below known rank g' c v along b where
  low := h.low
  available m p r hr := by
    rcases grows.old m _ hr rfl with new | old
    · cases new
    · exact h.available m p r old
  merges o ho := by
    obtain ⟨w, hw, apart⟩ := h.merges o ho
    exact ⟨w, grows.keeps _ _ hw, apart⟩
  calm := h.calm

variable {p : Provenance} {r : Reference} {n : Nat} {path : Path}

/-- What a reference depends on at one of its paths is resolved below the rank of the path. -/
theorem within {a : Option Path} {trace : List PathReference}
    (h : Below known rank g c (.reference p r) along b) (known' : (Value.reference p r).Known g)
    (mark : p.mark = some n) (tried : path ∈ r.paths)
    (low : ∀ s ∈ u.standings, TouchesAlong s.place a → rank s.target < rank path.keys)
    (calm : u.Calm known) : Below known rank g (c.within n trace) u a (rank path.keys) := by
  have mem : ⟨[], path.keys⟩ ∈ (Value.reference p r).standings :=
    mem_standings_reference.2 ⟨path, tried, rfl⟩
  have lt := h.low _ mem (touchesAlong_nil _)
  refine ⟨low, fun m q t hm lower => ?_, fun o ho => ?_, calm⟩
  · refine List.mem_filter.2 ⟨h.available m q t hm fun path' h' => Nat.lt_trans (lower path' h') lt, ?_⟩
    -- the reference itself is not of a lower rank
    refine bne_iff_ne.2 fun same => ?_
    subst same
    cases hm.symm.trans (known'.entry mark)
    exact absurd (lower path tried) (Nat.lt_irrefl _)
  · obtain ⟨w, hw, inside | ⟨s, hs, here, le⟩⟩ := h.merges o ho
    · exact ⟨w, hw, .inr ⟨_, inside.2 _ mem, rfl, Nat.le_refl _⟩⟩
    · exact ⟨w, hw, .inr ⟨s, hs, here, Nat.le_trans (Nat.le_of_lt lt) le⟩⟩

end Below

/-! ### Lookups -/

/-- What is right as a result for `v`. -/
def Right (known : List String → Content) (rank : List String → Nat) (root v : Value)
    (_ : Option Path) (result : Option Value) : Prop :=
  Agrees known rank root v result ∧ Present known result

section Lookups

variable {path : Path} {found : Option Value}

/-- What is found at a path of the root holds what the path means and depends on references of
lower ranks alone. -/
structure Sees (known : List String → Content) (rank : List String → Nat) (root : Value)
    (path : Path) (found : Option Value) : Prop where
  content : (found.map (Value.content known)).getD .absent = known path.keys
  low : ∀ u, found = some u → ∀ s ∈ u.standings, rank s.target < rank path.keys
  calm : ∀ u, found = some u → u.Calm known
  mentions : ∀ u, found = some u → ∀ keys, Mentions root u keys →
    Mentions root root (path.keys ++ keys)

theorem Found.sees (ranked : root.Ranked rank) (meaning : IsMeaning known root)
    (h : Found manner (Right known rank root) root path found) :
    Sees known rank root path found := by
  obtain ⟨w, answer, peek⟩ := h
  have made := answer.post.1.made w rfl
  obtain ⟨there, content⟩ :=
    peekThrough_of_calm (answer.wellFormed w rfl) made.calm (answer.settled w rfl)
  cases there.symm.trans peek
  have whole : w.content known = root.content known := answer.post.1.content
  refine ⟨by rw [content, meaning path.keys, whole], fun u hu s hs => ?_,
    fun u hu => made.calm.peek? hu, fun u hu keys h => made.mentions _ (h.of_peek? hu)⟩
  obtain ⟨t, ht, place, le⟩ := made.stems _ (mem_standings_of_peek? hu hs)
  exact Nat.lt_of_le_of_lt le (ranked path.keys t ht (.of_leads place))

variable {s : Setting} {p : Provenance} {r : Reference} {along : Option Path} {result : Option Value}

/-- What a reference comes to holds what it holds, and is made of it. -/
theorem LookedUp.right (ranked : s.root.Ranked rank) (meaning : IsMeaning known s.root)
    (alone : s.environment = none) (decided : Decided known s.root r)
    (h : LookedUp manner (Right known rank s.root) s r along result) :
    (result.map (Value.content known)).getD .absent = (Value.reference p r).content known
      ∧ (∀ w, result = some w → MadeOf known rank s.root (.reference p r) w)
      ∧ Present known result := by
  -- what was found at one of the paths holds what that path means
  have target {path : Path} {u : Value} (tried : path ∈ r.paths)
      (found : Found manner (Right known rank s.root) s.root path (some u))
      (target : Answer manner (Right known rank s.root) u along result) :
      (result.map (Value.content known)).getD .absent = known path.keys
        ∧ (∀ w, result = some w → MadeOf known rank s.root (.reference p r) w)
        ∧ Present known result := by
    have sees := found.sees ranked meaning
    refine ⟨target.post.1.content.trans sees.content, fun w hw => ?_, target.post.2⟩
    have made := target.post.1.made w hw
    refine ⟨fun t ht => ?_, made.calm, fun keys h => .reference tried ?_⟩
    · obtain ⟨t', ht', -, le⟩ := made.stems t ht
      exact ⟨⟨[], path.keys⟩, mem_standings_reference.2 ⟨path, tried, rfl⟩, List.nil_prefix,
        Nat.le_trans le (Nat.le_of_lt (sees.low u rfl t' ht'))⟩
    · exact sees.mentions u rfl keys (made.mentions keys h)
  have nothing {path : Path} (found : Found manner (Right known rank s.root) s.root path none) :
      known path.keys = .absent := (found.sees ranked meaning).content.symm
  rw [Value.content]
  cases h with
  | @root u _ found answer =>
    obtain ⟨content, rest⟩ := target List.mem_cons_self found answer
    refine ⟨content.trans ?_, rest⟩
    rw [Reference.paths, List.map_cons, Content.firstOf]
    split
    · next absent =>
      rw [Content.isAbsent_iff] at absent
      by_cases included : r.included = 0
      · -- there is no other path
        rw [included]
        exact absent.trans (Content.firstOf_eq_absent_iff.2
          (List.forall_mem_singleton.2 absent)).symm
      · have mentions := (found.sees ranked meaning).mentions u rfl [] (.here u)
        rw [List.append_nil] at mentions
        exact absurd mentions (decided included absent)
    · rfl
  | @inner path u _ missing inner found answer =>
    -- there is nothing at the first path, so the second one counts
    obtain ⟨content, rest⟩ := target (by simp [Reference.paths, inner]) found answer
    refine ⟨content.trans ?_, rest⟩
    rw [Reference.paths, inner, List.map_cons, Content.firstOf,
      if_pos (Content.isAbsent_iff.2 (nothing missing))]
    show _ = Content.firstOf [known path.keys]
    rw [Content.firstOf]
    split
    · next absent => exact Content.isAbsent_iff.1 absent
    · rfl
  | environment _ _ source =>
    rw [alone] at source
    cases source
  | missing missing =>
    refine ⟨(Content.firstOf_eq_absent_iff.2 fun c hc => ?_).symm, by rintro _ ⟨⟩,
      by rintro _ ⟨⟩⟩
    obtain ⟨path, tried, rfl⟩ := List.mem_map.1 hc
    exact nothing (missing path tried)

end Lookups

/-! ### The contract -/

end Resolution

end Hocon
