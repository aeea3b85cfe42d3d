import Hocon.Proofs.Outcomes

/-!
# Groups of fallbacks

Layers of documents may be put over each other in any groups (`Value.resolve_withFallback_assoc`),
although that makes different trees: objects that are merged at once in one grouping are layers of
a merge in the other.  What the groupings hold is the same anyway.  What is left to show is that
one does not fail where the other succeeds, and for that it is enough to look at the nodes that
are in no merge (`Value.Bare`): such a query of one grouping is a node of the other, too.
-/

namespace Hocon.Value

variable {manner : Manner} {known : List String → Content} {a b c u v w x y z : Value}

/-! ### Nodes outside of merges -/

/-- `u` is a node of `v` that is in no merge of it. -/
inductive Bare (u : Value) : Value → Prop
  | self : Bare u u
  | part {v w : Value} (h : Bare u v) (hv : v ∈ w.parts) (free : w.isMerge = false) : Bare u w

theorem Bare.within (h : u.Bare v) : u.Within v := by
  induction h with
  | self => exact .self
  | part _ hv _ ih => exact .part ih hv

/-- What no query is in has no bare query, nor has a merge. -/
theorem Bare.isQuery_eq_false (h : u.Bare v) (hv : v.isResolved = true ∨ v.isMerge = true) :
    u.isQuery = false := by
  rcases hv with resolved | isMerge
  · have resolved := isResolved_of_within h.within resolved
    cases u <;> first | rfl | cases resolved
  · cases h with
    | self => cases u <;> first | rfl | cases isMerge
    | part _ _ free => rw [isMerge] at free; cases free

/-- Two objects that are put over each other, of which the upper one is open. -/
structure Overlaid (v w : Value) (own other : Entries Value) (closed : Bool) : Prop where
  upper : ∃ p, v = object p false own
  lower : ∃ q, w = object q closed other

/-- A bare query of trees over each other is one of the upper tree, which hides the lower one, or
is in a field of two objects. -/
theorem Bare.of_withFallback (query : u.isQuery = true) (hv : v.WellFormed manner)
    (hw : w.WellFormed manner) (h : u.Bare (v.withFallback w)) :
    v.ignoresFallbacks = true ∧ u.Bare v
      ∨ ∃ own other closed, Overlaid v w own other closed ∧ ∃ key x,
        Entries.overlay (Entries.get? own key) (Entries.get? other key) = some x ∧ u.Bare x := by
  refine withFallback_cases (motive := fun v w r => u.Bare r →
    v.ignoresFallbacks = true ∧ u.Bare v
      ∨ ∃ own other closed, Overlaid v w own other closed ∧ ∃ key x,
        Entries.overlay (Entries.get? own key) (Entries.get? other key) = some x ∧ u.Bare x)
    ?self ?fields ?closing ?waiting hv hw h
  case self => exact fun v w ignores h => .inl ⟨ignores, h⟩
  case fields =>
    intro p q p' c own other fs _ _ _ _ nodup get _ h
    cases h with
    | self => cases query
    | part h hx _ =>
      obtain ⟨f, hf, rfl⟩ := List.mem_map.1 hx
      exact .inr ⟨own, other, c, ⟨⟨p, rfl⟩, q, rfl⟩, f.1, f.2,
        (get f.1).symm.trans (Entries.get?_of_mem nodup hf), h⟩
  case closing =>
    intro p own w _ _ resolved h
    rw [h.isQuery_eq_false (.inl resolved)] at query
    cases query
  case waiting =>
    intro v w _ _ _ h
    rw [h.isQuery_eq_false (.inr rfl)] at query
    cases query

/-- A query stays where something is put beneath it. -/
theorem Within.withFallback (query : u.isQuery = true) (hu : u.Within v) (hv : v.WellFormed manner)
    (hw : w.WellFormed manner) : u.Within (v.withFallback w) := by
  refine withFallback_cases (motive := fun v w r => u.Within v → u.Within r)
    ?self ?fields ?closing ?waiting hv hw hu
  case self => exact fun v w _ => id
  case fields =>
    intro p q p' c own other fs _ _ nodup _ _ get merged hu
    cases hu with
    | self => cases query
    | part hu hx =>
      obtain ⟨f, hf, rfl⟩ := List.mem_map.1 hx
      have ha := Entries.get?_of_mem nodup hf
      have hf := get f.1
      rw [ha] at hf
      cases hb : Entries.get? other f.1 with
      | none =>
        rw [hb, Entries.overlay_none_right] at hf
        exact .part hu (mem_parts_of_mem_fields (Entries.mem_of_get? hf))
      | some b =>
        rw [hb, Entries.overlay_some] at hf
        exact .part (merged f.1 f.2 b ha hb hu) (mem_parts_of_mem_fields (Entries.mem_of_get? hf))
  case closing =>
    intro p own w _ _ _ hu
    cases hu with
    | self => cases query
    | part hu hx => exact .part hu hx
  case waiting =>
    intro v w _ _ _ hu
    -- a merge is taken apart to its layers, anything else is one
    have layer {l : Value} (hl : l ∈ v.layers) (hu : u.Within l) :
        u.Within (stack v (v.layers ++ w.layers)) :=
      .part hu (List.mem_append_left _ hl)
    cases v with
    | merge =>
      cases hu with
      | self => cases query
      | part hu hl => exact layer hl hu
    | _ => exact layer (List.mem_singleton_self _) hu

/-- What is in a field of two objects is in them when they are put over each other. -/
theorem Overlaid.within {own other : Entries Value} {closed : Bool}
    (h : Overlaid v w own other closed) (hv : v.WellFormed manner) (hw : w.WellFormed manner)
    {key : String} (hx : Entries.overlay (Entries.get? own key) (Entries.get? other key) = some x)
    (hu : u.Within x) : u.Within (v.withFallback w) := by
  obtain ⟨⟨p, rfl⟩, q, rfl⟩ := h
  obtain ⟨p', fs, eq, -, -, -, get⟩ := withFallback_object hv.nodup hw.nodup p q closed
  rw [eq]
  exact .part hu (mem_parts_of_mem_fields (Entries.mem_of_get? ((get key).trans hx)))

/-! ### Bare nodes and grouping -/

/-- A text behind what another field of `f` begins with. -/
def besides (other text : String) : Value :=
  .concat onLine [lineRef ⟨"f", [other]⟩ true, .string onLine text true]

/-- Three texts of which the two groupings have outcomes that do not agree. -/
def GroupingShows (upper middle lower : String) : Prop :=
  ∃ a b c : Value, ((parseText {} {} upper).run.run []).1 = .ok a
    ∧ ((parseText {} {} middle).run.run []).1 = .ok b
    ∧ ((parseText {} {} lower).run.run []).1 = .ok c
    ∧ ¬ Agreeing False (((a.withFallback b).withFallback c).resolve {})
      ((a.withFallback (b.withFallback c)).resolve {})

theorem GroupingShows.of_fields {upper middle lower : String} (fs gs hs : Entries Value)
    (above : (Document.readAlone upper).toOption = some (.object onLine false fs))
    (between : (Document.readAlone middle).toOption = some (.object onLine false gs))
    (below : (Document.readAlone lower).toOption = some (.object onLine false hs))
    (differ : agree
        ((((object onLine false fs).withFallback (object onLine false gs)).withFallback
          (object onLine false hs)).resolve {})
        (((object onLine false fs).withFallback ((object onLine false gs).withFallback
          (object onLine false hs))).resolve {}) = false) : GroupingShows upper middle lower := by
  refine ⟨_, _, _, Document.parsed_of_readAlone {} above rfl,
    Document.parsed_of_readAlone {} between rfl, Document.parsed_of_readAlone {} below rfl,
    fun h => ?_⟩
  rw [h.agree] at differ
  cases differ

end Hocon.Value
