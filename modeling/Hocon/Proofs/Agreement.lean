import Hocon.Proofs.Resolving
import Hocon.Proofs.Tame

/-!
# Results that agree with what references mean

A result agrees with the tree that it is for (`Resolution.Agrees`) if it holds what the tree holds
once its references hold what they mean.  Where results for the parts of a node agree with the
parts, what is put together from them agrees with the node: fields, items, joined pieces and
merged layers, some of which may have vanished.
-/

namespace Hocon

namespace Value

variable {known : List String → Content} {manner : Manner} {u v w : Value}

/-! ### Nodes that cannot be resolved -/

/-- Whether the node is one that makes a resolution fail: a reference that has to have a target
and has none, or neighbours that cannot be joined. -/
def Fails (known : List String → Content) : Value → Prop
  | reference p r => r.target.optional = false ∧ (reference p r).content known = .absent
  | concat _ ps => Content.joinAll (contentsOf known ps) = none
  | _ => False

theorem isPending_of_fails (h : v.Fails known) : v.isPending = true := by
  cases v <;> first | rfl | cases h

theorem Alike.fails (h : v.Alike w) (hw : w.Fails known) : v.Fails known := by
  cases h with
  | reference => exact hw
  | concat _ length pieces =>
    rw [Fails, contentsOf_eq] at hw ⊢
    rwa [← map_content_eq length fun i x y hx hy => (pieces i x y hx hy).content_eq]
  | _ => cases hw

/-- No node fails, inside of merges apart. -/
inductive Fine (known : List String → Content) : Value → Prop
  | node {v : Value} (here : ¬ v.Fails known)
      (parts : v.isMerge = false → ∀ u ∈ v.parts, Fine known u) : Fine known v

theorem Fine.of_isResolved (h : v.isResolved = true) : Fine known v := by
  induction v using parts_induction with
  | node v ih =>
    obtain ⟨pending, parts⟩ := isResolved_iff.1 h
    refine .node (fun fails => ?_) fun _ u hu => ih u hu (parts u hu)
    rw [isPending_of_fails fails] at pending
    cases pending

/-- Neither marks nor the order of fields matter. -/
theorem Fine.alike (h : Fine known w) (wf : v.WellFormed manner) (like : v.Alike w) :
    Fine known v := by
  induction h generalizing v with
  | @node w here parts ih =>
    refine .node (fun fails => here (like.symm.fails fails)) fun notMerge u hu => ?_
    have notMerge' : w.isMerge = false := by
      cases like <;> first | rfl | cases notMerge
    obtain ⟨y, hy, like'⟩ := like.symm.exists_part (wf.any.alike (fun _ _ _ => id) like) hu
    exact ih notMerge' y hy (wf.parts u hu) like'.symm

end Value

namespace Resolution

open Value

variable {known : List String → Content} {rank : List String → Nat} {root u v w x y : Value}
  {manner : Manner}

/-! ### What is right as a result -/

/-- The references of `w` come from those of `v`, as far as their places and their ranks tell, and
so do the places where nodes may come to be. -/
structure MadeOf (known : List String → Content) (rank : List String → Nat) (root v w : Value) :
    Prop where
  stems : ∀ s ∈ w.standings, ∃ t ∈ v.standings, t.place <+: s.place ∧ rank s.target ≤ rank t.target
  calm : w.Calm known
  mentions : ∀ keys, Mentions root w keys → Mentions root v keys

namespace MadeOf

theorem refl (calm : v.Calm known) : MadeOf known rank root v v :=
  ⟨fun s hs => ⟨s, hs, List.prefix_rfl, Nat.le_refl _⟩, calm, fun _ => id⟩

theorem of_isResolved (h : w.isResolved = true)
    (mentions : ∀ keys, Mentions root w keys → Mentions root v keys) : MadeOf known rank root v w where
  stems s hs := by
    rw [standings_of_isResolved h] at hs
    cases hs
  calm := .of_isResolved h
  mentions := mentions

theorem layer {p : Provenance} {k : MergeKind} {ls : List Value} (hv : v ∈ ls)
    (h : MadeOf known rank root v w) : MadeOf known rank root (.merge p k ls) w where
  stems s hs := by
    obtain ⟨t, ht, stems⟩ := h.stems s hs
    exact ⟨t, mem_standings_merge.2 ⟨v, hv, ht⟩, stems⟩
  calm := h.calm
  mentions keys hw := .layer hv (h.mentions keys hw)

theorem withFallback (hx : MadeOf known rank root v x) (hy : MadeOf known rank root v y)
    (wx : x.WellFormed manner) (wy : y.WellFormed manner)
    (rests : (x.content known).RestsOn (y.content known)) :
    MadeOf known rank root v (x.withFallback y) where
  stems s hs := (mem_standings_withFallback wx wy hs).elim (hx.stems s) (hy.stems s)
  calm := hx.calm.withFallback hy.calm wx wy rests
  mentions keys h := (h.of_withFallback wx wy).elim (hx.mentions keys) (hy.mentions keys)

/-- Neither marks nor the order of fields matter. -/
theorem alike (h : MadeOf known rank root v w) (wf : w.WellFormed manner) (like : w.Alike x) :
    MadeOf known rank root v x where
  stems s hs := h.stems s (like.mem_standings wf hs)
  calm := h.calm.alike wf like
  mentions keys hx := h.mentions keys (hx.alike wf like)

end MadeOf

/-- The result for `v` holds what `v` holds and is made of it, and if nothing in it waits, nothing
in `v` fails. -/
structure Agrees (known : List String → Content) (rank : List String → Nat) (root v : Value)
    (result : Option Value) : Prop where
  content : (result.map (Value.content known)).getD .absent = v.content known
  made : ∀ w, result = some w → MadeOf known rank root v w
  fine : (∀ w, result = some w → w.isResolved = true) → v.Fine known

/-- What is there holds something. -/
def Present (known : List String → Content) (result : Option Value) : Prop :=
  ∀ w, result = some w → w.content known ≠ .absent

theorem Present.of_isPending (h : w.isPending = false) : Present known (some w) := by
  rintro _ ⟨⟩
  exact content_ne_absent h

namespace Agrees

/-- Nothing has happened yet. -/
theorem refl (calm : v.Calm known) : Agrees known rank root v (some v) where
  content := rfl
  made := by
    rintro _ ⟨⟩
    exact .refl calm
  fine h := .of_isResolved (h v rfl)

/-- Neither marks nor the order of fields matter. -/
theorem alike (h : Agrees known rank root v (some w)) (wf : w.WellFormed manner)
    (wf' : x.WellFormed manner) (like : w.Alike x) : Agrees known rank root v (some x) where
  content := like.content_eq.trans h.content
  made := by
    rintro _ ⟨⟩
    exact (h.made w rfl).alike wf like
  fine resolved := h.fine <| by
    rintro _ ⟨⟩
    have settled : Settled none x := .resolved (resolved x rfl)
    exact (settled.alike wf' like.symm).isResolved

/-! ### Objects -/

section Fields

variable {p q : Provenance} {closed : Bool} {fs : Entries Value} {rs : Entries (Option Value)}

/-- The result for a field agrees with the field. -/
def Field (known : List String → Content) (rank : List String → Nat) (root : Value)
    (f : String × Value) (r : String × Option Value) : Prop :=
  r.1 = f.1 ∧ Agrees known rank root f.2 r.2

/-- The fields that are left. -/
abbrev left (rs : Entries (Option Value)) : Entries Value :=
  rs.filterMap fun f => f.2.map fun w => (f.1, w)

theorem exists_field_of_mem_left (h : List.Forall₂ (Field known rank root) fs rs) {k : String}
    (hu : (k, u) ∈ left rs) : ∃ v, (k, v) ∈ fs ∧ Agrees known rank root v (some u) := by
  obtain ⟨⟨k', r⟩, hr, he⟩ := List.mem_filterMap.1 hu
  obtain ⟨w, hw, he⟩ := Option.map_eq_some_iff.1 he
  cases he
  obtain ⟨⟨k'', v⟩, hv, hk, agrees⟩ := exists_left_of_mem h hr
  cases hk
  cases hw
  exact ⟨v, hv, agrees⟩

theorem contentOfFields_left (nodup : (Entries.keys fs).Nodup)
    (h : List.Forall₂ (Field known rank root) fs rs) (key : String) :
    contentOfFields known (left rs) key = contentOfFields known fs key := by
  induction h with
  | nil => rfl
  | @cons f r fs rs hf _ ih =>
    obtain ⟨k, v⟩ := f
    obtain ⟨k', o⟩ := r
    obtain ⟨hk, agrees⟩ := hf
    cases hk
    simp only [Entries.keys, List.map_cons, List.nodup_cons] at nodup
    rw [contentOfFields]
    cases o with
    | some w =>
      rw [left, List.filterMap_cons, Option.map_some, contentOfFields, ← ih nodup.2]
      simp only [← agrees.content, Option.map_some, Option.getD_some]
    | none =>
      rw [left, List.filterMap_cons, Option.map_none]
      refine (ih nodup.2).trans ?_
      split
      · next e =>
        -- what vanished does not come again under the same key
        rw [← agrees.content, contentOfFields_eq, ← e, Entries.get?_eq_none_iff.2 nodup.1]
      · rfl

theorem ofFields (nodup : (Entries.keys fs).Nodup)
    (h : List.Forall₂ (Field known rank root) fs rs) :
    Agrees known rank root (.object p closed fs) (some (.object q closed (left rs))) where
  content := congrArg (Content.fields closed) (funext (contentOfFields_left nodup h))
  made := by
    rintro _ ⟨⟩
    refine ⟨fun s hs => ?_, .ofFields fun k u hu => ?_, fun keys mentions => ?_⟩
    · obtain ⟨k, u, hu, t, ht, rfl⟩ := mem_standings_object.1 hs
      obtain ⟨v, hv, agrees⟩ := exists_field_of_mem_left h hu
      obtain ⟨t', ht', place, le⟩ := (agrees.made u rfl).stems t ht
      exact ⟨t'.below (some k), mem_standings_object.2 ⟨k, v, hv, t', ht', rfl⟩,
        List.cons_prefix_cons.2 ⟨rfl, place⟩, le⟩
    · obtain ⟨v, -, agrees⟩ := exists_field_of_mem_left h hu
      exact (agrees.made u rfl).calm
    · cases mentions with
      | here => exact .here _
      | field get below =>
        obtain ⟨v, hv, agrees⟩ := exists_field_of_mem_left h (Entries.mem_of_get? get)
        exact .field (Entries.get?_of_mem nodup hv) ((agrees.made _ rfl).mentions _ below)
  fine resolved := by
    have fields := fieldsResolved_iff.1 (resolved _ rfl)
    clear resolved nodup
    suffices all : ∀ f ∈ fs, f.2.Fine known by
      refine .node id fun _ u hu => ?_
      obtain ⟨f, hf, rfl⟩ := List.mem_map.1 hu
      exact all f hf
    intro f hf
    induction h with
    | nil => cases hf
    | @cons g r _ _ hg _ ih =>
      obtain ⟨k, o⟩ := r
      rcases List.mem_cons.1 hf with rfl | hf
      · refine hg.2.fine fun w hw => ?_
        cases hw
        exact fields (k, w) (by simp)
      · exact ih (fun f hf => fields f (by
          cases o with
          | none => exact hf
          | some w => exact List.mem_cons_of_mem _ hf)) hf

end Fields

/-! ### Lists and pieces -/

/-- Results in a row, of which some vanished. -/
theorem contentsOf_eq {xs : List Value} {rs : List (Option Value)}
    (h : List.Forall₂ (fun x r => Agrees known rank root x r ∧ Present known r) xs rs) :
    (rs.filterMap id).map (Value.content known) = contentsOf known xs := by
  induction h with
  | nil => rfl
  | @cons x r xs rs hx _ ih =>
    rw [contentsOf, List.filterMap_cons]
    cases r with
    | none =>
      rw [if_pos (Content.isAbsent_iff.2 hx.1.content.symm)]
      exact ih
    | some w =>
      have content : w.content known = x.content known := hx.1.content
      rw [if_neg fun e => hx.2 w rfl (content ▸ Content.isAbsent_iff.1 e), ← content, ← ih]
      rfl

/-! ### Merges -/

end Agrees

end Resolution

end Hocon
