import Hocon.Proofs.Content
import Hocon.Proofs.Standing

/-!
# What references mean

The meaning of a path is what the whole tree holds there, once each reference holds what its path
means.  That is an equation with the meaning on both sides, and nothing says that it has a
solution.  It has exactly one if no reference depends on itself (`Value.exists_isMeaning`,
`Value.IsMeaning.eq`): what a tree holds at a path depends on those references alone that touch the
path (`Value.sameAlong_content`), so the meaning of paths comes about rank by rank.
-/

namespace Hocon

namespace Content

/-- Two contents of which a look along a path tells no difference. -/
inductive SameAlong : List String → Content → Content → Prop
  | here (a : Content) : SameAlong [] a a
  | fields {key : String} {keys : List String} (closed : Bool) {f g : String → Content}
      (field : SameAlong keys (f key) (g key)) :
      SameAlong (key :: keys) (fields closed f) (fields closed g)
  | other {key : String} {keys : List String} {a b : Content} (left : a.isFields = false)
      (right : b.isFields = false) (absent : a.isAbsent = b.isAbsent) :
      SameAlong (key :: keys) a b

namespace SameAlong

variable {keys : List String} {a b c d : Content}

theorem refl (keys : List String) (a : Content) : SameAlong keys a a := by
  induction keys generalizing a with
  | nil => exact .here a
  | cons key keys ih =>
    cases a with
    | fields closed f => exact .fields closed (ih (f key))
    | _ => exact .other rfl rfl rfl

theorem eq (h : SameAlong [] a b) : a = b := by
  cases h with
  | here => rfl

theorem peek (h : SameAlong keys a b) : a.peek keys = b.peek keys := by
  induction h with
  | here => rfl
  | fields closed _ ih => exact ih
  | other left right _ =>
    rw [peek_cons, peek_cons, field_of_isFields left, field_of_isFields right]

/-- What is seen along a path is put over each other alone. -/
theorem upon (hab : SameAlong keys a b) (hcd : SameAlong keys c d) :
    SameAlong keys (a.upon c) (b.upon d) := by
  induction hab generalizing c d with
  | here a => exact hcd.eq ▸ .here _
  | @fields key keys closed f g field ih =>
    cases closed with
    | true => exact .fields true field
    | false =>
      cases hcd with
      | fields closed field' => exact .fields closed (ih field')
      | other left right absent =>
        cases hc : c.isAbsent with
        | true =>
          rw [hc] at absent
          rw [isAbsent_iff.1 hc, isAbsent_iff.1 absent.symm, upon_absent, upon_absent]
          exact .fields false field
        | false =>
          have hd := absent ▸ hc
          rw [fields_upon (fun e => by simp [e, isAbsent] at hc) left,
            fields_upon (fun e => by simp [e, isAbsent] at hd) right]
          exact .fields true field
  | other left right absent =>
    rename_i key keys a b
    cases ha : a.isAbsent with
    | true =>
      rw [ha] at absent
      rw [isAbsent_iff.1 ha, isAbsent_iff.1 absent.symm]
      exact hcd
    | false =>
      have hb := absent ▸ ha
      rw [upon_of_isFields (fun e => by simp [e, isAbsent] at ha) left,
        upon_of_isFields (fun e => by simp [e, isAbsent] at hb) right]
      exact .other left right absent

end SameAlong

end Content

namespace Value

variable {known known' : List String → Content} {v : Value}

/-- **What a tree holds along a path** depends on those references alone that touch the path. -/
theorem sameAlong_content (v : Value) (keys : List String)
    (h : ∀ s ∈ v.standings, Touches s.place keys → known s.target = known' s.target) :
    Content.SameAlong keys (v.content known) (v.content known') := by
  induction v using parts_induction generalizing keys with
  | node v ih =>
    have whole (x : Value) (hx : x ∈ v.parts)
        (h : ∀ s ∈ x.standings, known s.target = known' s.target) :
        x.content known = x.content known' :=
      (ih x hx [] fun s hs _ => h s hs).eq
    have same (hparts : ∀ x ∈ v.parts, ∀ s ∈ x.standings, known s.target = known' s.target) :
        contentsOf known v.parts = contentsOf known' v.parts := by
      rw [contentsOf_eq, contentsOf_eq,
        List.map_congr_left fun x hx => whole x hx (hparts x hx)]
    cases v with
    | reference p r =>
      rw [content, content, List.map_congr_left fun path hpath =>
        h ⟨[], path.keys⟩ (mem_standings_reference.2 ⟨path, hpath, rfl⟩) (touches_nil _)]
      exact .refl _ _
    | object p c fs =>
      -- a look at one field meets only the references below its key
      have field (key : String) (keys : List String)
          (h : ∀ s ∈ (object p c fs).standings, Touches s.place (key :: keys) →
            known s.target = known' s.target) :
          Content.SameAlong keys (contentOfFields known fs key) (contentOfFields known' fs key) := by
        rw [contentOfFields_eq, contentOfFields_eq]
        cases hu : Entries.get? fs key with
        | none => exact .refl _ _
        | some u =>
          have mem := Entries.mem_of_get? hu
          refine ih u (mem_parts_of_mem_fields mem) keys fun s hs touches => ?_
          exact h (s.below (some key)) (mem_standings_object.2 ⟨key, u, mem, s, hs, rfl⟩)
            (touches_cons touches)
      rw [content, content]
      cases keys with
      | cons key keys => exact .fields c (field key keys h)
      | nil =>
        rw [show contentOfFields known fs = contentOfFields known' fs from
          funext fun key => (field key [] fun s hs _ => h s hs (touches_of_nil _)).eq]
        exact .here _
    | list p xs =>
      rw [content, content]
      cases keys with
      -- no path leads into a list
      | cons key keys => exact .other rfl rfl rfl
      | nil =>
        have same : contentsOf known xs = contentsOf known' xs := same fun x hx s hs =>
          h (s.below none) (mem_standings_list.2 ⟨x, hx, s, hs, rfl⟩) (touches_of_nil _)
        rw [same]
        exact .here _
    | concat p ps =>
      -- joining needs all of each piece, wherever one looks
      have same : contentsOf known ps = contentsOf known' ps := same fun x hx s hs =>
        h ⟨[], s.target⟩ (mem_standings_concat.2 ⟨x, hx, s, hs, rfl⟩) (touches_nil _)
      rw [content, content, same]
      exact .refl _ _
    | merge p k ls =>
      have layers (xs : List Value) (hxs : ∀ x ∈ xs, x ∈ ls) :
          Content.SameAlong keys (contentOfLayers known xs) (contentOfLayers known' xs) := by
        induction xs with
        | nil => exact .refl _ _
        | cons x xs below =>
          obtain ⟨hx, hxs⟩ := List.forall_mem_cons.1 hxs
          exact (ih x hx keys fun s hs => h s (mem_standings_merge.2 ⟨x, hx, hs⟩)).upon (below hxs)
      rw [content, content]
      exact layers ls fun _ => id
    | _ => exact .refl _ _

/-- Whether `known` is what the tree itself holds at each path, all references considered. -/
def IsMeaning (known : List String → Content) (root : Value) : Prop :=
  ∀ path, known path = (root.content known).peek path

variable {rank : List String → Nat} {root : Value}

/-- They have no other meaning. -/
theorem IsMeaning.eq (acyclic : root.Acyclic) (h : IsMeaning known root)
    (h' : IsMeaning known' root) : known = known' := by
  obtain ⟨rank, ranked⟩ := acyclic.exists_ranked
  have below (n : Nat) : ∀ path, rank path < n → known path = known' path := by
    induction n with
    | zero => nofun
    | succ n ih =>
      intro path lt
      rw [h path, h' path]
      refine (sameAlong_content root path fun s hs touches => ih s.target ?_).peek
      exact Nat.lt_of_lt_of_le (ranked path s hs touches) (Nat.le_of_lt_succ lt)
  exact funext fun path => below (rank path + 1) path (Nat.lt_succ_self _)

end Value

end Hocon
