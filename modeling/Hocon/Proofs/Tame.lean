import Hocon.Proofs.Calm
import Hocon.Proofs.Meaning

/-!
# Tame trees

In what order the references of a tree are looked up is nobody's business but the resolver's.  It
does not show in a tame tree (`Value.Tame`), and three things make a tree tame: no reference
depends on itself, merges are calm, and a reference that came with an included document knows
which of its paths counts.

The last of these needs care.  Such a reference is looked up at a second path if there is nothing
at the first, and a node that comes to nothing is there as long as it is not resolved.  So the
first path counts unless no node can come to be there, whatever shows and whatever vanishes
(`Value.Mentions`).
-/

namespace Hocon

namespace Value

variable {root u v w : Value} {keys : List String} {manner : Manner}

/-! ### Where nodes may come to be -/

/-- A node may come to be at the keys in `v`, where references may bring what they point at in
`root`.  What is hidden counts too. -/
inductive Mentions (root : Value) : Value → List String → Prop
  | here (v : Value) : Mentions root v []
  | field {p : Provenance} {c : Bool} {fs : Entries Value} {key : String} {u : Value}
      {keys : List String} (get : Entries.get? fs key = some u) (below : Mentions root u keys) :
      Mentions root (object p c fs) (key :: keys)
  | piece {p : Provenance} {ps : List Value} {x : Value} {keys : List String} (mem : x ∈ ps)
      (below : Mentions root x keys) : Mentions root (concat p ps) keys
  | layer {p : Provenance} {k : MergeKind} {ls : List Value} {l : Value} {keys : List String}
      (mem : l ∈ ls) (below : Mentions root l keys) : Mentions root (merge p k ls) keys
  | reference {p : Provenance} {r : Reference} {path : Path} {keys : List String}
      (tried : path ∈ r.paths) (target : Mentions root root (path.keys ++ keys)) :
      Mentions root (reference p r) keys

namespace Mentions

/-- Neither marks nor the order of fields matter. -/
theorem alike (h : Mentions root w keys) (wf : v.WellFormed manner) (like : v.Alike w) :
    Mentions root v keys := by
  induction h generalizing v with
  | here => exact .here v
  | field get _ ih =>
    cases like with
    | object _ c perm fields =>
      obtain ⟨x, hx⟩ := Entries.exists_get?_of_mem_keys
        (perm.mem_iff.2 (Entries.mem_keys_of_get? get))
      exact .field hx (ih (wf.field hx) (fields _ x _ hx get))
  | piece mem _ ih =>
    cases like with
    | concat _ length pieces =>
      obtain ⟨i, x, hx, hy⟩ := Alike.exists_place length mem
      have mem := List.mem_of_getElem? hx
      exact .piece mem (ih (wf.parts x mem) (pieces i x _ hx hy))
  | layer mem _ ih =>
    cases like with
    | merge _ k length layers =>
      obtain ⟨i, x, hx, hy⟩ := Alike.exists_place length mem
      have mem := List.mem_of_getElem? hx
      exact .layer mem (ih (wf.parts x mem) (layers i x _ hx hy))
  | reference tried target _ =>
    cases like with
    | reference => exact .reference tried target

theorem alike_root {root' : Value} (h : Mentions root' v keys) (wf : root.WellFormed manner)
    (like : root.Alike root') : Mentions root v keys := by
  induction h with
  | here v => exact .here v
  | field get _ ih => exact .field get ih
  | piece mem _ ih => exact .piece mem ih
  | layer mem _ ih => exact .layer mem ih
  | reference tried _ ih => exact .reference tried (ih.alike wf like)

theorem of_layers {l : Value} (hl : l ∈ v.layers) (h : Mentions root l keys) :
    Mentions root v keys := by
  cases v with
  | merge => exact .layer hl h
  | _ => exact List.mem_singleton.1 hl ▸ h

/-- Merging brings no nodes to other places. -/
theorem of_withFallback (hv : v.WellFormed manner) (hw : w.WellFormed manner)
    (h : Mentions root (v.withFallback w) keys) : Mentions root v keys ∨ Mentions root w keys := by
  refine withFallback_cases (motive := fun v w u => ∀ keys, Mentions root u keys →
    Mentions root v keys ∨ Mentions root w keys) ?self ?fields ?closing ?waiting hv hw keys h
  case self => exact fun v w _ keys => .inl
  case fields =>
    intro p q p' c own other fs _ _ _ _ _ get merged keys h
    cases h with
    | here => exact .inl (.here _)
    | @field _ _ _ key u keys hu below =>
      rcases Entries.overlay_cases ((get key).symm.trans hu) with ha | hb | ⟨a, b, ha, hb, rfl⟩
      · exact .inl (.field ha below)
      · exact .inr (.field hb below)
      · exact (merged key a b ha hb keys below).imp (.field ha) (.field hb)
  case closing =>
    intro p own w _ _ _ keys h
    cases h with
    | here => exact .inl (.here _)
    | field get below => exact .inl (.field get below)
  case waiting =>
    intro v w _ _ _ keys h
    cases h with
    | here => exact .inl (.here _)
    | layer mem below => exact (List.mem_append.1 mem).imp (of_layers · below) (of_layers · below)

/-- Joining brings no nodes to other places. -/
theorem joinClosed (root v : Value) : JoinClosed fun w => w.WellFormed manner ∧ Settled none w
    ∧ ∀ keys, Mentions root w keys → Mentions root v keys where
  merged x y hx hy := by
    obtain ⟨wf, settled⟩ := Settled.joinClosed.merged x y ⟨hx.1, hx.2.1⟩ ⟨hy.1, hy.2.1⟩
    exact ⟨wf, settled, fun keys h => (of_withFallback hy.1 hx.1 h).elim (hy.2.2 keys) (hx.2.2 keys)⟩
  appended p q xs ys hx hy := by
    obtain ⟨wf, settled⟩ := Settled.joinClosed.appended p q xs ys ⟨hx.1, hx.2.1⟩ ⟨hy.1, hy.2.1⟩
    refine ⟨wf, settled, fun keys h => ?_⟩
    cases h with
    | here => exact .here v
  text x y t hx hy := by
    obtain ⟨wf, settled⟩ := Settled.joinClosed.text x y t ⟨hx.1, hx.2.1⟩ ⟨hy.1, hy.2.1⟩
    refine ⟨wf, settled, fun keys h => ?_⟩
    cases h with
    | here => exact .here v
  split p ps h := by
    cases h.2.1.isResolved

/-- What may come to be in a part may come to be in the whole, below the part. -/
theorem of_peek? {path : List String} (hu : w.peek? path = some u) (h : Mentions root u keys) :
    Mentions root w (path ++ keys) := by
  induction path generalizing w with
  | nil =>
    cases hu
    exact h
  | cons key path ih =>
    obtain ⟨p, c, fs, x, rfl, hx, below⟩ := exists_field_of_peek? hu
    exact .field hx (ih below)

end Mentions

/-! ### Tame trees -/

/-- The first path of the reference counts, or no node can come to be there. -/
def Decided (known : List String → Content) (root : Value) (r : Reference) : Prop :=
  r.included ≠ 0 → known r.target.path.keys = .absent → ¬ Mentions root root r.target.path.keys

/-- The outcome of a lookup in the tree does not depend on what was looked up before. -/
structure Tame (known : List String → Content) (root : Value) : Prop where
  /-- No reference depends on itself. -/
  acyclic : root.Acyclic
  meaning : IsMeaning known root
  /-- No merge puts an open object over something that is no object. -/
  calm : root.Calm known
  /-- References that were included know which of their paths counts. -/
  decided : ∀ p r, (reference p r).Within root → Decided known root r

variable {known : List String → Content}

theorem Acyclic.alike (h : root.Acyclic) (wf : root.WellFormed manner) {root' : Value}
    (like : root.Alike root') : root'.Acyclic := by
  obtain ⟨rank, h⟩ := h
  exact ⟨rank, fun s hs t ht => h s (like.mem_standings wf hs) t (like.mem_standings wf ht)⟩

/-- Neither marks nor the order of fields matter. -/
theorem Tame.alike (h : root.Tame known) (wf : root.WellFormed manner) {root' : Value}
    (like : root.Alike root') : root'.Tame known where
  acyclic := h.acyclic.alike wf like
  meaning path := by rw [like.content_eq, h.meaning path]
  calm := h.calm.alike wf like
  decided p r within included absent mentions := by
    obtain ⟨x, hx, like'⟩ := like.exists_within wf within
    cases like' with
    | reference =>
      exact h.decided _ r hx included absent ((mentions.alike_root wf like).alike wf like)

end Value

end Hocon
