import Hocon.Proofs.Relocation
import Mathlib.Data.List.Chain

/-!
# The shape of what waits

Two kinds of nodes wait for a reference although they are none: merges of layers and concatenations
of pieces.  The layers of a merge are at least two, none of them is a merge, and only the last may
hide what is below it; the pieces of a concatenation are at least two, none of them is joined or
merged, and of two neighbours one is a reference.  A resolution relies on both, and so does
rendering.

Merges come to be in all operations on trees, so their shape is an invariant of these
(`Value.Composed.shaped`).  Concatenations come to be where a document is read, and keep their
shape; only those are exempt that were joined from arbitrary trees later.
-/

namespace Hocon

open Value Document

namespace Value

def isReference : Value → Bool
  | reference _ _ => true
  | _ => false

/-! ### Layers and pieces -/

/-- What is at the top of a merge: an object if the merge counts as one, and otherwise something
that waits itself. -/
inductive Tops : MergeKind → Value → Prop
  | object (p : Provenance) (closed : Bool) (fs : Entries Value) : Tops .object (object p closed fs)
  | reference (p : Provenance) (r : Reference) : Tops .value (reference p r)
  | concat (p : Provenance) (ps : List Value) : Tops .value (concat p ps)
  | list (p : Provenance) {xs : List Value} (waits : itemsResolved xs = false) :
      Tops .value (list p xs)

/-- The layers of a merge. -/
structure MergeShape (k : MergeKind) (ls : List Value) : Prop where
  several : 2 ≤ ls.length
  flat : ∀ l ∈ ls, l.isMerge = false
  lasting : ∀ l ∈ ls.dropLast, l.ignoresFallbacks = false
  top : ∃ l, ls.head? = some l ∧ Tops k l

/-- The pieces of a concatenation. -/
structure PieceShape (ps : List Value) : Prop where
  several : 2 ≤ ps.length
  waits : ∃ x ∈ ps, x.isReference = true
  pieces : ∀ x ∈ ps, x.isPiece = true
  apart : ps.IsChain fun x y => x.isReference = true ∨ y.isReference = true

/-- What is to be shown of a merge of well formed layers. -/
structure Layered (ls : List Value) : Prop where
  several : 2 ≤ ls.length
  lasting : ∀ l ∈ ls.dropLast, l.ignoresFallbacks = false

/-- What only waits on top is no merge and does not hide what is below. -/
theorem tops_of_ignoresFallbacks {l : Value} (open_ : l.ignoresFallbacks = false)
    (flat : l.isMerge = false) : Tops (if l.isObjectValued then .object else .value) l := by
  cases l with
  | object p closed fs => exact .object p closed fs
  | reference p r => exact .reference p r
  | concat p ps => exact .concat p ps
  | list p xs => exact .list p open_
  | merge => cases flat
  | _ => cases open_

theorem Layered.mergeShape {k : MergeKind} {ls : List Value} (h : Layered ls)
    (stacked : Stacked k ls) : MergeShape k ls where
  several := h.several
  flat := stacked.flat
  lasting := h.lasting
  top := by
    match ls, h.several with
    | l :: l' :: ls, _ =>
      have above : l ∈ (l :: l' :: ls).dropLast := List.mem_cons_self
      refine ⟨l, rfl, ?_⟩
      rw [stacked.kind l rfl]
      exact tops_of_ignoresFallbacks (h.lasting l above) (stacked.flat l List.mem_cons_self)

/-! ### Trees of which all nodes have their shape -/

/-- What is asked of each node of a tree, where `joined` are the concatenations of arbitrary
trees. -/
def NodeShape (joined : Value → Prop) : Value → Prop
  | merge _ _ ls => Layered ls
  | concat p ps => PieceShape ps ∨ joined (concat p ps)
  | _ => True

/-- A well formed tree with nodes of the right shape. -/
structure Fit (joined : Value → Prop) (v : Value) : Prop where
  wellFormed : v.WellFormed .any
  nodes : ∀ u : Value, u.Within v → NodeShape joined u

namespace Fit

variable {joined : Value → Prop} {v w : Value}

theorem of_parts (wf : v.WellFormed .any) (node : NodeShape joined v)
    (parts : ∀ u ∈ v.parts, u.Fit joined) : v.Fit joined := by
  refine ⟨wf, fun u hu => ?_⟩
  cases hu with
  | self => exact node
  | part h hx => exact (parts _ hx).nodes u h

theorem parts (h : v.Fit joined) : ∀ u ∈ v.parts, u.Fit joined := fun u hu =>
  ⟨h.wellFormed.parts u hu, fun x hx => h.nodes x (.part hx hu)⟩

theorem node (h : v.Fit joined) : NodeShape joined v := h.nodes v .self

/-- What has no parts and does not wait is of any shape. -/
theorem leaf (wf : v.WellFormed .any) (parts : v.parts = []) (piece : v.isPiece = true) :
    v.Fit joined := by
  refine of_parts wf ?_ (by rw [parts]; exact List.forall_mem_nil _)
  cases v with
  | concat | merge => cases piece
  | _ => trivial

theorem object {p : Provenance} {closed : Bool} {fs : Entries Value}
    (nodup : (Entries.keys fs).Nodup) (fields : ∀ k u, (k, u) ∈ fs → u.Fit joined) :
    (Value.object p closed fs).Fit joined := by
  refine of_parts (.object (fun _ _ => trivial) closed nodup fun k u h => (fields k u h).wellFormed)
    trivial fun u hu => ?_
  obtain ⟨f, hf, rfl⟩ := List.mem_map.1 hu
  exact fields f.1 f.2 hf

theorem list {p : Provenance} {xs : List Value} (items : ∀ x ∈ xs, x.Fit joined) :
    (Value.list p xs).Fit joined :=
  of_parts (.list (fun _ _ => trivial) fun x hx => (items x hx).wellFormed) trivial items

theorem field {p : Provenance} {closed : Bool} {fs : Entries Value}
    (h : (Value.object p closed fs).Fit joined) {k : String} {u : Value}
    (hu : Entries.get? fs k = some u) : u.Fit joined :=
  h.parts u (mem_parts_of_mem_fields (Entries.mem_of_get? hu))

/-- Where nothing was joined from arbitrary trees, a tree fits all the more. -/
theorem of_unjoined (h : v.Fit fun _ => False) (joined : Value → Prop) : v.Fit joined := by
  refine ⟨h.wellFormed, fun u hu => ?_⟩
  have shape := h.nodes u hu
  cases u with
  | merge p k ls => exact shape
  | concat p ps => exact .inl (shape.resolve_right id)
  | _ => trivial

/-! ### Merging -/

theorem layers (h : v.Fit joined) : ∀ l ∈ v.layers, l.Fit joined := by
  intro l hl
  cases v with
  | merge p k ls => exact h.parts l hl
  | _ => exact List.mem_singleton.1 hl ▸ h

/-- Above the last layer that a value stands for, all takes fallbacks. -/
theorem lasting (h : v.Fit joined) : ∀ l ∈ v.layers.dropLast, l.ignoresFallbacks = false := by
  cases v with
  | merge p k ls => exact h.node.lasting
  | _ => exact List.forall_mem_nil _

/-- All layers of a value take fallbacks if the value does. -/
theorem ignoresFallbacks_of_layers (h : v.Fit joined) (open_ : v.ignoresFallbacks = false) :
    ∀ l ∈ v.layers, l.ignoresFallbacks = false := by
  cases v with
  | merge p k ls =>
    have last {xs : List Value} (present : xs ≠ []) :
        lastIgnoresFallbacks xs = (xs.getLast present).ignoresFallbacks := by
      induction xs with
      | nil => exact absurd rfl present
      | cons x xs ih =>
        cases xs with
        | nil => rfl
        | cons y ys => exact ih (List.cons_ne_nil _ _)
    have present : ls ≠ [] := List.ne_nil_of_length_pos (by have := h.node.several; omega)
    intro l hl
    rw [Value.layers, ← List.dropLast_append_getLast present] at hl
    rcases List.mem_append.1 hl with hl | hl
    · exact h.node.lasting l hl
    · rw [List.mem_singleton.1 hl, ← last present]
      exact open_
  | _ => exact List.forall_mem_singleton.2 open_

/-- The layers of a value that waits for its fallback. -/
theorem stack (hv : v.Fit joined) (hw : w.Fit joined) (open_ : v.ignoresFallbacks = false) :
    Layered (v.layers ++ w.layers) where
  several := by
    have := List.length_pos_iff.2 hv.wellFormed.layers_ne_nil
    have := List.length_pos_iff.2 hw.wellFormed.layers_ne_nil
    rw [List.length_append]
    omega
  lasting l hl := by
    rw [List.dropLast_append_of_ne_nil hw.wellFormed.layers_ne_nil] at hl
    rcases List.mem_append.1 hl with hl | hl
    · exact hv.ignoresFallbacks_of_layers open_ l hl
    · exact hw.lasting l hl

/-- **Merging** keeps the shape. -/
theorem withFallback (hv : v.Fit joined) (hw : w.Fit joined) : (v.withFallback w).Fit joined := by
  have wf := hv.wellFormed.withFallback hw.wellFormed
  refine withFallback_cases (motive := fun v w u => v.Fit joined → w.Fit joined →
    u.WellFormed .any → u.Fit joined)
    ?self ?fields ?closing ?waiting hv.wellFormed hw.wellFormed hv hw wf
  case self => exact fun v w _ hv _ _ => hv
  case fields =>
    intro p q p' c own other fs _ _ _ _ nodup get merged hv hw wf
    refine .object nodup fun k u hu => ?_
    have there := Entries.get?_of_mem nodup hu
    rcases Entries.overlay_cases ((get k).symm.trans there) with ha | hb | ⟨a, b, ha, hb, rfl⟩
    · exact hv.field ha
    · exact hw.field hb
    · exact merged k a b ha hb (hv.field ha) (hw.field hb) (wf.field there)
  case closing =>
    intro p own w _ _ _ hv _ wf
    exact .object wf.nodup fun k u hu => hv.parts u (mem_parts_of_mem_fields hu)
  case waiting =>
    intro v w open_ _ _ hv hw wf
    exact of_parts wf (hv.stack hw open_) fun l hl =>
      (List.mem_append.1 hl).elim (hv.layers l) (hw.layers l)

/-- What is joined from such trees is such a tree. -/
theorem joinClosed : JoinClosed (Fit joined) where
  merged _ _ hv hw := hw.withFallback hv
  appended _ _ _ _ hx hy := .list fun x hx' =>
    (List.mem_append.1 hx').elim (hx.parts x) (hy.parts x)
  text _ _ t _ _ := leaf (.string (fun _ _ => trivial) t true) rfl rfl
  split _ _ h := h.parts

theorem withOrigin (h : v.Fit fun _ => False) (o : Origin) :
    (v.withOrigin o).Fit fun _ => False := by
  have wf := h.wellFormed.withOrigin (fun _ _ _ => trivial) (o := o) (fun _ _ => trivial)
  cases v <;> exact of_parts wf h.node h.parts

end Fit

/-! ### Joining pieces -/

/-- Two pieces become one that is no reference, and neither of them was one; or one of them is a
reference. -/
theorem join?_isPiece {nullIsEmpty : Bool} {left right : Value} (hl : left.isPiece = true)
    (hr : right.isPiece = true) {result : Option Value}
    (h : join? nullIsEmpty left right = .ok result) :
    match result with
    | some u => u.isPiece = true ∧ left.isReference = false
    | none => left.isReference = true ∨ right.isReference = true := by
  unfold join? at h
  split at h
  · next objects =>
    -- two objects
    cases h
    obtain ⟨objects, objects'⟩ := Bool.and_eq_true_iff.1 objects
    have object {v : Value} (hv : v.isPiece = true) (h : v.isObjectValued = true) :
        ∃ p fs, v = .object p false fs := by
      cases v with
      | object p closed fs => exact ⟨p, fs, by simpa [isPiece] using hv⟩
      | merge => cases hv
      | _ => cases h
    obtain ⟨p, fs, rfl⟩ := object hl objects
    obtain ⟨q, fs', rfl⟩ := object hr objects'
    refine ⟨?_, rfl⟩
    rw [Value.withFallback, absorb?_object, if_neg Bool.false_ne_true]
    simp only []
    split <;> rfl
  · split at h
    · next hx _ =>
      cases h
      refine ⟨rfl, ?_⟩
      cases left <;> first | rfl | cases hx
    · split at h
      · next blank =>
        cases h
        refine ⟨hl, ?_⟩
        cases left <;> first | rfl | cases blank
      · split at h
        · next pending =>
          cases h
          have waits {v : Value} (hv : v.isPiece = true) (h : v.isPending = true) :
              v.isReference = true := by
            cases v with
            | reference => rfl
            | concat | merge => cases hv
            | _ => cases h
          exact (Bool.or_eq_true_iff.1 pending).imp (waits hl) (waits hr)
        · next pending =>
          split at h <;> cases h
          refine ⟨rfl, ?_⟩
          cases left <;> first | rfl | exact absurd rfl pending

/-- Joined pieces are pieces, and of two neighbours one is a reference. -/
theorem joinOnto_isPiece {nullIsEmpty : Bool} {todo done ws : List Value}
    (hd : ∀ x ∈ done, x.isPiece = true) (ht : ∀ x ∈ todo, x.isPiece = true)
    (apart : done.IsChain fun x y => x.isReference = true ∨ y.isReference = true)
    (h : joinOnto nullIsEmpty done todo = .ok ws) :
    (∀ w ∈ ws, w.isPiece = true)
      ∧ ws.IsChain fun x y => x.isReference = true ∨ y.isReference = true := by
  induction todo generalizing done with
  | nil =>
    cases h
    refine ⟨fun w hw => hd w (List.mem_reverse.1 hw), List.isChain_reverse.2 ?_⟩
    exact apart.imp fun _ _ => Or.symm
  | cons r todo ih =>
    obtain ⟨hr, ht⟩ := List.forall_mem_cons.1 ht
    cases done with
    | nil => exact ih (List.forall_mem_singleton.2 hr) ht (.singleton _) h
    | cons l before =>
      obtain ⟨hl, hbefore⟩ := List.forall_mem_cons.1 hd
      rw [joinOnto] at h
      split at h
      · cases h
      · next u hu =>
        -- the neighbour before is a reference, as the piece that was joined is none
        obtain ⟨piece, joined⟩ := join?_isPiece hl hr hu
        refine ih (List.forall_mem_cons.2 ⟨piece, hbefore⟩) ht ?_ h
        cases before with
        | nil => exact .singleton _
        | cons x before =>
          obtain ⟨near, rest⟩ := List.isChain_cons_cons.1 apart
          refine List.isChain_cons_cons.2 ⟨.inr (near.resolve_left ?_), rest⟩
          rw [joined]
          exact Bool.false_ne_true
      · next waits =>
        refine ih (List.forall_mem_cons.2 ⟨hr, hd⟩) ht (List.isChain_cons_cons.2 ⟨?_, apart⟩) h
        exact (join?_isPiece hl hr waits).symm

theorem flattenPieces_of_isPiece {ps : List Value} (h : ∀ x ∈ ps, x.isPiece = true) :
    flattenPieces ps = ps := by
  induction ps with
  | nil => rfl
  | cons x ps ih =>
    obtain ⟨hx, hps⟩ := List.forall_mem_cons.1 h
    rw [flattenPieces, List.flatMap_cons, ← flattenPieces, ih hps]
    cases x <;> first | rfl | cases hx

/-- Pieces that were read for themselves stay apart in the right shape. -/
theorem joinRun_pieceShape {nullIsEmpty : Bool} {ps ws : List Value}
    (h : ∀ x ∈ ps, x.isPiece = true) (hws : joinRun nullIsEmpty ps = .ok ws)
    (several : 2 ≤ ws.length) : PieceShape ws := by
  have joined : (∀ w ∈ ws, w.isPiece = true)
      ∧ ws.IsChain fun x y => x.isReference = true ∨ y.isReference = true := by
    unfold joinRun at hws
    split at hws
    · cases hws
      omega
    · rw [flattenPieces_of_isPiece h] at hws
      exact joinOnto_isPiece (List.forall_mem_nil _) h .nil hws
  refine ⟨several, ?_, joined.1, joined.2⟩
  match ws, several, joined.2 with
  | x :: y :: ws, _, apart =>
    obtain ⟨near, -⟩ := List.isChain_cons_cons.1 apart
    rcases near with h | h
    · exact ⟨x, List.mem_cons_self, h⟩
    · exact ⟨y, List.mem_cons_of_mem _ List.mem_cons_self, h⟩

/-- **Joining pieces.**  They were read for themselves, or what they are joined to is exempt. -/
theorem Fit.concatenate {joined : Value → Prop} {ps : List Value} {v : Value}
    (h : ∀ x ∈ ps, x.Fit joined)
    (pieces : (∀ x ∈ ps, x.isPiece = true) ∨ ∀ p qs, v = concat p qs → joined v)
    (hv : Value.concatenate ps = .ok (some v)) : v.Fit joined := by
  unfold Value.concatenate at hv
  split at hv
  · cases hv
  · cases hv
  · next w hw =>
    cases hv
    exact joinClosed.joinRun h hw _ List.mem_cons_self
  · next ws none one hws =>
    have fits := joinClosed.joinRun h hws
    cases hv
    have several : 2 ≤ ws.length := by
      match ws with
      | [] => exact absurd rfl none
      | [w] => exact absurd rfl (one w)
      | _ :: _ :: _ => simp
    refine of_parts (.concat (fun _ _ => trivial) trivial fun x hx => (fits x hx).wellFormed) ?_ fits
    exact pieces.imp (fun pieces => joinRun_pieceShape pieces hws several) fun exempt =>
      exempt _ _ rfl

/-! ### Moving -/

/-- The parts of a tree are moved with it. -/
theorem parts_relocate (v : Value) (place : Path) :
    (v.relocate place).parts = v.parts.map (relocate place) := by
  cases v with
  | object p closed fs =>
    obtain ⟨q, eq, -⟩ := exists_relocate_object p closed fs place
    rw [eq, relocateFields_eq]
    simp only [Value.parts, List.map_map, Function.comp_def]
  | list p xs =>
    obtain ⟨q, eq, -⟩ := exists_relocate_list p xs place
    rw [eq, relocateItems_eq]
    rfl
  | concat p ps => rw [relocate, relocateItems_eq]; rfl
  | merge p k ls => rw [relocate, relocateItems_eq]; rfl
  | _ => unfold relocate; rfl

theorem isPiece_relocate (v : Value) (place : Path) : (v.relocate place).isPiece = v.isPiece := by
  cases v <;> unfold relocate <;> first | rfl | (split <;> rfl)

theorem isReference_relocate (v : Value) (place : Path) :
    (v.relocate place).isReference = v.isReference := by
  cases v <;> unfold relocate <;> first | rfl | (split <;> rfl)

/-- What is moved waits for as much as before. -/
theorem isResolved_relocate (v : Value) (place : Path) :
    (v.relocate place).isResolved = v.isResolved := by
  induction v using parts_induction with
  | node v ih =>
    rw [Bool.eq_iff_iff, isResolved_iff, isResolved_iff, parts_relocate, isPending_relocate,
      List.forall_mem_map]
    refine and_congr_right fun _ => forall₂_congr fun u hu => ?_
    rw [ih u hu]

theorem ignoresFallbacks_relocate (v : Value) (place : Path) :
    (v.relocate place).ignoresFallbacks = v.ignoresFallbacks := by
  induction v using parts_induction with
  | node v ih =>
    cases v with
    | object p closed fs =>
      obtain ⟨q, eq, -⟩ := exists_relocate_object p closed fs place
      rw [eq]
      rfl
    | list p xs =>
      have := isResolved_relocate (Value.list p xs) place
      obtain ⟨q, eq, -⟩ := exists_relocate_list p xs place
      rw [eq] at this ⊢
      exact this
    | merge p k ls =>
      rw [relocate, relocateItems_eq]
      show lastIgnoresFallbacks (ls.map (relocate place)) = lastIgnoresFallbacks ls
      replace ih : ∀ l ∈ ls, (l.relocate place).ignoresFallbacks = l.ignoresFallbacks := ih
      induction ls with
      | nil => rfl
      | cons l ls ihls =>
        obtain ⟨hl, hls⟩ := List.forall_mem_cons.1 ih
        cases ls with
        | nil => exact hl
        | cons l' ls => exact ihls hls
    | _ => unfold relocate; rfl

theorem WellFormed.relocate_any {v : Value} (h : v.WellFormed .any) (place : Path) :
    (v.relocate place).WellFormed .any := by
  induction v using parts_induction with
  | node v ih =>
    have parts : ∀ u ∈ (v.relocate place).parts, u.WellFormed .any := by
      rw [parts_relocate]
      exact List.forall_mem_map.2 fun u hu => ih u hu (h.parts u hu)
    cases v with
    | object p closed fs =>
      obtain ⟨q, eq, -⟩ := exists_relocate_object p closed fs place
      rw [eq] at parts ⊢
      refine .object (fun _ _ => trivial) closed ?_ fun k u hu =>
        parts u (mem_parts_of_mem_fields (c := closed) hu)
      rw [relocateFields_eq]
      simpa only [Entries.keys, List.map_map, Function.comp_def] using h.nodup
    | list p xs =>
      obtain ⟨q, eq, -⟩ := exists_relocate_list p xs place
      rw [eq] at parts ⊢
      exact .list (fun _ _ => trivial) parts
    | reference p r =>
      rw [relocate]
      exact .reference (fun _ _ => trivial) trivial
    | concat p ps =>
      rw [relocate] at parts ⊢
      exact .concat (fun _ _ => trivial) trivial parts
    | merge p k ls =>
      have stacked : Stacked k ls := by
        cases h with
        | merge _ stacked _ => exact stacked
      rw [relocate] at parts ⊢
      refine .merge (fun _ _ => trivial) ?_ parts
      rw [relocateItems_eq]
      exact stacked.relocate place
    | _ => unfold relocate; exact h

/-- **Moving** keeps the shape. -/
theorem Fit.relocate {joined : Value → Prop}
    (moved : ∀ u place, joined u → joined (u.relocate place)) {v : Value} (h : v.Fit joined)
    (place : Path) : (v.relocate place).Fit joined := by
  induction v using parts_induction with
  | node v ih =>
    refine of_parts (h.wellFormed.relocate_any place) ?_ ?_
    · have node := h.node
      cases v with
      | object p closed fs =>
        obtain ⟨q, eq, -⟩ := exists_relocate_object p closed fs place
        rw [eq]
        trivial
      | list p xs =>
        obtain ⟨q, eq, -⟩ := exists_relocate_list p xs place
        rw [eq]
        trivial
      | concat p ps =>
        have exempt := moved (Value.concat p ps) place
        rw [Value.relocate, relocateItems_eq] at exempt ⊢
        refine Or.imp (fun shape : PieceShape ps => ?_) exempt node
        refine ⟨by simpa using shape.several, ?_, ?_, ?_⟩
        · obtain ⟨x, hx, waits⟩ := shape.waits
          exact ⟨_, List.mem_map_of_mem hx, (isReference_relocate x place).trans waits⟩
        · exact List.forall_mem_map.2 fun x hx =>
            (isPiece_relocate x place).trans (shape.pieces x hx)
        · refine (List.isChain_map _).2 (shape.apart.imp fun x y h => ?_)
          rwa [isReference_relocate, isReference_relocate]
      | merge p k ls =>
        rw [Value.relocate, relocateItems_eq]
        have shape : Layered ls := node
        refine ⟨by simpa using shape.several, ?_⟩
        rw [← List.map_dropLast]
        exact List.forall_mem_map.2 fun l hl =>
          (ignoresFallbacks_relocate l place).trans (shape.lasting l hl)
      | _ => unfold Value.relocate; trivial
    · rw [parts_relocate]
      exact List.forall_mem_map.2 fun u hu => ih u hu (h.parts u hu)

/-! ### Edits -/

namespace Fit

variable {joined : Value → Prop} {v new : Value}

theorem withFields (v : Value) {fs : Entries Value} (nodup : (Entries.keys fs).Nodup)
    (fields : ∀ k u, (k, u) ∈ fs → u.Fit joined) : (v.withFields fs).Fit joined :=
  .object nodup fields

theorem atKeys (h : v.Fit joined) (keys : List String) : (v.atKeys keys).Fit joined := by
  induction keys with
  | nil => exact h
  | cons key keys ih =>
    refine .object (List.nodup_singleton key) fun k u hu => ?_
    cases List.mem_singleton.1 hu
    exact ih

/-- Fields of which one is replaced. -/
theorem withFields_put (v : Value) {p : Provenance} {closed : Bool} {fs : Entries Value}
    (h : (Value.object p closed fs).Fit joined) (key : String) {u : Value} (hu : u.Fit joined) :
    (v.withFields (Entries.put fs key u)).Fit joined := by
  have nodup := Entries.nodup_keys_put h.wellFormed.nodup key u
  refine withFields v nodup fun k x hx => ?_
  have there := Entries.get?_of_mem nodup hx
  rw [Entries.get?_put] at there
  split at there
  · cases there
    exact hu
  · exact h.field there

theorem onlyKeys? (h : v.Fit joined) {keys : List String} {u : Value}
    (hu : v.onlyKeys? keys = some u) : u.Fit joined := by
  induction keys generalizing v u with
  | nil =>
    cases hu
    exact h
  | cons key keys ih =>
    simp only [Value.onlyKeys?, Option.bind_eq_bind, Option.bind_eq_some_iff, Option.pure_def,
      Option.some.injEq] at hu
    obtain ⟨fs, hfs, child, there, kept, hkept, rfl⟩ := hu
    obtain ⟨p, closed, rfl⟩ := eq_object_of_fields? hfs
    refine withFields _ (List.nodup_singleton key) fun k x hx => ?_
    cases List.mem_singleton.1 hx
    exact ih (h.field there) hkept

theorem withOnlyPath (h : v.Fit joined) (path : Path) : (v.withOnlyPath path).Fit joined := by
  unfold Value.withOnlyPath
  cases hu : v.onlyKeys? path.keys with
  | none => exact withFields v List.nodup_nil nofun
  | some u => exact h.onlyKeys? hu

theorem withoutKeys (h : v.Fit joined) (keys : List String) : (v.withoutKeys keys).Fit joined := by
  induction keys generalizing v with
  | nil => exact h
  | cons key keys ih =>
    unfold Value.withoutKeys
    split
    · next p closed fs =>
      split
      · exact h
      · -- the key itself goes
        have sub : (Entries.drop fs key).Sublist fs := Entries.drop_sublist fs key
        exact withFields _ (h.wellFormed.nodup.sublist (sub.map _)) fun k u hu =>
          h.parts u (mem_parts_of_mem_fields (sub.subset hu))
      · next child next keys there =>
        split
        · exact h
        · exact withFields_put _ h key (ih (h.field there))
    · exact h

theorem withKeysValue (h : v.Fit joined) (hnew : new.Fit joined) (keys : List String) :
    (v.withKeysValue new keys).Fit joined := by
  induction keys generalizing v with
  | nil => exact hnew
  | cons key keys ih =>
    unfold Value.withKeysValue
    -- a value without fields is treated like an empty object
    obtain ⟨p, closed, hf⟩ : ∃ p closed, (Value.object p closed (v.fields?.getD [])).Fit joined := by
      cases hf : v.fields? with
      | none => exact ⟨{ origin := v.origin }, false, .object List.nodup_nil nofun⟩
      | some fs =>
        obtain ⟨p, closed, rfl⟩ := eq_object_of_fields? hf
        exact ⟨p, closed, h⟩
    refine withFields_put v hf key ?_
    split
    · next there => exact ih (hf.field there)
    · exact hnew.atKeys keys

end Fit

end Value

/-! ### Documents that include nothing -/

namespace Document

/-- A document is read although no include statement is answered: there is none in it. -/
def StandsAlone (d : Document) (files : FileTree) (o : ParseOptions) : Prop :=
  ∀ text, d.content files = .ok text → d.syntaxFor o ≠ .properties →
    let refuse (r : IncludeRequest) : Loading Value :=
      throw (.notIncluded (.named r.name) (.notAnObject r.name))
    ∃ v m, (read (d.syntaxFor o) (d.originFor o) refuse text).run.run [] = (.ok v, m)

theorem standsAlone_ofText {text : String} (h : IncludesNothing text) (files : FileTree) :
    (ofText text).StandsAlone files {} := by
  rintro _ ⟨⟩ _
  obtain ⟨v, hv⟩ := h
  exact ⟨v, _, Prod.ext hv rfl⟩

/-- The tree of a document that includes nothing has each property that the grammar keeps. -/
theorem grammatical_load {P : Value → Prop} [grammatical : Grammatical P] {files : FileTree}
    {shelves : Nat} {d : Document} {o : ParseOptions} (alone : d.StandsAlone files o) {v : Value}
    (hv : ((d.load files shelves o).run.run []).1 = .ok v) : P v := by
  have lines := commented_originFor d o
  have root {w : Value} (hw : P w) (h : checkRoot (d.originFor o) w = .ok v) : P v := by
    unfold checkRoot at h
    split at h <;> cases h
    exact hw
  rw [load] at hv
  split at hv
  · split at hv
    · split at hv
      · cases hv
        exact grammatical.fields lines List.nodup_nil (by rintro _ _ ⟨⟩)
      · cases hv
    · next text content =>
      simp only [] at hv
      split at hv
      · cases hr : Properties.read (d.originFor o) text with
        | error e => rw [hr] at hv; cases hv
        | ok w =>
          rw [hr] at hv
          exact root (Properties.grammatical_read lines hr).1 hv
      · next properties =>
        obtain ⟨w, m, hw⟩ := alone text content properties
        -- what is read with includes refused is read with any answers
        obtain ⟨fits, same⟩ :=
          (tracks_read (P := P) (fun _ => Fails.throw.tracks) lines text).eq hw
        simp only [ExceptT.run_bind, StateT.run_bind] at hv
        rw [same] at hv
        exact root fits.1 hv
  · cases hv

/-- A document that includes nothing has nodes of the right shape. -/
instance grammatical_fit : Grammatical fun v => v.FromDocument ∧ v.Fit (fun _ => False) where
  lines h := h.1.wellFormed.lines
  parts h u hu := ⟨h.1.parts u hu, h.2.parts u hu⟩
  literal {o} lines literal genuine := by
    have text : (literalValue o literal).FromDocument := FromText.literalValue lines genuine
    cases literal <;> exact ⟨text, .leaf text.wellFormed.any rfl rfl⟩
  bare {o} lines t :=
    have text : (bareText o t).FromDocument := FromText.bareText lines t
    ⟨text, .leaf text.wellFormed.any rfl rfl⟩
  reference {o} lines target :=
    have text : (ofReference o target).FromDocument := FromText.ofReference lines target
    ⟨text, .leaf text.wellFormed.any rfl rfl⟩
  fields lines _ nodup fields :=
    ⟨.ofFields rfl lines nodup fun k u h => (fields k u h).1,
      .object nodup fun k u h => (fields k u h).2⟩
  items lines _ items :=
    ⟨.ofItems lines fun x hx => (items x hx).1, .list fun x hx => (items x hx).2⟩
  concatenate pieces _ h :=
    ⟨FromText.concatenate (fun x hx => (pieces x hx).1.1) h,
      Fit.concatenate (fun x hx => (pieces x hx).1.2) (.inl fun x hx => (pieces x hx).2) h⟩
  withFallback hv hw := ⟨hv.1.withFallback hw.1, hv.2.withFallback hw.2⟩
  withComments h _ lines := by
    refine ⟨h.1.withComments lines, ?_⟩
    unfold withComments
    split
    · exact h.2
    · exact h.2.withOrigin _

end Document

/-! ### Trees that are put together from documents -/

/-- The tree of a text or a file that includes nothing, read in any way. -/
inductive Value.ParsedAlone (v : Value) : Prop
  | text (files : FileTree) (o : ParseOptions) (text : String)
      (alone : (Document.ofText text).StandsAlone files o)
      (parsed : ((parseText files o text).run.run []).1 = .ok v) : ParsedAlone v
  | file (files : FileTree) (o : ParseOptions) (name : String)
      (alone : (Document.ofFile name).StandsAlone files o)
      (parsed : ((parseFile files o name).run.run []).1 = .ok v) : ParsedAlone v

theorem Value.ParsedAlone.fit {v : Value} (h : v.ParsedAlone) : v.Fit fun _ => False := by
  have fit {x : Loading Value} {d : Document} {files : FileTree} {o : ParseOptions}
      (alone : d.StandsAlone files o) (loads : x = d.load files o.shelfDepth o)
      (parsed : (x.run.run []).1 = .ok v) : v.Fit fun _ => False := by
    subst loads
    exact (Document.grammatical_load (P := fun v => v.FromDocument ∧ v.Fit fun _ => False)
      alone parsed).2
  cases h with
  | text files o text alone parsed => exact fit alone rfl parsed
  | file files o name alone parsed => exact fit alone rfl parsed

/-- A tree that comes from documents by merging, moving, editing and joining; `joined` has the
concatenations that joining made. -/
inductive Value.Composed (joined : Value → Prop) : Value → Prop
  | parsed {v : Value} (h : v.ParsedAlone) : Composed joined v
  | withFallback {v w : Value} (hv : Composed joined v) (hw : Composed joined w) :
      Composed joined (v.withFallback w)
  | relocate {v : Value} (h : Composed joined v) (place : Path) :
      Composed joined (v.relocate place)
  | atPath {v : Value} (h : Composed joined v) (path : Path) : Composed joined (v.atPath path)
  | withOnlyPath {v : Value} (h : Composed joined v) (path : Path) :
      Composed joined (v.withOnlyPath path)
  | withoutPath {v : Value} (h : Composed joined v) (path : Path) :
      Composed joined (v.withoutPath path)
  | withValueAt {v new : Value} (h : Composed joined v) (path : Path)
      (hnew : Composed joined new) : Composed joined (v.withValueAt path new)
  | concatenate {ps : List Value} (pieces : ∀ x ∈ ps, Composed joined x) {v : Value}
      (h : Value.concatenate ps = .ok (some v)) (made : ∀ p qs, v = concat p qs → joined v) :
      Composed joined v

section

variable {joined : Value → Prop} {v : Value}

theorem Value.Composed.fit (moved : ∀ u place, joined u → joined (u.relocate place))
    (h : v.Composed joined) : v.Fit joined := by
  induction h with
  | parsed h => exact h.fit.of_unjoined joined
  | withFallback _ _ ihv ihw => exact ihv.withFallback ihw
  | relocate _ place ih => exact ih.relocate moved place
  | atPath _ path ih => exact ih.atKeys path.keys
  | withOnlyPath _ path ih => exact ih.withOnlyPath path
  | withoutPath _ path ih => exact ih.withoutKeys path.keys
  | withValueAt _ path _ ih ihnew => exact ih.withKeysValue ihnew path.keys
  | concatenate _ hv made ih => exact Fit.concatenate ih (.inr made) hv

/-- **The shape of what waits.**  In a tree that comes from documents in any way, each merge has
at least two layers; none of them is a merge, only the last may hide what is below it, and the
first is an object or waits itself.  Each concatenation that was read, and not joined later, has at
least two pieces and a reference among them; none of them is joined or merged, and of two
neighbours one is a reference. -/
theorem Value.Composed.shaped (moved : ∀ u place, joined u → joined (u.relocate place))
    (h : v.Composed joined) :
    (∀ p k ls, (merge p k ls).Within v → MergeShape k ls)
      ∧ ∀ p ps, (concat p ps).Within v → PieceShape ps ∨ joined (concat p ps) := by
  have fit := h.fit moved
  refine ⟨fun p k ls hu => ?_, fun p ps hu => fit.nodes _ hu⟩
  have layered : Layered ls := fit.nodes _ hu
  cases fit.wellFormed.within hu with
  | merge _ stacked _ => exact layered.mergeShape stacked

end

/-- Two documents over each other, moved under a path: an object waits there for what is below
it, and two references stand beside a text. -/
theorem Value.Composed.shaped_fallback :
    ∃ v w : Value, v.ParsedAlone ∧ w.ParsedAlone
      ∧ (∃ u ∈ (v.withFallback w).parts, u.isMerge = true)
      ∧ (∀ p k ls, (merge p k ls).Within ((v.withFallback w).relocate (.ofKey "k")) →
          MergeShape k ls)
      ∧ ∀ p ps, (concat p ps).Within ((v.withFallback w).relocate (.ofKey "k")) →
          PieceShape ps ∨ False := by
  have alone (text : String)
      (h : (Document.readAlone text).toOption.any (·.fields?.isSome) = true) :
      ∃ v, Document.readAlone text = .ok v ∧ v.ParsedAlone := by
    obtain ⟨v, hv, nothing⟩ := Document.exists_parsed {} h
    exact ⟨v, (Document.parseText_spec hv nothing).1,
      .text {} {} text (Document.standsAlone_ofText nothing {}) hv⟩
  obtain ⟨v, readV, hv⟩ := alone "a = {x = 1}, b = ${c} in ${d}" (by decide +kernel)
  obtain ⟨w, readW, hw⟩ := alone "a = ${e}" (by decide +kernel)
  have composed : ((v.withFallback w).relocate (.ofKey "k")).Composed fun _ => False :=
    .relocate (.withFallback (.parsed hv) (.parsed hw)) (.ofKey "k")
  refine ⟨v, w, hv, hw, ?_, composed.shaped fun _ _ => id⟩
  have waits : (Document.readAlone "a = {x = 1}, b = ${c} in ${d}").toOption.any
      (fun v => (Document.readAlone "a = ${e}").toOption.any fun w =>
        (v.withFallback w).parts.any isMerge) = true := by decide +kernel
  rw [readV, readW] at waits
  exact List.any_eq_true.1 waits

end Hocon
