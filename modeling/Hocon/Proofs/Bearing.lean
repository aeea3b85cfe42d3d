import Hocon.Proofs.Fieldwise
import Hocon.Proofs.Merging
import Hocon.Proofs.Relabelling
import Hocon.Proofs.RoundTrip
import Hocon.Proofs.SameShape
import Hocon.Proofs.Shapes

/-!
# Nodes that stay as they are

A node of a tree stays as it is while more is put beside it, as long as all that comes misses the
path to it: what comes holds nothing at the path and nothing but objects on the way
(`Value.Misses`).  `Value.Bears` says that a tree has such a node, of whatever kind, and that more
may be put over the objects that lead to it.  It lasts when trees are merged (`Bears.over`,
`Bears.under`) and when neighbours are joined (`PiecesBear.concatenate`).
-/

namespace Hocon

namespace Value

/-- The keys that steps start with, up to the first list. -/
def leadingKeys : List TreeStep → List String
  | .field key :: steps => key :: leadingKeys steps
  | _ => []

@[simp] theorem leadingKeys_fields (keys : List String) (steps : List TreeStep) :
    leadingKeys (keys.map .field ++ steps) = keys ++ leadingKeys steps := by
  induction keys with
  | nil => rfl
  | cons key keys ih =>
    rw [List.map_cons, List.cons_append, leadingKeys, ih]
    rfl

@[simp] theorem leadingKeys_map (keys : List String) : leadingKeys (keys.map .field) = keys := by
  have whole := leadingKeys_fields keys []
  rwa [List.append_nil, show leadingKeys [] = [] from rfl, List.append_nil] at whole

/-- An object that is open to more, with nothing at the path and only such objects on the way. -/
def Misses : Value → List String → Prop
  | _, [] => False
  | v, key :: keys => ∃ p fs, v = object p false fs ∧ (Entries.keys fs).Nodup
    ∧ ∀ u, Entries.get? fs key = some u → u.Misses keys

/-- The steps lead to a node with a property, through objects that are open to more. -/
inductive Bears (P : Value → Prop) : Value → List TreeStep → Prop
  | here {v : Value} (h : P v) : Bears P v []
  | field {p : Provenance} {fs : Entries Value} {key : String} {u : Value} {steps : List TreeStep}
      (nodup : (Entries.keys fs).Nodup) (get : Entries.get? fs key = some u)
      (h : Bears P u steps) : Bears P (object p false fs) (.field key :: steps)
  | item {p : Provenance} {xs : List Value} {i : Nat} {u : Value} {steps : List TreeStep}
      (get : xs[i]? = some u) (h : Bears P u steps) : Bears P (list p xs) (.item i :: steps)

variable {P : Value → Prop} {v w : Value} {p q : Provenance} {fs gs : Entries Value}
  {steps : List TreeStep} {keys path : List String}

theorem Bears.exists_at? (h : v.Bears P steps) : ∃ u, v.at? steps = some u ∧ P u := by
  induction h with
  | here h => exact ⟨_, rfl, h⟩
  | field nodup get h ih =>
    obtain ⟨u, at_, hu⟩ := ih
    exact ⟨u, by rw [at?, child?, get]; exact at_, hu⟩
  | item get h ih =>
    obtain ⟨u, at_, hu⟩ := ih
    exact ⟨u, by rw [at?, child?, get]; exact at_, hu⟩

/-! ### Objects by their fields -/

theorem Misses.ne_nil (h : v.Misses path) : path ≠ [] := by
  rintro rfl
  exact h

/-- Only the fields of an object matter. -/
theorem Misses.congr (h : (object p false fs).Misses path)
    (get : ∀ k, Entries.get? gs k = Entries.get? fs k) (nodup : (Entries.keys gs).Nodup) :
    (object q false gs).Misses path := by
  cases path with
  | nil => exact h
  | cons key path =>
    obtain ⟨_, _, ⟨⟩, -, below⟩ := h
    exact ⟨_, _, rfl, nodup, fun u hu => below u (get key ▸ hu)⟩

theorem Bears.congr {key : String} (h : (object p false fs).Bears P (.field key :: steps))
    (get : ∀ k, Entries.get? gs k = Entries.get? fs k) (nodup : (Entries.keys gs).Nodup) :
    (object q false gs).Bears P (.field key :: steps) := by
  cases h with
  | field _ here h => exact .field nodup ((get key).trans here) h

theorem misses_nil (present : path ≠ []) : (object p false []).Misses path := by
  cases path with
  | nil => exact absurd rfl present
  | cons => exact ⟨_, _, rfl, .nil, nofun⟩

theorem Bears.withProv {step : TreeStep} (h : v.Bears P (step :: steps)) (p : Provenance) :
    (v.withProv p).Bears P (step :: steps) := by
  cases h with
  | field nodup get h => exact .field nodup get h
  | item get h => exact .item get h

theorem Bears.withComments {step : TreeStep} (h : v.Bears P (step :: steps))
    (comments : List String) : (Document.withComments v comments).Bears P (step :: steps) := by
  unfold Document.withComments
  split
  · exact h
  · exact h.withProv _

/-- Labels do not matter. -/
theorem Misses.sameTree (h : w.Misses path) (same : v.SameTree w) : v.Misses path := by
  induction path generalizing v w with
  | nil => exact h
  | cons key path ih =>
    obtain ⟨p, gs, rfl, nodup, below⟩ := h
    obtain ⟨q, fs, rfl, fields⟩ : ∃ q fs, v = object q false fs ∧ SameEntries fs gs := by
      have whole : v.unplaced = .object _ false (Entries.mapValues unplaced gs) :=
        same.trans (relabel_object ..)
      cases v with
      | object q closed fs =>
        rw [unplaced, relabel_object] at whole
        injection whole with _ closed fields
        subst closed
        exact ⟨q, fs, rfl, fields⟩
      | _ => cases whole
    refine ⟨q, fs, rfl, ?_, fun u hu => ?_⟩
    · rwa [← Entries.keys_mapValues unplaced fs, show Entries.mapValues unplaced fs = _ from fields,
        Entries.keys_mapValues]
    · have both := congrArg (Entries.get? · key) fields
      simp only [Entries.get?_mapValues, hu, Option.map_some] at both
      obtain ⟨u', hu', eq⟩ := Option.map_eq_some_iff.1 both.symm
      exact ih (below u' hu') (Eq.symm eq)

/-! ### Merging -/

/-- Trees that miss a path do so over each other. -/
theorem Misses.withFallback (hv : v.Misses path) (hw : w.Misses path) :
    (v.withFallback w).Misses path := by
  induction path generalizing v w with
  | nil => exact hv
  | cons key path ih =>
    obtain ⟨p, own, rfl, own_nodup, own_below⟩ := hv
    obtain ⟨q, other, rfl, other_nodup, other_below⟩ := hw
    obtain ⟨p', fs, eq, -, -, nodup, get⟩ := withFallback_object own_nodup other_nodup p q false
    refine eq ▸ ⟨p', fs, rfl, nodup, fun u hu => ?_⟩
    rcases Entries.overlay_cases ((get key).symm.trans hu) with ha | hb | ⟨a, b, ha, hb, rfl⟩
    · exact own_below u ha
    · exact other_below u hb
    · exact ih (own_below a ha) (other_below b hb)

/-- What misses the path to a node may be put underneath. -/
theorem Bears.over (hv : v.Bears P steps) (hw : w.Misses (leadingKeys steps)) :
    (v.withFallback w).Bears P steps := by
  induction hv generalizing w with
  | here => exact hw.elim
  | item => exact hw.elim
  | @field p own key u steps own_nodup here h ih =>
    obtain ⟨q, other, rfl, other_nodup, below⟩ := hw
    obtain ⟨p', fs, eq, -, -, nodup, get⟩ := withFallback_object own_nodup other_nodup p q false
    rw [eq]
    have merged := get key
    rw [here] at merged
    cases there : Entries.get? other key with
    | none =>
      rw [there] at merged
      exact .field nodup merged h
    | some b =>
      rw [there] at merged
      exact .field nodup merged (ih (below b there))

/-- What misses the path to a node may be put on top. -/
theorem Bears.under (hw : w.Bears P steps) (hv : v.Misses (leadingKeys steps)) :
    (v.withFallback w).Bears P steps := by
  induction hw generalizing v with
  | here => exact hv.elim
  | item => exact hv.elim
  | @field q other key u steps other_nodup there h ih =>
    obtain ⟨p, own, rfl, own_nodup, below⟩ := hv
    obtain ⟨p', fs, eq, -, -, nodup, get⟩ := withFallback_object own_nodup other_nodup p q false
    rw [eq]
    have merged := get key
    rw [there] at merged
    cases here : Entries.get? own key with
    | none =>
      rw [here] at merged
      exact .field nodup merged h
    | some a =>
      rw [here] at merged
      exact .field nodup merged (ih (below a here))

/-! ### Putting fields -/

open Document (includeFields nest)

/-- A field is put over others as an object of one field over an object. -/
theorem withFallback_includeField (nodup : (Entries.keys fs).Nodup) (key : String) (v : Value) :
    ∃ p' gs, (object p false [(key, v)]).withFallback (object q false fs) = object p' false gs
      ∧ (∀ k, Entries.get? (includeFields fs [(key, v)]) k = Entries.get? gs k)
      ∧ (Entries.keys (includeFields fs [(key, v)])).Nodup := by
  have single : (Entries.keys [(key, v)]).Nodup := List.nodup_singleton key
  obtain ⟨p', gs, eq, -, -, -, get⟩ := withFallback_object single nodup p q false
  refine ⟨p', gs, eq, fun k => ?_, Entries.nodup_keys_put nodup _ _⟩
  rw [get, Entries.get?]
  show Entries.get? (Entries.put fs key _) k = _
  rw [Entries.get?_put]
  by_cases same : k = key
  · subst same
    rw [if_pos rfl, if_pos rfl]
    cases Entries.get? fs k <;> rfl
  · rw [if_neg same, if_neg (Ne.symm same)]
    rfl

theorem Misses.includeField {key : String} (hfs : (object q false fs).Misses path)
    (hv : (object p false [(key, v)]).Misses path) :
    (object q false (includeFields fs [(key, v)])).Misses path := by
  obtain ⟨first, path, rfl⟩ := List.exists_cons_of_ne_nil hfs.ne_nil
  obtain ⟨_, _, ⟨⟩, nodup, -⟩ := id hfs
  obtain ⟨p', gs, eq, get, nodup⟩ := withFallback_includeField (p := p) (q := q) nodup key v
  exact Misses.congr (eq ▸ hv.withFallback hfs) get nodup

theorem Bears.includeField {key first : String}
    (hfs : (object q false fs).Bears P (.field first :: steps))
    (hv : (object p false [(key, v)]).Misses (leadingKeys (.field first :: steps))) :
    (object q false (includeFields fs [(key, v)])).Bears P (.field first :: steps) := by
  have nodup : (Entries.keys fs).Nodup := by
    cases hfs
    assumption
  obtain ⟨p', gs, eq, get, nodup⟩ := withFallback_includeField (p := p) (q := q) nodup key v
  exact Bears.congr (eq ▸ hfs.under hv) get nodup

theorem Bears.includedField {key first : String}
    (hv : (object p false [(key, v)]).Bears P (.field first :: steps))
    (hfs : (object q false fs).Misses (leadingKeys (.field first :: steps))) :
    (object q false (includeFields fs [(key, v)])).Bears P (.field first :: steps) := by
  obtain ⟨_, _, ⟨⟩, nodup, -⟩ := id hfs
  obtain ⟨p', gs, eq, get, nodup⟩ := withFallback_includeField (p := p) (q := q) nodup key v
  exact Bears.congr (eq ▸ hv.over hfs) get nodup

theorem Bears.nest (h : v.Bears P steps) (keys : List String) :
    (nest v keys).Bears P (keys.map .field ++ steps) := by
  induction keys with
  | nil => exact h
  | cons key keys ih => exact .field (List.nodup_singleton key) (if_pos rfl) ih

theorem Misses.nest (h : v.Misses path) (keys : List String) :
    (nest v keys).Misses (keys ++ path) := by
  induction keys with
  | nil => exact h
  | cons key keys ih =>
    refine ⟨_, _, rfl, List.nodup_singleton key, fun u hu => ?_⟩
    obtain rfl : Document.nest v keys = u := Option.some.inj ((if_pos rfl).symm.trans hu)
    exact ih

/-- Neither path leads to the other. -/
def Diverge (keys path : List String) : Prop := ¬ keys <+: path ∧ ¬ path <+: keys

/-- Whatever is put elsewhere misses a path. -/
theorem misses_nest_of_diverge (h : Diverge keys path) (v : Value) : (nest v keys).Misses path := by
  induction keys generalizing path with
  | nil => exact absurd (List.nil_prefix) h.1
  | cons key keys ih =>
    cases path with
    | nil => exact absurd (List.nil_prefix) h.2
    | cons first path =>
      refine ⟨_, _, rfl, List.nodup_singleton key, fun u hu => ?_⟩
      rw [Entries.get?] at hu
      split at hu
      · next same =>
        subst same
        cases hu
        refine ih ⟨fun le => h.1 ?_, fun le => h.2 ?_⟩
        · exact (List.prefix_cons_inj key).2 le
        · exact (List.prefix_cons_inj key).2 le
      · cases hu

/-! ### Joining -/

/-- A neighbour that leaves alone what the steps lead to: it misses the path through objects, or it
is another part of a list. -/
def Beside (v : Value) : List TreeStep → Prop
  | [] => False
  | .field key :: steps => v.Misses (key :: leadingKeys steps)
  | .item _ :: _ => v.items?.isSome = true

/-- The steps as they are behind a neighbour: its items come first. -/
def shift (v : Value) : List TreeStep → List TreeStep
  | .item i :: steps => .item ((v.items?.getD []).length + i) :: steps
  | steps => steps

/-- Neighbours of which one bears a node, and the others leave it alone. -/
inductive PiecesBear (P : Value → Prop) : List Value → List TreeStep → Prop
  | head {v : Value} {vs : List Value} {steps : List TreeStep} (h : v.Bears P steps)
      (beside : ∀ w ∈ vs, w.Beside steps) : PiecesBear P (v :: vs) steps
  | tail {v : Value} {vs : List Value} {steps : List TreeStep} (beside : v.Beside steps)
      (h : PiecesBear P vs steps) : PiecesBear P (v :: vs) (v.shift steps)

theorem Beside.of_shift (h : w.Beside (v.shift steps)) : w.Beside steps := by
  cases steps with
  | nil => exact h
  | cons step steps => cases step <;> exact h

theorem Beside.shift (h : w.Beside steps) (v : Value) : w.Beside (v.shift steps) := by
  cases steps with
  | nil => exact h
  | cons step steps => cases step <;> exact h

/-- Labels do not matter to neighbours either. -/
theorem SameTree.length_items? (h : v.SameTree w) :
    (v.items?.getD []).length = (w.items?.getD []).length
      ∧ v.items?.isSome = w.items?.isSome := by
  have both : v.unplaced.items? = w.unplaced.items? := congrArg items? h
  rw [unplaced, unplaced, items?_relabel, items?_relabel] at both
  constructor
  · have lengths := congrArg (fun o => (o.getD []).length) both
    cases hv : v.items? <;> cases hw : w.items? <;> rw [hv, hw] at lengths <;>
      simpa using lengths
  · simpa using congrArg Option.isSome both

theorem Beside.sameTree (h : w.Beside steps) (same : v.SameTree w) : v.Beside steps := by
  match steps, h with
  | .field key :: steps, h => exact Misses.sameTree h same
  | .item _ :: _, h => exact same.length_items?.2.trans h

theorem SameTree.shift_eq (same : v.SameTree w) (steps : List TreeStep) :
    v.shift steps = w.shift steps := by
  unfold Value.shift
  split
  · rw [same.length_items?.1]
  · rfl

theorem Misses.exists_object {key : String} (h : v.Misses (key :: path)) :
    ∃ p fs, v = object p false fs := by
  obtain ⟨p, fs, rfl, -⟩ := h
  exact ⟨p, fs, rfl⟩

theorem join?_list (p q : Provenance) (xs ys : List Value) :
    join? false (list p xs) (list q ys)
      = .ok (some (ofItems (p.origin.merge q.origin) (xs ++ ys))) := rfl

/-- Two neighbours that both leave a node alone are joined to one that does. -/
theorem Beside.exists_join? (hv : v.Beside steps) (hw : w.Beside steps) :
    ∃ u, join? false v w = .ok (some u) ∧ u.Beside steps
      ∧ u.shift steps = v.shift (w.shift steps) := by
  match steps, hv, hw with
  | .field key :: steps, hv, hw =>
    obtain ⟨p, fs, rfl⟩ := hv.exists_object
    obtain ⟨q, gs, rfl⟩ := hw.exists_object
    exact ⟨_, join?_of_objects rfl, Misses.withFallback hw hv, rfl⟩
  | .item i :: steps, hv, hw =>
    obtain ⟨p, xs, rfl⟩ := exists_list_of_items? hv
    obtain ⟨q, ys, rfl⟩ := exists_list_of_items? hw
    refine ⟨_, join?_list p q xs ys, rfl, ?_⟩
    show TreeStep.item ((xs ++ ys).length + i) :: steps = .item (xs.length + (ys.length + i)) :: steps
    rw [List.length_append, Nat.add_assoc]

theorem Bears.exists_join? (hv : v.Bears P steps) (hw : w.Beside steps) :
    ∃ u, join? false v w = .ok (some u) ∧ u.Bears P steps := by
  cases hv with
  | here => exact hw.elim
  | field nodup get h =>
    obtain ⟨q, gs, rfl⟩ := Misses.exists_object hw
    exact ⟨_, join?_of_objects rfl, Bears.under (.field nodup get h) hw⟩
  | item get h =>
    obtain ⟨q, ys, rfl⟩ := exists_list_of_items? hw
    refine ⟨_, join?_list _ q _ ys, .item ?_ h⟩
    rw [List.getElem?_append_left (List.getElem?_eq_some_iff.1 get).1, get]

theorem Beside.exists_join?_bears (hv : v.Beside steps) (hw : w.Bears P steps) :
    ∃ u, join? false v w = .ok (some u) ∧ u.Bears P (v.shift steps) := by
  cases hw with
  | here => exact hv.elim
  | field nodup get h =>
    obtain ⟨p, fs, rfl⟩ := Misses.exists_object hv
    exact ⟨_, join?_of_objects rfl, Bears.over (.field nodup get h) hv⟩
  | item get h =>
    obtain ⟨p, xs, rfl⟩ := exists_list_of_items? hv
    refine ⟨_, join?_list p _ xs _, .item ?_ h⟩
    rw [show (list p xs).items?.getD [] = xs from rfl,
      List.getElem?_append_right (Nat.le_add_right _ _), Nat.add_sub_cancel_left, get]

theorem joinOnto_cons {u : Value} {vs : List Value} (joined : join? false v w = .ok (some u)) :
    joinOnto false [v] (w :: vs) = joinOnto false [u] vs := by
  rw [joinOnto]
  simp only [joined]

theorem Beside.exists_joinOnto {vs : List Value} (hv : v.Beside steps)
    (hvs : ∀ w ∈ vs, w.Beside steps) :
    ∃ u, joinOnto false [v] vs = .ok [u] ∧ u.Beside steps := by
  induction vs generalizing v with
  | nil => exact ⟨v, rfl, hv⟩
  | cons w vs ih =>
    obtain ⟨hw, hvs⟩ := List.forall_mem_cons.1 hvs
    obtain ⟨u, joined, hu, -⟩ := hv.exists_join? hw
    rw [joinOnto_cons joined]
    exact ih hu hvs

theorem Bears.exists_joinOnto {vs : List Value} (hv : v.Bears P steps)
    (hvs : ∀ w ∈ vs, w.Beside steps) :
    ∃ u, joinOnto false [v] vs = .ok [u] ∧ u.Bears P steps := by
  induction vs generalizing v with
  | nil => exact ⟨v, rfl, hv⟩
  | cons w vs ih =>
    obtain ⟨hw, hvs⟩ := List.forall_mem_cons.1 hvs
    obtain ⟨u, joined, hu⟩ := hv.exists_join? hw
    rw [joinOnto_cons joined]
    exact ih hu hvs

theorem PiecesBear.exists_joinOnto {vs : List Value} (hvs : PiecesBear P vs steps)
    (hv : v.Beside steps) :
    ∃ u, joinOnto false [v] vs = .ok [u] ∧ u.Bears P (v.shift steps) := by
  induction hvs generalizing v with
  | @head w vs steps h beside =>
    obtain ⟨u, joined, hu⟩ := hv.exists_join?_bears h
    rw [joinOnto_cons joined]
    exact hu.exists_joinOnto fun w hw => (beside w hw).shift v
  | @tail w vs steps beside h ih =>
    obtain ⟨u, joined, hu, shifted⟩ := hv.of_shift.exists_join? beside
    rw [joinOnto_cons joined, ← shifted]
    exact ih hu

/-- More than one value that was read for itself is joined from the left. -/
theorem concatenate_cons {u : Value} {vs : List Value} (pieces : ∀ x ∈ v :: w :: vs, x.isPiece = true)
    (joined : joinOnto false [v] (w :: vs) = .ok [u]) :
    concatenate (v :: w :: vs) = .ok (some u) := by
  have run : joinRun false (v :: w :: vs) = .ok [u] := by
    unfold joinRun
    rw [if_neg (by simp), flattenPieces_of_isPiece pieces, joinOnto]
    exact joined
  unfold concatenate
  rw [run]

/-- **What neighbours are joined to bears what one of them does**, if the others leave it alone. -/
theorem PiecesBear.concatenate {vs : List Value} (h : PiecesBear P vs steps)
    (pieces : ∀ x ∈ vs, x.isPiece = true) :
    ∃ u, concatenate vs = .ok (some u) ∧ u.Bears P steps := by
  cases h with
  | @head v vs _ h beside =>
    cases vs with
    | nil => exact ⟨v, rfl, h⟩
    | cons w vs =>
      obtain ⟨u, joined, hu⟩ := h.exists_joinOnto beside
      exact ⟨u, concatenate_cons pieces joined, hu⟩
  | @tail v vs steps beside h =>
    cases vs with
    | nil => cases h
    | cons w vs =>
      obtain ⟨u, joined, hu⟩ := h.exists_joinOnto beside
      exact ⟨u, concatenate_cons pieces joined, hu⟩

/-- What neighbours are joined to leaves a node alone if all of them do. -/
theorem exists_concatenate_beside {vs : List Value} (hv : v.Beside steps)
    (hvs : ∀ w ∈ vs, w.Beside steps) (pieces : ∀ x ∈ v :: vs, x.isPiece = true) :
    ∃ u, concatenate (v :: vs) = .ok (some u) ∧ u.Beside steps := by
  cases vs with
  | nil => exact ⟨v, rfl, hv⟩
  | cons w vs =>
    obtain ⟨u, joined, hu⟩ := hv.exists_joinOnto hvs
    exact ⟨u, concatenate_cons pieces joined, hu⟩

end Value

end Hocon
