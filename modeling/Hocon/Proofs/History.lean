import Mathlib.Data.List.Forall2
import Hocon.Proofs.Content

/-!
# What definitions come to that look back

A key may be defined in terms of itself, as in `path = ${path} [x]`, and then again: each
definition looks back to what the key held before.  What the key holds in the end is said here
without a word about lookups: each definition is joined with what the ones before it come to in
place of its references (`Value.revise`, `Value.comesTo`).

Marks and origins play no part in that.  Values that hold the same are interchangeable
(`Value.StandsFor`), and so are the definitions that differ in provenance only.
-/

namespace Hocon

/-- Results that are related, each followed by something that keeps the relation. -/
theorem rel_bind {α β γ δ : Type} {R : α → β → Prop} {S : γ → δ → Prop} {a : Option α}
    {b : Option β} {f : α → Option γ} {g : β → Option δ} (h : Option.Rel R a b)
    (hf : ∀ x y, R x y → Option.Rel S (f x) (g y)) : Option.Rel S (a.bind f) (b.bind g) := by
  cases h with
  | none => exact .none
  | some h => exact hf _ _ h

namespace Value

/-! ### Revisions -/

/-- The pieces that a definition joins: those of a concatenation, or the value alone. -/
def pieces : Value → List Value
  | concat _ ps => ps
  | v => [v]

/-- The pieces with `earlier` in place of the references; without it the optional ones vanish, and
a mandatory one has nothing to stand for. -/
def substitute (earlier : Option Value) : List Value → Option (List Value)
  | [] => some []
  | reference _ r :: ps =>
    match earlier with
    | some w => (substitute earlier ps).map (w :: ·)
    | none => if r.target.optional then substitute earlier ps else none
  | x :: ps => (substitute earlier ps).map (x :: ·)

/-- What neighbours are joined to, if there are any; nothing if they cannot be joined. -/
def joined (ps : List Value) : Option (Option Value) := (joinRun true ps).toOption.map List.head?

/-- What a key holds that held `earlier` and is defined again; nothing if that fails. -/
def revise (earlier : Option Value) (definition : Value) : Option (Option Value) :=
  (substitute earlier definition.pieces).bind joined

/-- What a key holds after some definitions, the newest of which comes first; nothing if one of
them fails. -/
def comesTo : List Value → Option (Option Value)
  | [] => some none
  | definition :: older => (comesTo older).bind fun earlier => revise earlier definition

/-! ### Definitions that look back -/

/-- A piece of a definition of `k`: a reference to `k`, or a value that needs nothing and is no
object. -/
def IsPiece (k : Path) : Value → Prop
  | reference _ r => r.target.path = k
  | x => x.isResolved = true ∧ x.fields? = none

/-- A definition of `k` by what `k` held before: a reference to `k` alone, or pieces with such a
reference among them. -/
structure LooksBack (k : Path) (d : Value) : Prop where
  pieces : ∀ x ∈ d.pieces, IsPiece k x
  looks : ∃ x ∈ d.pieces, x.isPending = true

/-- Definitions of `k`, the newest first: all look back but for the first one of all, which may
be a value that needs nothing and is no object. -/
inductive History (k : Path) : List Value → Prop
  | nil : History k []
  | base {v : Value} (resolved : v.isResolved = true) (notObject : v.fields? = none) :
      History k [v]
  | cons {d : Value} {older : List Value} (looks : LooksBack k d) (history : History k older) :
      History k (d :: older)

variable {k : Path} {v w d : Value}

theorem substitute_of_isPending {earlier : Option Value} (h : v.isPending = false)
    (ps : List Value) : substitute earlier (v :: ps) = (substitute earlier ps).map (v :: ·) := by
  cases v <;> first | rfl | cases h

/-- Where there was a value before, each reference has it to stand for. -/
theorem exists_substitute (w : Value) (ps : List Value) : ∃ qs, substitute (some w) ps = some qs := by
  induction ps with
  | nil => exact ⟨[], rfl⟩
  | cons x ps ih =>
    obtain ⟨qs, hqs⟩ := ih
    cases x <;> exact ⟨_, by simp only [substitute, hqs]; rfl⟩

theorem IsPiece.of_isPending (h : IsPiece k v) (hv : v.isPending = true) :
    ∃ p r, v = reference p r ∧ r.target.path = k := by
  cases v with
  | reference p r => exact ⟨p, r, rfl, h⟩
  | concat | merge => cases h.1
  | _ => cases hv

theorem IsPiece.isResolved (h : IsPiece k v) (hv : v.isPending = false) :
    v.isResolved = true ∧ v.fields? = none := by
  cases v with
  | reference => cases hv
  | _ => exact h

/-- A definition that looks back is a reference or a concatenation. -/
theorem LooksBack.isPending (h : LooksBack k d) : d.isPending = true := by
  obtain ⟨x, hx, waits⟩ := h.looks
  cases d with
  | concat => rfl
  | _ => exact List.mem_singleton.1 hx ▸ waits

theorem LooksBack.isMerge (h : LooksBack k d) : d.isMerge = false := by
  cases d with
  | merge p j ls => cases (h.pieces _ (List.mem_singleton.2 rfl)).1
  | _ => rfl

/-- A definition that looks back is a reference or a concatenation of pieces. -/
theorem LooksBack.reference_or_concat (h : LooksBack k d) :
    (∃ p r, d = reference p r ∧ r.target.path = k) ∨ ∃ p ps, d = concat p ps := by
  have waits := h.isPending
  cases d with
  | reference p r => exact .inl ⟨p, r, rfl, h.pieces _ (List.mem_singleton.2 rfl)⟩
  | concat p ps => exact .inr ⟨p, ps, rfl⟩
  | merge => cases h.isMerge
  | _ => cases waits

/-- What a history has below one of its definitions is a history. -/
theorem History.of_suffix {T T' : List Value} (h : History k T) (suffix : T' <:+ T) :
    History k T' := by
  induction h with
  | nil => exact List.suffix_nil.1 suffix ▸ .nil
  | base resolved notObject =>
    rcases List.suffix_cons_iff.1 suffix with rfl | suffix
    · exact .base resolved notObject
    · exact List.suffix_nil.1 suffix ▸ .nil
  | cons looks history ih =>
    rcases List.suffix_cons_iff.1 suffix with rfl | suffix
    · exact .cons looks history
    · exact ih suffix

/-! ### Values that stand for each other -/

/-- A resolved value that is no object. -/
structure Single (v : Value) : Prop where
  wellFormed : v.WellFormed .spelled
  resolved : v.isResolved = true
  notObject : v.fields? = none

namespace Single

theorem ignoresFallbacks (h : v.Single) : v.ignoresFallbacks = true := by
  have resolved := h.resolved
  cases v with
  | object => cases h.notObject
  | reference | concat | merge => cases resolved
  | list p xs => exact resolved
  | _ => rfl

/-- Joining values that are no objects gives no object. -/
theorem joinClosed : JoinClosed Single where
  merged v w _ hw := by rwa [withFallback_of_ignoresFallbacks hw.ignoresFallbacks]
  appended p q xs ys hx hy :=
    have joined := Settled.joinClosed.appended p q xs ys ⟨hx.wellFormed, .resolved hx.resolved⟩
      ⟨hy.wellFormed, .resolved hy.resolved⟩
    ⟨joined.1, joined.2.isResolved, rfl⟩
  text v w t hv hw :=
    have joined := Settled.joinClosed.text v w t ⟨hv.wellFormed, .resolved hv.resolved⟩
      ⟨hw.wellFormed, .resolved hw.resolved⟩
    ⟨joined.1, joined.2.isResolved, rfl⟩
  split _ _ h := by cases h.resolved

theorem alike (h : v.Single) (like : v.Alike w) : w.Single where
  wellFormed := h.wellFormed.alike (fun _ _ _ _ => trivial) like
  resolved := ((Settled.resolved h.resolved : Settled none v).alike h.wellFormed like).isResolved
  notObject := by
    have := like.fields?_isSome_eq
    rw [h.notObject] at this
    exact Option.isNone_iff_eq_none.1 (by simpa using this)

end Single

/-- Two resolved values that are no objects and hold the same. -/
structure StandsFor (v w : Value) : Prop where
  left : v.Single
  right : w.Single
  content : ∀ known, v.content known = w.content known

theorem StandsFor.of_alike (h : v.Single) (like : v.Alike w) : StandsFor v w :=
  ⟨h, h.alike like, fun _ => like.content_eq.symm⟩

theorem StandsFor.trans {u : Value} (h : StandsFor u v) (h' : StandsFor v w) : StandsFor u w :=
  ⟨h.left, h'.right, fun known => (h.content known).trans (h'.content known)⟩

/-- Values that hold the same, or none on either side. -/
abbrev SameHeld : Option Value → Option Value → Prop := Option.Rel StandsFor

/-- Neighbours that are no objects are joined to one, or they cannot be joined; what they hold
decides. -/
theorem joinRun_cases {ps : List Value} (present : ps ≠ []) (hp : ∀ x ∈ ps, x.Single) :
    (∃ w, joinRun true ps = .ok [w] ∧ w.Single
      ∧ ∀ known, Content.joinAll (ps.map (content known)) = some (w.content known))
    ∨ ∃ e, joinRun true ps = .error e
      ∧ ∀ known, Content.joinAll (ps.map (content known)) = none := by
  have whole (x : Value) (hx : x ∈ ps) : x.WellFormed .spelled ∧ x.isPending = false :=
    ⟨(hp x hx).wellFormed, isPending_of_isResolved (hp x hx).resolved⟩
  have joined (known : List String → Content) := content_joinRun known whole
  rcases (joinRun_of_isPending fun x hx => (whole x hx).2 :
    (∃ ws, joinRun true ps = .ok ws ∧ ws.length ≤ 1) ∨ _) with ⟨ws, hj, short⟩ | ⟨o, fault, hj⟩
  · left
    have single := Single.joinClosed.joinRun hp hj
    simp only [hj] at joined
    match ws, short with
    | [w], _ => exact ⟨w, hj, single w List.mem_cons_self, joined⟩
    | [], _ =>
      -- what is present is not joined to nothing
      obtain ⟨x, rest, rfl⟩ := List.exists_cons_of_ne_nil present
      have x_present : x.content (fun _ => .absent) ≠ .absent := content_ne_absent
        (isPending_of_isResolved (hp x List.mem_cons_self).resolved)
      exact absurd (joined _) (Content.foldlM_joinTwo_ne_absent x_present _)
  · right
    simp only [hj] at joined
    exact ⟨_, hj, joined⟩

theorem singles_of_standsFor {ps qs : List Value} (h : List.Forall₂ StandsFor ps qs) :
    (∀ x ∈ ps, x.Single) ∧ (∀ y ∈ qs, y.Single)
      ∧ ∀ known, ps.map (content known) = qs.map (content known) := by
  induction h with
  | nil => exact ⟨nofun, nofun, fun _ => rfl⟩
  | cons head _ ih =>
    exact ⟨List.forall_mem_cons.2 ⟨head.left, ih.1⟩, List.forall_mem_cons.2 ⟨head.right, ih.2.1⟩,
      fun known => by rw [List.map_cons, List.map_cons, head.content, ih.2.2]⟩

/-- Neighbours that hold the same are joined to what holds the same. -/
theorem joined_congr {ps qs : List Value} (h : List.Forall₂ StandsFor ps qs) :
    Option.Rel SameHeld (joined ps) (joined qs) := by
  obtain ⟨left, right, same⟩ := singles_of_standsFor h
  have same (known : List String → Content) := congrArg Content.joinAll (same known)
  cases h with
  | nil => exact .some .none
  | cons _ _ =>
    unfold joined
    rcases joinRun_cases (List.cons_ne_nil _ _) left with ⟨w, hw, single, content⟩ | ⟨e, he, content⟩
      <;> rcases joinRun_cases (List.cons_ne_nil _ _) right with
        ⟨w', hw', single', content'⟩ | ⟨e', he', content'⟩
    · rw [hw, hw']
      refine .some (.some ⟨single, single', fun known => Option.some.inj ?_⟩)
      rw [← content, same, content']
    · cases (content fun _ => .absent).symm.trans ((same _).trans (content' _))
    · cases (content fun _ => .absent).symm.trans ((same _).trans (content' _))
    · rw [he, he']
      exact .none

/-- What is substituted for the references holds the same if the definitions differ in provenance
only. -/
theorem substitute_congr {e e' : Option Value} {ps qs : List Value} (he : SameHeld e e')
    (like : List.Forall₂ Alike ps qs) (hp : ∀ x ∈ ps, IsPiece k x ∧ x.WellFormed .spelled) :
    Option.Rel (List.Forall₂ StandsFor) (substitute e ps) (substitute e' qs) := by
  induction like with
  | nil => exact .some .nil
  | @cons x y xs ys head tail ih =>
    obtain ⟨hx, hxs⟩ := List.forall_mem_cons.1 hp
    have ih := ih hxs
    cases hw : x.isPending with
    | true =>
      obtain ⟨p, r, rfl, -⟩ := hx.1.of_isPending hw
      cases head with
      | reference =>
        cases he with
        | none =>
          simp only [substitute]
          split
          · exact ih
          · exact .none
        | some he =>
          simp only [substitute, Option.map_eq_bind]
          exact rel_bind ih fun _ _ rest => .some (.cons he rest)
    | false =>
      obtain ⟨resolved, notObject⟩ := hx.1.isResolved hw
      rw [substitute_of_isPending hw, substitute_of_isPending (head.isPending_eq ▸ hw),
        Option.map_eq_bind, Option.map_eq_bind]
      exact rel_bind ih fun _ _ rest => .some (.cons (.of_alike ⟨hx.2, resolved, notObject⟩ head) rest)

theorem Alike.pieces (h : v.Alike w) : List.Forall₂ Alike v.pieces w.pieces := by
  have single {v w : Value} (h : v.Alike w) : List.Forall₂ Alike [v] [w] := .cons h .nil
  cases h with
  | concat _ length pieces =>
    exact List.forall₂_iff_get.2 ⟨length, fun i h h' =>
      pieces i _ _ (List.getElem?_eq_getElem h) (List.getElem?_eq_getElem h')⟩
  | null origin => exact single (.null origin)
  | bool origin b => exact single (.bool origin b)
  | number origin n t => exact single (.number origin n t)
  | string origin t quoted => exact single (.string origin t quoted)
  | reference origin r => exact single (.reference origin r)
  | object origin c keys fields => exact single (.object origin c keys fields)
  | list origin length items => exact single (.list origin length items)
  | merge origin k length layers => exact single (.merge origin k length layers)

theorem WellFormed.pieces {manner : Manner} (h : v.WellFormed manner) :
    ∀ x ∈ v.pieces, x.WellFormed manner := by
  intro x hx
  cases v with
  | concat p ps => exact h.parts x hx
  | _ => exact List.mem_singleton.1 hx ▸ h

/-- Definitions that differ in provenance only make the same of what holds the same. -/
theorem revise_congr {e e' : Option Value} {d d' : Value} (he : SameHeld e e')
    (like : d.Alike d') (hd : ∀ x ∈ d.pieces, IsPiece k x) (wf : d.WellFormed .spelled) :
    Option.Rel SameHeld (revise e d) (revise e' d') :=
  rel_bind (substitute_congr he like.pieces fun x hx => ⟨hd x hx, wf.pieces x hx⟩) fun _ _ =>
    joined_congr

/-! ### Histories -/

/-- The value of a history is joined from values that are none. -/
theorem joined_base {v : Value} (h : v.isPending = false) : comesTo [v] = some (some v) := by
  have pieces : v.pieces = [v] := by cases v <;> first | rfl | cases h
  simp only [comesTo, revise, pieces, substitute_of_isPending h, substitute]
  rfl

/-- Histories that differ in provenance only come to what holds the same. -/
theorem History.comesTo_congr {older older' : List Value} (h : History k older)
    (like : List.Forall₂ Alike older older') (wf : ∀ d ∈ older, d.WellFormed .spelled) :
    Option.Rel SameHeld (comesTo older) (comesTo older') := by
  induction h generalizing older' with
  | nil =>
    cases like
    exact .some .none
  | @base v resolved notObject =>
    obtain _ | ⟨head, ⟨⟩⟩ := like
    have waits := isPending_of_isResolved resolved
    rw [joined_base waits, joined_base (head.isPending_eq ▸ waits)]
    exact .some (.some (.of_alike ⟨wf v List.mem_cons_self, resolved, notObject⟩ head))
  | cons looks _ ih =>
    obtain _ | ⟨head, tail⟩ := like
    obtain ⟨wd, wf⟩ := List.forall_mem_cons.1 wf
    exact rel_bind (ih tail wf) fun _ _ he => revise_congr he head looks.pieces wd

theorem sameHeld_self {a : Option Value} (h : ∀ v, a = some v → v.Single) : SameHeld a a := by
  cases a with
  | none => exact .none
  | some v => exact .some ⟨h v rfl, h v rfl, fun _ => rfl⟩

theorem substitute_single {e : Option Value} (he : ∀ w, e = some w → w.Single) {ps qs : List Value}
    (hp : ∀ x ∈ ps, IsPiece k x ∧ x.WellFormed .spelled) (h : substitute e ps = some qs) :
    ∀ q ∈ qs, q.Single := by
  have same := substitute_congr (sameHeld_self he) (List.forall₂_same.2 fun x _ => .refl x) hp
  rw [h] at same
  cases same with
  | some same => exact (singles_of_standsFor same).1

theorem LooksBack.substitute_single {e : Option Value} (hd : LooksBack k d)
    (he : ∀ w, e = some w → w.Single) {qs : List Value} (wf : d.WellFormed .spelled)
    (h : substitute e d.pieces = some qs) : ∀ q ∈ qs, q.Single :=
  Value.substitute_single he (fun x hx => ⟨hd.pieces x hx, wf.pieces x hx⟩) h

theorem History.single {older : List Value} (h : History k older)
    (wf : ∀ d ∈ older, d.WellFormed .spelled) (hv : comesTo older = some (some v)) : v.Single := by
  have same := h.comesTo_congr (List.forall₂_same.2 fun d _ => .refl d) wf
  rw [hv] at same
  cases same with
  | some same => cases same with
    | some same => exact same.left

/-- Whether all pieces of a definition are references. -/
def IsBare (d : Value) : Prop := ∀ x ∈ d.pieces, x.isPending = true

theorem substitute_eq_nil {e : Option Value} {ps : List Value} (h : substitute e ps = some []) :
    (∀ x ∈ ps, x.isPending = true) ∧ (ps ≠ [] → e = none) := by
  induction ps with
  | nil => exact ⟨nofun, fun h => absurd rfl h⟩
  | cons x ps ih =>
    have kept (h : (substitute e ps).map (x :: ·) = some []) : False := by
      obtain ⟨_, -, h⟩ := Option.map_eq_some_iff.1 h
      cases h
    cases x with
    | reference p r =>
      cases e with
      | some w =>
        obtain ⟨_, -, h⟩ := Option.map_eq_some_iff.1 h
        cases h
      | none =>
        simp only [substitute] at h
        split at h
        · exact ⟨List.forall_mem_cons.2 ⟨rfl, (ih h).1⟩, fun _ => rfl⟩
        · cases h
    | _ => exact (kept h).elim

/-- Only a definition that consists of references may come to nothing, and only if there was nothing
before. -/
theorem revise_eq_none {e : Option Value} (he : ∀ w, e = some w → w.Single) (hd : LooksBack k d)
    (wf : d.WellFormed .spelled) (h : revise e d = some none) : e = none ∧ d.IsBare := by
  obtain ⟨qs, hq, hj⟩ := Option.bind_eq_some_iff.1 h
  have single := hd.substitute_single he wf hq
  have none_left : qs = [] := by
    by_contra present
    unfold joined at hj
    rcases joinRun_cases present single with ⟨w, hw, -⟩ | ⟨e, he, -⟩
    · rw [hw] at hj
      cases hj
    · rw [he] at hj
      cases hj
  subst none_left
  obtain ⟨x, hx, -⟩ := hd.looks
  exact ⟨(substitute_eq_nil hq).2 (List.ne_nil_of_mem hx), (substitute_eq_nil hq).1⟩

/-- A history that comes to nothing consists of definitions that come to nothing. -/
theorem History.of_comesTo_eq_none {older : List Value} (h : History k (d :: older))
    (wf : ∀ x ∈ d :: older, x.WellFormed .spelled) (hn : comesTo (d :: older) = some none) :
    LooksBack k d ∧ d.IsBare ∧ History k older ∧ comesTo older = some none
      ∧ revise none d = some none := by
  cases h with
  | base resolved notObject =>
    rw [joined_base (isPending_of_isResolved resolved)] at hn
    cases hn
  | cons looks history =>
    obtain ⟨wd, wf⟩ := List.forall_mem_cons.1 wf
    obtain ⟨e, he, hr⟩ := Option.bind_eq_some_iff.1 hn
    obtain ⟨rfl, bare⟩ := revise_eq_none (fun w hw => history.single wf (hw ▸ he)) looks wd hr
    exact ⟨looks, bare, history, he, hr⟩

/-- Two lists can be joined, and so can two values of which none is a list. -/
theorem exists_join? (hv : v.Single) (hw : w.Single) (same : v.items?.isSome = w.items?.isSome) :
    ∃ u, join? true v w = .ok (some u) ∧ u.items?.isSome = w.items?.isSome := by
  have rv := hv.resolved
  have rw' := hw.resolved
  cases v with
  | object => cases hv.notObject
  | reference | concat | merge => cases rv
  | list p xs =>
    cases w with
    | list q ys => exact ⟨_, rfl, rfl⟩
    | _ => cases same
  | _ =>
    cases w with
    | object => cases hw.notObject
    | reference | concat | merge => cases rw'
    | list => cases same
    | _ => exact ⟨_, rfl, rfl⟩

/-- One value beside itself, as often as it may be, can be joined. -/
theorem exists_joinRun_replicate (hw : w.Single) (n : Nat) :
    ∃ u, joinRun true (List.replicate (n + 1) w) = .ok [u] := by
  have onto (n : Nat) {v : Value} (hv : v.Single) (same : v.items?.isSome = w.items?.isSome) :
      ∃ u, joinOnto true [v] (List.replicate n w) = .ok [u] := by
    induction n generalizing v with
    | zero => exact ⟨v, rfl⟩
    | succ n ih =>
      obtain ⟨u, hu, same'⟩ := exists_join? hv hw same
      rw [List.replicate_succ, joinOnto, hu]
      exact ih (Single.joinClosed.join? hv hw hu) same'
  cases n with
  | zero => exact ⟨w, rfl⟩
  | succ n =>
    rw [joinRun, if_neg (by simp), flattenPieces_of_isPending fun x hx =>
      List.eq_of_mem_replicate hx ▸ isPending_of_isResolved hw.resolved, List.replicate_succ,
      joinOnto]
    exact onto (n + 1) hw rfl

/-- References that all have one value to stand for come to something. -/
theorem exists_revise_of_isBare (hd : LooksBack k d) (bare : d.IsBare) (hw : w.Single) :
    ∃ u, revise (some w) d = some (some u) := by
  have replicated {ps : List Value} (h : ∀ x ∈ ps, x.isPending = true ∧ IsPiece k x) :
      substitute (some w) ps = some (List.replicate ps.length w) := by
    induction ps with
    | nil => rfl
    | cons x ps ih =>
      obtain ⟨⟨waits, hx⟩, rest⟩ := List.forall_mem_cons.1 h
      obtain ⟨p, r, rfl, -⟩ := hx.of_isPending waits
      rw [substitute, ih rest]
      rfl
  obtain ⟨x, hx, -⟩ := hd.looks
  obtain ⟨n, hn⟩ := Nat.exists_eq_succ_of_ne_zero (Nat.ne_of_gt (List.length_pos_of_mem hx))
  obtain ⟨u, hu⟩ := exists_joinRun_replicate hw n
  refine ⟨u, ?_⟩
  rw [revise, replicated fun x hx => ⟨bare x hx, hd.pieces x hx⟩, hn, Option.bind_some, joined, hu]
  rfl

end Value

end Hocon
