import Hocon.Proofs.WellFormed
import Hocon.Value.Join

/-!
# What merging and joining keep

A resolution puts values together in two ways: it merges them and it joins them.  Neither makes
references or concatenations, and neither gives a known node another mark; both keep trees well
formed.  So from well formed trees whose marked nodes are known come such trees again
(`Value.Sound`), and that is all that the register of marks needs to know about merging.
-/

namespace Hocon.Value

variable {manner : Manner} {queries : Prop} {g : Table} {v w : Value}

/-! ### Marks -/

/-- A property that a node has in common with its parts: it passes the property on to them, and a
new node that puts such nodes together has it too. -/
structure Inherited (P : Value → Prop) : Prop where
  parts : ∀ v, P v → ∀ u ∈ v.parts, P u
  new : ∀ v : Value, v.mark = none → v.isQuery = false → (∀ u ∈ v.parts, P u) → P v

namespace Inherited

variable {P : Value → Prop}

theorem layers (hP : Inherited P) (h : P v) : ∀ l ∈ v.layers, P l := by
  intro l hl
  cases v with
  | merge p k ls => exact hP.parts _ h l hl
  | _ => exact List.mem_singleton.1 hl ▸ h

theorem field (hP : Inherited P) {p : Provenance} {c : Bool} {fs : Entries Value}
    (h : P (object p c fs)) {k : String} {u : Value} (hu : Entries.get? fs k = some u) : P u :=
  hP.parts _ h u (mem_parts_of_mem_fields (Entries.mem_of_get? hu))

/-- What merging makes is new. -/
theorem withFallback (hP : Inherited P) (wv : v.WellFormed manner) (ww : w.WellFormed manner)
    (hv : P v) (hw : P w) : P (v.withFallback w) := by
  refine withFallback_cases (motive := fun v w u => v.WellFormed manner →
    w.WellFormed manner → P v → P w → P u) ?self ?fields ?closing ?waiting wv ww wv ww hv hw
  case self => exact fun v w _ _ _ hv _ => hv
  case fields =>
    intro p q p' c own other fs prov _ _ _ nodup get merged wv ww hv hw
    rcases prov with ⟨rfl, rfl, rfl⟩ | prov
    · exact hv
    have fields : ∀ u ∈ fs.map (·.2), P u := by
      intro u hu
      obtain ⟨f, hf, rfl⟩ := List.mem_map.1 hu
      rcases Entries.overlay_cases ((get f.1).symm.trans (Entries.get?_of_mem nodup hf))
        with ha | hb | ⟨a, b, ha, hb, eq⟩
      · exact hP.field hv ha
      · exact hP.field hw hb
      · rw [eq]
        exact merged f.1 a b ha hb (wv.field ha) (ww.field hb) (hP.field hv ha) (hP.field hw hb)
    exact hP.new _ prov rfl fields
  case closing =>
    intro p own w _ _ _ _ _ hv _
    exact hP.new _ rfl rfl (hP.parts (object p false own) hv)
  case waiting =>
    intro v w _ _ _ _ _ hv hw
    exact hP.new _ rfl rfl fun l hl =>
      (List.mem_append.1 hl).elim (hP.layers hv l) (hP.layers hw l)

end Inherited

theorem Markable.inherited : Inherited (Markable queries g) where
  parts _ h := h.parts
  new _ := .new

/-- What holds of the layers of a merge holds of what they are merged to. -/
theorem mergeLayers?_of_merged {P : Value → Prop}
    (merged : ∀ v w, P v → P w → P (v.withFallback w)) {vs : List Value} (h : ∀ v ∈ vs, P v)
    (hw : mergeLayers? vs = some w) : P w := by
  cases vs with
  | nil => cases hw
  | cons v vs =>
    cases hw
    obtain ⟨hv, hvs⟩ := List.forall_mem_cons.1 h
    clear h
    induction vs generalizing v with
    | nil => exact hv
    | cons u vs ih =>
      obtain ⟨hu, hvs⟩ := List.forall_mem_cons.1 hvs
      exact ih _ (merged _ _ hv hu) hvs

/-- A value that a resolution may hold: it is well formed, and all its nodes that are not known
are new. -/
structure Sound (manner : Manner) (queries : Prop) (g : Table) (v : Value) : Prop where
  wellFormed : v.WellFormed manner
  markable : v.Markable queries g

namespace Sound

/-- An object with new provenance, or the same object. -/
theorem ofFields {p : Provenance} {c : Bool} {fs : Entries Value} (mark : p.mark = none)
    (lines : p.origin.Commented manner.comment) (nodup : (Entries.keys fs).Nodup)
    (fields : ∀ k u, (k, u) ∈ fs → u.Sound manner queries g) :
    (object p c fs).Sound manner queries g where
  wellFormed := .object lines c nodup fun k u h => (fields k u h).wellFormed
  markable := .new mark rfl fun u hu => by
    obtain ⟨f, hf, rfl⟩ := List.mem_map.1 hu
    exact (fields f.1 f.2 hf).markable

theorem ofItems {o : Origin} (lines : o.Commented manner.comment) {xs : List Value}
    (items : ∀ x ∈ xs, x.Sound manner queries g) :
    (Value.ofItems o xs).Sound manner queries g where
  wellFormed := .list lines fun x hx => (items x hx).wellFormed
  markable := .new rfl rfl fun x hx => (items x hx).markable

theorem ofText {o : Origin} (lines : o.Commented manner.comment) (t : String) :
    (Value.ofText o t).Sound manner queries g where
  wellFormed := .string lines t true
  markable := .new rfl rfl nofun

theorem parts (h : v.Sound manner queries g) : ∀ u ∈ v.parts, u.Sound manner queries g :=
  fun u hu => ⟨h.wellFormed.parts u hu, h.markable.parts u hu⟩

theorem withFallback (hv : v.Sound manner queries g) (hw : w.Sound manner queries g) :
    (v.withFallback w).Sound manner queries g where
  wellFormed := hv.wellFormed.withFallback hw.wellFormed
  markable := Markable.inherited.withFallback hv.wellFormed hw.wellFormed hv.markable hw.markable

theorem mergeLayers? {vs : List Value} (h : ∀ v ∈ vs, v.Sound manner queries g)
    (hw : Value.mergeLayers? vs = some w) : w.Sound manner queries g :=
  mergeLayers?_of_merged (fun _ _ hv hw => hv.withFallback hw) h hw

end Sound

/-! ### Joining -/

/-- A property that what two pieces are joined to has if the pieces have it. -/
structure JoinClosed (P : Value → Prop) : Prop where
  merged : ∀ v w, P v → P w → P (w.withFallback v)
  appended : ∀ p q xs ys, P (list p xs) → P (list q ys) →
    P (ofItems (p.origin.merge q.origin) (xs ++ ys))
  text : ∀ v w t, P v → P w → P (ofText (v.origin.merge w.origin) t)
  split : ∀ p ps, P (concat p ps) → ∀ x ∈ ps, P x

namespace JoinClosed

variable {P : Value → Prop} {nullIsEmpty : Bool}

theorem join? (hP : JoinClosed P) {left right u : Value} (hl : P left) (hr : P right)
    (h : Value.join? nullIsEmpty left right = .ok (some u)) : P u := by
  unfold Value.join? at h
  split at h
  · cases h
    exact hP.merged left right hl hr
  · split at h
    · next hx hy =>
      cases left <;> cases hx
      cases right <;> cases hy
      cases h
      exact hP.appended _ _ _ _ hl hr
    · split at h
      · cases h
        exact hl
      · split at h
        · cases h
        · split at h <;> cases h
          exact hP.text _ _ _ hl hr

theorem joinOnto (hP : JoinClosed P) {todo done ws : List Value} (hd : ∀ x ∈ done, P x)
    (ht : ∀ x ∈ todo, P x) (h : Value.joinOnto nullIsEmpty done todo = .ok ws) :
    ∀ w ∈ ws, P w := by
  induction todo generalizing done with
  | nil =>
    cases h
    exact fun w hw => hd w (List.mem_reverse.1 hw)
  | cons r todo ih =>
    obtain ⟨hr, ht⟩ := List.forall_mem_cons.1 ht
    cases done with
    | nil => exact ih (List.forall_mem_cons.2 ⟨hr, List.forall_mem_nil _⟩) ht h
    | cons l before =>
      obtain ⟨hl, hd'⟩ := List.forall_mem_cons.1 hd
      rw [Value.joinOnto] at h
      split at h
      · cases h
      · next u hu => exact ih (List.forall_mem_cons.2 ⟨hP.join? hl hr hu, hd'⟩) ht h
      · exact ih (List.forall_mem_cons.2 ⟨hr, hd⟩) ht h

theorem flattenPieces (hP : JoinClosed P) {pieces : List Value} (h : ∀ x ∈ pieces, P x) :
    ∀ x ∈ Value.flattenPieces pieces, P x := by
  intro x hx
  obtain ⟨v, hv, hx⟩ := List.mem_flatMap.1 hx
  split at hx
  · exact hP.split _ _ (h _ hv) x hx
  · exact List.mem_singleton.1 hx ▸ h _ hv

theorem joinRun (hP : JoinClosed P) {pieces ws : List Value} (hp : ∀ x ∈ pieces, P x)
    (h : Value.joinRun nullIsEmpty pieces = .ok ws) : ∀ w ∈ ws, P w := by
  unfold Value.joinRun at h
  split at h
  · cases h
    exact hp
  · exact hP.joinOnto (List.forall_mem_nil _) (hP.flattenPieces hp) h

end JoinClosed

/-- Joining makes texts and lists, or merges. -/
theorem Inherited.joinClosed {P : Value → Prop} (hP : Inherited P) :
    JoinClosed fun v => v.WellFormed manner ∧ P v where
  merged v w hv hw := ⟨hw.1.withFallback hv.1, hP.withFallback hw.1 hv.1 hw.2 hv.2⟩
  appended p q xs ys hx hy := by
    refine ⟨.list (hx.1.lines.merge hy.1.lines) fun x hx' => ?_, hP.new _ rfl rfl fun x hx' => ?_⟩
    · exact (List.mem_append.1 hx').elim (hx.1.parts x) (hy.1.parts x)
    · exact (List.mem_append.1 hx').elim (hP.parts _ hx.2 x) (hP.parts _ hy.2 x)
  text v w t hv hw := ⟨.string (hv.1.lines.merge hw.1.lines) t true, hP.new _ rfl rfl nofun⟩
  split p ps h x hx := ⟨h.1.parts x hx, hP.parts _ h.2 x hx⟩

theorem WellFormed.joinClosed : JoinClosed (WellFormed manner) := by
  have anything : Inherited fun _ => True := ⟨fun _ _ _ _ => trivial, fun _ _ _ _ => trivial⟩
  have closed : JoinClosed fun v => v.WellFormed manner ∧ True := anything.joinClosed
  simpa only [and_true] using closed

theorem Sound.iff : v.Sound manner queries g ↔ v.WellFormed manner ∧ v.Markable queries g :=
  ⟨fun h => ⟨h.wellFormed, h.markable⟩, fun h => ⟨h.1, h.2⟩⟩

theorem Sound.joinClosed : JoinClosed (Sound manner queries g) := by
  have closed : JoinClosed fun v => v.WellFormed manner ∧ v.Markable queries g :=
    Markable.inherited.joinClosed
  simpa only [← Sound.iff] using closed

/-! ### Neighbours of different kinds -/

/-- Two neighbours that are neither two objects nor two lists. -/
def joinScalars (nullIsEmpty : Bool) (left right : Value) : Except Error (Option Value) :=
  if (left.isObjectValued || left.items?.isSome) && right.isBlankText then .ok (some left)
  else if left.isPending || right.isPending then .ok none
  else
    match joinText? nullIsEmpty left, joinText? nullIsEmpty right with
    | some s, some t => .ok (some (ofText (left.origin.merge right.origin) (s ++ t)))
    | _, _ => .error (.wrongType left.origin (.cannotJoin left right))

section

variable {nullIsEmpty : Bool} {left right : Value}

theorem join?_of_objects (objects : (left.isObjectValued && right.isObjectValued) = true) :
    join? nullIsEmpty left right = .ok (some (right.withFallback left)) :=
  if_pos objects

theorem join?_of_lists (objects : ¬(left.isObjectValued && right.isObjectValued) = true)
    {xs ys : List Value} (hl : left.items? = some xs) (hr : right.items? = some ys) :
    join? nullIsEmpty left right
      = .ok (some (ofItems (left.origin.merge right.origin) (xs ++ ys))) := by
  rw [join?, if_neg objects, hl, hr]

theorem join?_of_scalars (objects : ¬(left.isObjectValued && right.isObjectValued) = true)
    (lists : left.items? = none ∨ right.items? = none) :
    join? nullIsEmpty left right = joinScalars nullIsEmpty left right := by
  rw [join?, if_neg objects, joinScalars]
  generalize left.items? = xs at lists ⊢
  generalize right.items? = ys at lists ⊢
  rcases lists with rfl | rfl
  · rfl
  · cases xs <;> rfl

end

/-! ### Failures -/

/-- Neighbours that cannot be joined are of the wrong types. -/
theorem exists_wrongType_of_join? {nullIsEmpty : Bool} {left right : Value} {e : Error}
    (h : join? nullIsEmpty left right = .error e) : ∃ o fault, e = .wrongType o fault := by
  unfold join? at h
  split at h
  · cases h
  · split at h
    · cases h
    · split at h
      · cases h
      · split at h
        · cases h
        · split at h <;> cases h
          exact ⟨_, _, rfl⟩

theorem exists_wrongType_of_joinOnto {nullIsEmpty : Bool} {todo done : List Value} {e : Error}
    (h : joinOnto nullIsEmpty done todo = .error e) : ∃ o fault, e = .wrongType o fault := by
  induction todo generalizing done with
  | nil => cases h
  | cons r todo ih =>
    cases done with
    | nil => exact ih h
    | cons l before =>
      rw [joinOnto] at h
      split at h
      · next hj =>
        cases h
        exact exists_wrongType_of_join? hj
      · exact ih h
      · exact ih h

theorem exists_wrongType_of_joinRun {nullIsEmpty : Bool} {pieces : List Value} {e : Error}
    (h : joinRun nullIsEmpty pieces = .error e) : ∃ o fault, e = .wrongType o fault := by
  unfold joinRun at h
  split at h
  · cases h
  · exact exists_wrongType_of_joinOnto h

/-! ### Joining pieces of which none waits -/

/-- Two neighbours that do not wait become one, or cannot be joined. -/
theorem join?_of_isPending {nullIsEmpty : Bool} {left right : Value}
    (hl : left.isPending = false) (hr : right.isPending = false) :
    (∃ v, join? nullIsEmpty left right = .ok (some v))
      ∨ ∃ o fault, join? nullIsEmpty left right = .error (.wrongType o fault) := by
  unfold join?
  split
  · exact .inl ⟨_, rfl⟩
  · split
    · exact .inl ⟨_, rfl⟩
    · split
      · exact .inl ⟨_, rfl⟩
      · rw [hl, hr]
        simp only [Bool.or_self, Bool.false_eq_true, if_false]
        split
        · exact .inl ⟨_, rfl⟩
        · exact .inr ⟨_, _, rfl⟩

/-- What two neighbours become of which none waits does not wait. -/
theorem isPending_of_join? {nullIsEmpty : Bool} {v w u : Value}
    (pv : v.isPending = false) (pw : w.isPending = false)
    (h : join? nullIsEmpty v w = .ok (some u)) : u.isPending = false := by
  by_cases objects : (v.isObjectValued && w.isObjectValued) = true
  · rw [join?_of_objects objects] at h
    cases h
    have object {x : Value} (valued : x.isObjectValued = true) (px : x.isPending = false) :
        x.fields?.isSome = true := by
      cases x with
      | object => rfl
      | merge => cases px
      | _ => cases valued
    obtain ⟨hv, hw⟩ := (Bool.and_eq_true _ _).mp objects
    have merged := isSome_fields?_withFallback (object hw pw) (object hv pv)
    obtain ⟨fs, hfs⟩ := Option.isSome_iff_exists.1 merged
    obtain ⟨p, c, eq⟩ := eq_object_of_fields? hfs
    rw [eq]
    rfl
  · unfold join? at h
    rw [if_neg objects] at h
    split at h
    · cases h
      rfl
    · split at h
      · cases h
        exact pv
      · split at h
        · cases h
        · split at h <;> cases h
          rfl

/-- Only pieces that wait are taken apart. -/
theorem flattenPieces_of_isPending {pieces : List Value}
    (h : ∀ x ∈ pieces, x.isPending = false) : flattenPieces pieces = pieces := by
  induction pieces with
  | nil => rfl
  | cons x xs ih =>
    obtain ⟨hx, hxs⟩ := List.forall_mem_cons.1 h
    rw [flattenPieces, List.flatMap_cons]
    have rest := ih hxs
    rw [flattenPieces] at rest
    rw [rest]
    cases x <;> first | rfl | cases hx

/-- Pieces of which none waits are one value or none, or two of them cannot be joined. -/
theorem joinOnto_of_isPending {nullIsEmpty : Bool} {todo done : List Value}
    (hd : ∀ x ∈ done, x.isPending = false) (ht : ∀ x ∈ todo, x.isPending = false)
    (one : done.length ≤ 1) :
    (∃ ws, joinOnto nullIsEmpty done todo = .ok ws ∧ ws.length ≤ 1)
      ∨ ∃ o fault, joinOnto nullIsEmpty done todo = .error (.wrongType o fault) := by
  induction todo generalizing done with
  | nil => exact .inl ⟨_, rfl, by rwa [List.length_reverse]⟩
  | cons r todo ih =>
    obtain ⟨hr, ht⟩ := List.forall_mem_cons.1 ht
    match done with
    | [] => exact ih (List.forall_mem_cons.2 ⟨hr, List.forall_mem_nil _⟩) ht (Nat.le_refl _)
    | [l] =>
      have hl := hd l List.mem_cons_self
      rw [joinOnto]
      rcases join?_of_isPending hl hr with ⟨v, hv⟩ | ⟨o, fault, he⟩
      · rw [hv]
        have free := isPending_of_join? hl hr hv
        exact ih (List.forall_mem_cons.2 ⟨free, List.forall_mem_nil _⟩) ht (Nat.le_refl _)
      · rw [he]
        exact .inr ⟨o, fault, rfl⟩

theorem joinRun_of_isPending {nullIsEmpty : Bool} {pieces : List Value}
    (hp : ∀ x ∈ pieces, x.isPending = false) :
    (∃ ws, joinRun nullIsEmpty pieces = .ok ws ∧ ws.length ≤ 1)
      ∨ ∃ o fault, joinRun nullIsEmpty pieces = .error (.wrongType o fault) := by
  unfold joinRun
  split
  · next lt => exact .inl ⟨_, rfl, by omega⟩
  · rw [flattenPieces_of_isPending hp]
    exact joinOnto_of_isPending (List.forall_mem_nil _) hp (Nat.zero_le _)

end Hocon.Value
