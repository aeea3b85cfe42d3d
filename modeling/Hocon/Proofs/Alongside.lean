import Hocon.Proofs.Passage

/-!
# Resolving a document and the moved one

The whole recursion in both runs at once: what is resolved in the one run has its twin resolved in
the other.  Only the document itself is no twin of what the second run resolves for it, which is the
root above the moved document (`together_way`).
-/

namespace Hocon

namespace Resolution

open Value

variable {t : Transfer} {W W' : Pairing} {m m' : Memory} {c c' : Surroundings} {v w : Value}
  {a : Option Path}

/-! ### Surroundings -/

/-- Merges that are open in both runs: what shows of them are twins. -/
structure OpenBoth (t : Transfer) (W : Pairing) (o o' : OpenMerge) : Prop where
  node : ∃ v w, W o.node = some (v, w) ∧ w.mark = some o'.node
    ∧ Option.Rel (Twin t.place W) (o.shows v) (o'.shows w)

/-- Surroundings in both runs: the same references are available and the same merges open. -/
structure Amid (t : Transfer) (W : Pairing) (c c' : Surroundings) : Prop where
  available : List.Forall₂ (Joins W) c.available c'.available
  merges : List.Forall₂ (OpenBoth t W) c.merges c'.merges

theorem OpenBoth.mono (keeps : ∀ i p, W i = some p → W' i = some p) {o o' : OpenMerge}
    (h : OpenBoth t W o o') : OpenBoth t W' o o' := by
  obtain ⟨v, w, entry, mark, shows⟩ := h
  exact ⟨v, w, keeps _ _ entry, mark, rel_mono shows fun _ _ => Twin.mono keeps⟩

theorem Joins.eq_iff {low low' n n' i j k l : Nat} (fits : W.Fits low low' n n') (h : Joins W i j)
    (h' : Joins W k l) : i = k ↔ j = l := by
  constructor
  · rintro rfl
    exact h.right_eq h'
  · rintro rfl
    exact h.left_eq fits h'

namespace Amid

theorem mono (keeps : ∀ i p, W i = some p → W' i = some p) (h : Amid t W c c') : Amid t W' c c' where
  available := h.available.imp fun _ _ => Joins.mono keeps
  merges := h.merges.imp fun _ _ => OpenBoth.mono keeps

variable {low low' n n' i k : Nat}

theorem mem_iff (h : Amid t W c c') (fits : W.Fits low low' n n') (joins : Joins W i k) :
    i ∈ c.available ↔ k ∈ c'.available := by
  have available := h.available
  generalize c.available = js at available ⊢
  generalize c'.available = ls at available ⊢
  induction available with
  | nil => simp
  | cons head _ ih =>
    rw [List.mem_cons, List.mem_cons]
    exact or_congr (joins.eq_iff fits head) ih

theorem within (h : Amid t W c c') (fits : W.Fits low low' n n') (joins : Joins W i k)
    (trace trace' : List PathReference) : Amid t W (c.within i trace) (c'.within k trace') where
  available := by
    refine List.rel_filter (fun j l head => ?_) h.available
    simp only [bne_iff_ne, ne_eq, head.eq_iff fits joins]
  merges := h.merges

/-- What shows of twins are twins. -/
theorem showing? (h : Amid t W c c') (fits : W.Fits low low' n n') (twin : Twin t.place W v w) :
    Option.Rel (Option.Rel (Twin t.place W)) (c.showing? v) (c'.showing? w) := by
  cases twin.sides with
  | merge p q kind layers =>
    simp only [Surroundings.showing?]
    cases twin.marks with
    | fresh left right =>
      rw [show p.mark = none from left, show q.mark = none from right]
      rw [List.find?_eq_none.2 fun _ _ => by simp, List.find?_eq_none.2 fun _ _ => by simp]
      exact .none
    | @known i k left right entry =>
      rw [show p.mark = some i from left, show q.mark = some k from right]
      have merges := h.merges
      generalize c.merges = os at merges ⊢
      generalize c'.merges = os' at merges ⊢
      induction merges with
      | nil => exact .none
      | @cons o o' _ _ head _ ih =>
        obtain ⟨x, y, entry', mark, shows⟩ := head
        have joins : Joins W i k := ⟨_, _, entry, right⟩
        have same : o.node = i ↔ o'.node = k := Joins.eq_iff fits ⟨x, y, entry', mark⟩ joins
        rw [List.find?_cons, List.find?_cons]
        by_cases here : o.node = i
        · have there := same.1 here
          subst here there
          cases entry'.symm.trans entry
          simp only [beq_self_eq_true]
          exact .some shows
        · have there := same.not.1 here
          have skip : (some o.node == some i) = false := by simpa using here
          have skip' : (some o'.node == some k) = false := by simpa using there
          simp only [skip, skip']
          exact ih
  | _ => exact .none

theorem opening (h : Amid t W c c') {whole whole' : Value} (twin : Twin t.place W whole whole')
    {layer base base' : Nat} (waits : v.isPending = w.isPending)
    (shows : v.isPending = true → Option.Rel (Twin t.place W)
      ((mergeLayers? (whole.layers.drop (layer + 1))).map fun u => (u.markFrom base).1)
      ((mergeLayers? (whole'.layers.drop (layer + 1))).map fun u => (u.markFrom base').1)) :
    Amid t W (c.opening whole.mark layer base v) (c'.opening whole'.mark layer base' w) where
  available := h.available
  merges := by
    unfold Surroundings.opening
    rw [← waits]
    cases pending : v.isPending with
    | false => exact h.merges
    | true =>
      cases twin.marks with
      | fresh left right =>
        rw [left, right]
        exact h.merges
      | known left right entry =>
        rw [left, right]
        exact .cons ⟨whole, whole', entry, right, shows pending⟩ h.merges

end Amid

/-! ### Lookups -/

/-- Resolving twins keeps the runs in step and gives twins. -/
def Follows (t : Transfer) (c : Surroundings) (v : Value) (x : Step (Option Value))
    (y : Surroundings → Value → Step (Option Value)) : Prop :=
  ∀ W m m' c' w, InStep t W m m' → Amid t W c c' → Twin t.place W v w →
    Together t W m m' x (y c' w) fun W' => Option.Rel (Twin t.place W')

/-- Resolving the document on its own and the root above the moved one keeps the runs in step. -/
def RootFollows (t : Transfer) (c : Surroundings) (a : Option Path) : Prop :=
  ∀ W m m' c', InStep t W m m' → Amid t W c c' →
    Together t W m m' (resolve t.here c t.own a) (resolve t.there c' (t.way 0) (onto t.place.keys a))
      (RootResults t)

/-- A step that only the second run takes. -/
theorem Together.bind_right {α β γ : Type} {x : Step γ} {y : Step α} {g : α → Step β} {r : α}
    {m₁ : Memory} {Q : Pairing → γ → β → Prop} (run : y.run.run m' = (.ok r, m₁))
    (h : Together t W m m₁ x (g r) Q) : Together t W m m' x (y >>= g) Q := by
  unfold Together
  rw [run_bind_of_ok run]
  exact h

/-- What is found in the document is found in the moved one below its place. -/
theorem together_findIn {path : Path} (root : RootFollows t c (some path)) (inStep : InStep t W m m')
    (amid : Amid t W c c') :
    Together t W m m' (findIn (resolve t.here c) t.own path)
      (findIn (resolve t.there c') (t.way 0) (path.prepend t.place)) fun W' =>
        Option.Rel (Twin t.place W') := by
  unfold findIn
  refine (root W m m' c' inStep amid).bind fun r r' W' m₁ m₁' _ inStep' results => ?_
  obtain ⟨x, y, rfl, rfl, object, u, sides, below⟩ := results
  have valued {z : Value} (h : z.fields?.isSome = true) : z.isObjectValued = true := by
    cases z <;> first | rfl | cases h
  have through : y.peekThrough (path.prepend t.place).first (path.prepend t.place).rest
      = u.peekThrough path.first path.rest :=
    peekThrough_of_below below (valued (sides.isSome_fields?_eq ▸ object)) rfl
  have found := both_peekThrough sides path.first path.rest
  simp only [valued object, valued (below.object (sides.isSome_fields?_eq ▸ object)), if_true, through]
  generalize x.peekThrough path.first path.rest = b at found ⊢
  generalize u.peekThrough path.first path.rest = b' at found ⊢
  cases found with
  | ok related => exact .pure inStep' related
  | error => exact .error inStep' _ _

theorem together_lookUp {n k : Nat} {r r' : Reference} (object : t.own.fields?.isSome = true)
    (inStep : InStep t W m m') (amid : Amid t W c c') (joins : Joins W n k)
    (moved : Moved t.place r r')
    (ih : ∀ trace u b, Follows t (c.within n trace) u (resolve t.here (c.within n trace) u b)
        (fun c' w => resolve t.there c' w b)
      ∧ (u = t.own → RootFollows t (c.within n trace) b)) :
    Together t W m m'
      (lookUp t.here (fun trace w a => resolve t.here (c.within n trace) w a) c.trace r a)
      (lookUp t.there (fun trace w a => resolve t.there (c'.within k trace) w a) c'.trace r' a)
      fun W' => Option.Rel (Twin t.place W') := by
  unfold lookUp
  rw [moved.path]
  refine Together.bind (together_findIn ((ih _ t.own _).2 rfl) inStep
    (amid.within inStep.fits joins _ _)) fun found found' W' m₁ m₁' keeps inStep' related => ?_
  cases related with
  | @some v w twin =>
    exact (ih _ v a).1 W' m₁ m₁' _ w inStep' ((amid.within inStep.fits joins _ _).mono keeps) twin
  | none =>
    have same : r.target.path.drop? r.included = some r.target.path := by
      rw [moved.own]
      rfl
    have none_left : ¬ r.included > 0 := by
      rw [moved.own]
      exact Nat.lt_irrefl 0
    have some_right : r'.included > 0 := Nat.lt_of_lt_of_le (Nat.succ_pos _) moved.included
    simp only [same, if_neg none_left, if_pos some_right, Transfer.here, Transfer.there, pure_bind,
      ← moved.path]
    cases back : r'.target.path.drop? r'.included with
    | none => exact .pure inStep' .none
    | some q =>
      -- the path without the keys in front leads elsewhere
      obtain ⟨m₂, run, inStep₂⟩ := exists_findIn_elsewhere (c := c'.within k
        (c'.trace ++ [{ path := q, optional := r'.target.optional }])) inStep' object
        (moved.elsewhere q back)
      exact .bind_right run (.pure inStep₂ .none)

/-! ### The recursion -/

/-- Resolving the document and the moved one keeps the runs in step. -/
def DocumentFollows (t : Transfer) (c : Surroundings) (a : Option Path) : Prop :=
  ∀ W m m' c', InStep t W m m' → Amid t W c c' →
    Together t W m m' (resolveNode t.here c t.own a) (resolveNode t.there c' t.moved a)
      (DocumentResults t)

/-- Resolving items. -/
def ItemsFollow (t : Transfer) (c : Surroundings) (xs : List Value) : Prop :=
  ∀ W m m' c' ys, InStep t W m m' → Amid t W c c' → List.Forall₂ (Twin t.place W) xs ys →
    Together t W m m' (resolveItems t.here c xs) (resolveItems t.there c' ys) fun W' =>
      List.Forall₂ (Option.Rel (Twin t.place W'))

/-- Resolving fields. -/
def FieldsFollow (t : Transfer) (c : Surroundings) (a : Option Path) (fs : Entries Value) : Prop :=
  ∀ W m m' c' gs, InStep t W m m' → Amid t W c c' → FieldsBoth (Twin t.place W) fs gs →
    Together t W m m' (resolveFields t.here c a fs) (resolveFields t.there c' a gs) fun W' =>
      FieldsBoth (Option.Rel (Twin t.place W'))

/-- Resolving layers of a merge from number `layer` on. -/
def LayersFollow (t : Transfer) (c : Surroundings) (whole : Value) (node : Option Nat)
    (a : Option Path) (layer : Nat) (above : Option Value) (below : List Value) : Prop :=
  ∀ W m m' c' whole' above' below', InStep t W m m' → Amid t W c c' →
    Twin t.place W whole whole' → node = whole.mark → whole.layers.drop layer = below →
    whole'.layers.drop layer = below' → List.Forall₂ (Twin t.place W) below below' →
    Option.Rel (Twin t.place W) above above' →
    Together t W m m' (resolveLayers t.here c whole node a layer above below)
      (resolveLayers t.there c' whole' whole'.mark a layer above' below') fun W' =>
        Option.Rel (Twin t.place W')

theorem itemsFollow_cons {xs : List Value}
    (head : Follows t c v (resolve t.here c v none) fun c' w => resolve t.there c' w none)
    (tail : ItemsFollow t c xs) : ItemsFollow t c (v :: xs) := by
  intro W m m' c' ys inStep amid twins
  obtain _ | ⟨twin, twins⟩ := twins
  rw [resolveItems, resolveItems]
  refine (head W m m' c' _ inStep amid twin).bind fun r r' W₁ m₁ m₁' keeps inStep₁ result => ?_
  refine (tail W₁ m₁ m₁' c' _ inStep₁ (amid.mono keeps)
    (twins.imp fun _ _ => Twin.mono keeps)).bind fun rs rs' W₂ m₂ m₂' keeps' inStep₂ results => ?_
  exact .pure inStep₂ (.cons (rel_mono result fun _ _ => Twin.mono keeps') results)

theorem fieldsFollow_cons {key : String} {fs : Entries Value}
    (head : ∀ b, alongField a key = some b →
      Follows t c v (resolve t.here c v b) fun c' w => resolve t.there c' w b)
    (tail : FieldsFollow t c a fs) : FieldsFollow t c a ((key, v) :: fs) := by
  intro W m m' c' gs inStep amid twins
  obtain _ | @⟨_, g, _, gs, twin, twins⟩ := twins
  obtain ⟨key', w⟩ := g
  obtain ⟨rfl, twin⟩ := twin
  rw [resolveFields, resolveFields]
  have rest {W₁ : Pairing} {m₁ m₁' : Memory} {r r' : Option Value}
      (keeps : ∀ i p, W i = some p → W₁ i = some p) (inStep₁ : InStep t W₁ m₁ m₁')
      (result : Option.Rel (Twin t.place W₁) r r') :
      Together t W₁ m₁ m₁'
        (do let rs ← resolveFields t.here c a fs; pure ((key, r) :: rs))
        (do let rs ← resolveFields t.there c' a gs; pure ((key, r') :: rs))
        fun W' => FieldsBoth (Option.Rel (Twin t.place W')) := by
    refine (tail W₁ m₁ m₁' c' gs inStep₁ (amid.mono keeps)
      (twins.imp fun _ _ h => ⟨h.1, h.2.mono keeps⟩)).bind
        fun rs rs' W₂ m₂ m₂' keeps' inStep₂ results => ?_
    exact .pure inStep₂ (.cons ⟨rfl, rel_mono result fun _ _ => Twin.mono keeps'⟩ results)
  simp only []
  cases ha : alongField a key with
  | none => exact rest (fun _ _ h => h) inStep (.some twin)
  | some b =>
    exact (head b ha W m m' c' w inStep amid twin).bind fun r r' W₁ m₁ m₁' keeps inStep₁ result =>
      rest keeps inStep₁ result

theorem layersFollow_cons {whole : Value} {node : Option Nat} {layer : Nat} {above : Option Value}
    {below : List Value} (flat : v.isMerge = false)
    (head : ∀ base, Follows t (c.opening node layer base v) v
      (resolve t.here (c.opening node layer base v) v a) fun c' w => resolve t.there c' w a)
    (tail : ∀ result, LayersFollow t c whole node a (layer + 1) (Entries.overlay above result) below) :
    LayersFollow t c whole node a layer above (v :: below) := by
  intro W m m' c' whole' above' below' inStep amid twin hnode hdrop hdrop' twins habove
  obtain _ | @⟨_, w, _, below', hw, twins⟩ := twins
  have hbelow : whole.layers.drop (layer + 1) = below := by rw [← List.tail_drop, hdrop]; rfl
  have hbelow' : whole'.layers.drop (layer + 1) = below' := by rw [← List.tail_drop, hdrop']; rfl
  have flat' : w.isMerge = false := by
    cases hw.sides <;> first | rfl | cases flat
  rw [resolveLayers, resolveLayers]
  rotate_left
  · rintro p k ls rfl
    cases flat'
  · rintro p k ls rfl
    cases flat
  simp only [Bool.false_eq_true, if_false]
  have waits := hw.sides.isPending_eq
  subst hnode
  have rest {base base' : Nat} {W₁ : Pairing} {m₁ m₁' : Memory}
      (keeps : ∀ i p, W i = some p → W₁ i = some p) (inStep₁ : InStep t W₁ m₁ m₁')
      (shows : v.isPending = true → Option.Rel (Twin t.place W₁)
        ((mergeLayers? below).map fun u => (u.markFrom base).1)
        ((mergeLayers? below').map fun u => (u.markFrom base').1))
      {next next' : Option Value → Step (Option Value)}
      (hnext : ∀ r, next r = resolveLayers t.here c whole whole.mark a (layer + 1)
        (Entries.overlay above r) below)
      (hnext' : ∀ r, next' r = resolveLayers t.there c' whole' whole'.mark a (layer + 1)
        (Entries.overlay above' r) below') :
      Together t W₁ m₁ m₁'
        (resolve t.here (c.opening whole.mark layer base v) v a >>= next)
        (resolve t.there (c'.opening whole'.mark layer base' w) w a >>= next')
        fun W' => Option.Rel (Twin t.place W') := by
    have amid₁ : Amid t W₁ (c.opening whole.mark layer base v)
        (c'.opening whole'.mark layer base' w) :=
      (amid.mono keeps).opening (twin.mono keeps) waits (by rwa [hbelow, hbelow'])
    refine (head base W₁ m₁ m₁' _ w inStep₁ amid₁ (hw.mono keeps)).bind
      fun r r' W₂ m₂ m₂' keeps₂ inStep₂ result => ?_
    rw [hnext, hnext']
    have keeps' (i : Nat) (p : Value × Value) (hp : W i = some p) : W₂ i = some p :=
      keeps₂ i p (keeps i p hp)
    refine tail r W₂ m₂ m₂' c' whole' _ below' inStep₂ (amid.mono keeps') (twin.mono keeps') rfl
      hbelow hbelow' (twins.imp fun _ _ => Twin.mono keeps') ?_
    cases habove with
    | none => cases result with
      | none => exact .none
      | some h => exact .some h
    | some h =>
      have h := h.mono keeps'
      cases result with
      | none => exact .some h
      | some h' => exact .some (h.withFallback h')
  -- only a layer that waits can come back to the merge
  by_cases pending : v.isPending = true
  · rw [if_pos pending, if_pos (waits ▸ pending)]
    refine (together_reserve inStep twins).bind fun base base' W₁ m₁ m₁' keeps inStep₁ shows => ?_
    exact rest keeps inStep₁ (fun _ => shows)
      (fun r => congrArg (resolveLayers t.here c whole _ a (layer + 1) · below)
        (Contract.overlay_eq above r))
      fun r => congrArg (resolveLayers t.there c' whole' _ a (layer + 1) · below')
        (Contract.overlay_eq above' r)
  · rw [if_neg pending, if_neg (waits ▸ pending)]
    exact rest (fun _ _ h => h) inStep (fun h => absurd h pending)
      (fun r => congrArg (resolveLayers t.here c whole _ a (layer + 1) · below)
        (Contract.overlay_eq above r))
      fun r => congrArg (resolveLayers t.there c' whole' _ a (layer + 1) · below')
        (Contract.overlay_eq above' r)

theorem together_keepResult (inStep : InStep t W m m') (twin : Twin t.place W v w)
    {r r' : Option Value} (result : Option.Rel (Twin t.place W) r r') :
    Together t W m m' (keepResult t.here v a r) (keepResult t.there w a r') fun W' =>
      Option.Rel (Twin t.place W') := by
  cases result with
  | none => exact .pure inStep .none
  | some result =>
    exact (together_keep inStep twin result a).bind fun _ _ W' _ _ keeps inStep' _ =>
      .pure inStep' (.some (result.mono keeps))

theorem follows_resolve
    (node : Follows t c v (resolveNode t.here c v a) fun c' w => resolveNode t.there c' w a)
    (shown : ∀ x, c.showing? v = some (some x) →
      Follows t c x (resolve t.here c x a) fun c' w => resolve t.there c' w a) :
    Follows t c v (resolve t.here c v a) fun c' w => resolve t.there c' w a := by
  intro W m m' c' w inStep amid twin
  have finish {x y : Step (Option Value)}
      (h : Together t W m m' x y fun W' => Option.Rel (Twin t.place W')) :
      Together t W m m' (x >>= keepResult t.here v a) (y >>= keepResult t.there w a) fun W' =>
        Option.Rel (Twin t.place W') :=
    h.bind fun _ _ _ _ _ keeps inStep' result => together_keepResult inStep' (twin.mono keeps) result
  simp only [resolve_eq]
  refine Together.get_bind ?_
  have known := inStep.recalled twin a
  generalize m.recall? v a = b at known ⊢
  generalize m'.recall? w a = b' at known ⊢
  cases known with
  | some result => exact .pure inStep (.some result)
  | none =>
    refine finish ?_
    have shows := amid.showing? inStep.fits twin
    generalize hb : c.showing? v = b at shows ⊢
    generalize c'.showing? w = b' at shows ⊢
    cases shows with
    | none => exact node W m m' c' w inStep amid twin
    | some shows =>
      cases shows with
      | none => exact .cycle inStep _ _
      | some part => exact shown _ hb W m m' c' _ inStep amid part

/-- Values that are their own result. -/
theorem follows_self (left : resolveNode t.here c v a = pure (some v))
    (right : ∀ W c' w, Twin t.place W v w → resolveNode t.there c' w a = pure (some w)) :
    Follows t c v (resolveNode t.here c v a) fun c' w => resolveNode t.there c' w a := by
  intro W m m' c' w inStep amid twin
  simp only [left, right W c' w twin]
  exact .pure inStep (.some twin)

theorem follows_object {p : Provenance} {closed : Bool} {fs : Entries Value}
    (waits : ¬ fieldsResolved fs = true) (h : FieldsFollow t c a fs) :
    Follows t c (object p closed fs) (resolveNode t.here c (object p closed fs) a) fun c' w =>
      resolveNode t.there c' w a := by
  intro W m m' c' w inStep amid twin
  have same := twin.isResolved_eq
  cases hs : twin.sides with
  | @object p q closed fs gs fields =>
    have waits' : ¬ fieldsResolved gs = true := by
      rw [isResolved, isResolved] at same
      rwa [← same]
    simp only []
    rw [resolveNode, resolveNode, if_neg waits, if_neg waits']
    refine (h W m m' c' gs inStep amid fields).bind fun rs rs' W₁ m₁ m₁' keeps inStep₁ results => ?_
    refine (together_rebuildObject inStep₁ (fields.imp fun _ _ h => ⟨h.1, h.2.mono keeps⟩)
      results).bind fun x y W₂ m₂ m₂' keeps₂ inStep₂ rebuilt => .pure inStep₂ (.some ?_)
    rcases rebuilt with ⟨rfl, rfl⟩ | ⟨-, twin', -⟩
    · exact twin.mono fun i p hp => keeps₂ i p (keeps i p hp)
    · exact twin'

/-- The document and the moved one are objects with twins as fields. -/
theorem documentFollows {p : Provenance} {closed : Bool} {fs : Entries Value}
    (own : t.own = object p closed fs) (h : FieldsFollow t c a fs) : DocumentFollows t c a := by
  intro W m m' c' inStep amid
  have document := inStep.document
  have waits := t.waits
  unfold DocumentResults
  rw [own] at document waits ⊢
  have waits' : t.moved.isResolved = false := document.isResolved_eq ▸ waits
  generalize t.moved = y at document waits' ⊢
  cases document with
  | @object _ q _ _ gs fields =>
    rw [resolveNode, resolveNode, if_neg (by rw [← isResolved, waits]; exact Bool.false_ne_true),
      if_neg (by rw [← isResolved, waits']; exact Bool.false_ne_true)]
    refine (h W m m' c' gs inStep amid fields).bind fun rs rs' W₁ m₁ m₁' keeps inStep₁ results => ?_
    refine (together_rebuildObject inStep₁ (fields.imp fun _ _ h => ⟨h.1, h.2.mono keeps⟩)
      results).bind fun x y W₂ m₂ m₂' keeps₂ inStep₂ rebuilt => .pure inStep₂ ?_
    exact ⟨x, y, rfl, rfl, rebuilt⟩

theorem follows_list {p : Provenance} {xs : List Value}
    (waits : ¬ (itemsResolved xs || a.isSome) = true) (h : ItemsFollow t c xs) :
    Follows t c (list p xs) (resolveNode t.here c (list p xs) a) fun c' w =>
      resolveNode t.there c' w a := by
  intro W m m' c' w inStep amid twin
  have same := twin.isResolved_eq
  cases hs : twin.sides with
  | @list p q xs ys items =>
    rw [isResolved, isResolved] at same
    simp only []
    rw [resolveNode, resolveNode, if_neg waits, if_neg (same ▸ waits)]
    refine (h W m m' c' ys inStep amid items).bind fun rs rs' W₁ m₁ m₁' keeps inStep₁ results => ?_
    refine (together_rebuildList inStep₁ (twin.mono keeps) (items.imp fun _ _ => Twin.mono keeps)
      results).bind fun x y W₂ m₂ m₂' _ inStep₂ rebuilt => .pure inStep₂ (.some rebuilt)

theorem follows_concat {p : Provenance} {ps : List Value} (h : ItemsFollow t c ps) :
    Follows t c (concat p ps) (resolveNode t.here c (concat p ps) a) fun c' w =>
      resolveNode t.there c' w a := by
  intro W m m' c' w inStep amid twin
  cases hs : twin.sides with
  | @concat p q ps qs pieces =>
    simp only []
    rw [resolveNode, resolveNode]
    refine (h W m m' c' qs inStep amid pieces).bind fun rs rs' W₁ m₁ m₁' keeps inStep₁ results => ?_
    exact together_joinPieces inStep₁ (List.rel_filterMap (fun _ _ h => h) results)

theorem follows_merge {p : Provenance} {k : MergeKind} {ls : List Value}
    (h : LayersFollow t c (merge p k ls) p.mark a 0 none ls) :
    Follows t c (merge p k ls) (resolveNode t.here c (merge p k ls) a) fun c' w =>
      resolveNode t.there c' w a := by
  intro W m m' c' w inStep amid twin
  cases hs : twin.sides with
  | @merge p q k ls ls' layers =>
    simp only []
    rw [resolveNode, resolveNode]
    refine (h W m m' c' _ none ls' inStep amid twin rfl rfl rfl layers .none).bind
      fun r r' W₁ m₁ m₁' _ inStep₁ result => ?_
    cases result with
    | none => exact .pure inStep₁ .none
    | some twin =>
      exact (together_renew inStep₁ twin).bind fun _ _ W₂ _ _ _ inStep₂ h =>
        .pure inStep₂ (.some h.1)

theorem follows_reference {p : Provenance} {r : Reference} (object : t.own.fields?.isSome = true)
    (ih : ∀ n, p.mark = some n → n ∈ c.available → ∀ trace u b,
      Follows t (c.within n trace) u (resolve t.here (c.within n trace) u b)
        (fun c' w => resolve t.there c' w b)
      ∧ (u = t.own → RootFollows t (c.within n trace) b)) :
    Follows t c (reference p r) (resolveNode t.here c (reference p r) a) fun c' w =>
      resolveNode t.there c' w a := by
  intro W m m' c' w inStep amid twin
  have marks := twin.marks
  cases hs : twin.sides with
  | @reference p q r r' moved =>
    simp only []
    rw [resolveNode, resolveNode]
    cases marks with
    | fresh left right =>
      rw [show p.mark = none from left, show q.mark = none from right]
      exact .cycle inStep _ _
    | @known n k left right entry =>
      have joins : Joins W n k := ⟨_, _, entry, right⟩
      have available := amid.mem_iff inStep.fits joins
      rw [show p.mark = some n from left, show q.mark = some k from right]
      simp only []
      by_cases free : n ∈ c.available
      · rw [dif_pos free, dif_pos (available.1 free)]
        exact together_settleLookup moved.optional
          (together_lookUp object inStep amid joins moved (ih n left free))
      · rw [dif_neg free, dif_neg (available.not.1 free)]
        exact .cycle inStep _ _

/-- **Resolving follows the moved document** wherever it goes in the document on its own. -/
theorem follows (object : t.own.fields?.isSome = true) (c : Surroundings) (v : Value)
    (a : Option Path) :
    Follows t c v (resolve t.here c v a) (fun c' w => resolve t.there c' w a)
      ∧ (v = t.own → RootFollows t c a) := by
  have other {v : Value} {P : Prop} (h : v.fields?.isSome = false) (own : v = t.own) : P := by
    rw [own, object] at h
    cases h
  -- along the recursion of the first run, one case for each of its branches
  refine (resolve.mutual_induct t.here
    (fun c v a => Follows t c v (resolve t.here c v a) (fun c' w => resolve t.there c' w a)
      ∧ (v = t.own → RootFollows t c a))
    (fun c v a => Follows t c v (resolveNode t.here c v a) (fun c' w => resolveNode t.there c' w a)
      ∧ (v = t.own → DocumentFollows t c a))
    (fun c whole node a layer above below => LayersFollow t c whole node a layer above below)
    (fun c xs => ItemsFollow t c xs) (fun c a fs => FieldsFollow t c a fs)
    ?resolve ?objectResolved ?object ?listResolved ?list ?unmarked ?reference ?unavailable ?concat
    ?merge ?leaf ?noLayers ?nested ?layers ?noItems ?items ?noFields ?field ?otherField).1 c v a
  case resolve =>
    intro c v a node shown
    refine ⟨follows_resolve node.1 fun x h => (shown x h).1, ?_⟩
    rintro rfl W m m' c' inStep amid
    exact together_way inStep object (node.2 rfl W m m' c' inStep amid)
  case objectResolved =>
    intro c a p closed fs h
    refine ⟨follows_self (by rw [resolveNode, if_pos h]) fun W c' w twin => ?_, fun own => ?_⟩
    · have same := twin.isResolved_eq
      rw [isResolved, h] at same
      cases twin.sides with
      | object =>
        rw [isResolved] at same
        rw [resolveNode, if_pos same.symm]
    · have waits := t.waits
      rw [← own, isResolved, h] at waits
      cases waits
  case object => exact fun c a p closed fs h ih => ⟨follows_object h ih, fun own => documentFollows own.symm ih⟩
  case listResolved =>
    intro c a p xs h
    refine ⟨follows_self (by rw [resolveNode, if_pos h]) fun W c' w twin => ?_, other rfl⟩
    have same := twin.isResolved_eq
    cases twin.sides with
    | list =>
      rw [isResolved, isResolved] at same
      rw [resolveNode, if_pos (same ▸ h)]
  case list => exact fun c a p xs h ih => ⟨follows_list h ih, other rfl⟩
  case unmarked =>
    exact fun c a p r h => ⟨follows_reference object fun n hn => by simp [h] at hn, other rfl⟩
  case reference =>
    intro c a p r m hm hc ih
    refine ⟨follows_reference object fun n hn _ => ?_, other rfl⟩
    cases hm.symm.trans hn
    exact ih
  case unavailable =>
    intro c a p r m hm hc
    refine ⟨follows_reference object fun n hn h => ?_, other rfl⟩
    cases hm.symm.trans hn
    exact absurd h hc
  case concat => exact fun c a p ps ih => ⟨follows_concat ih, other rfl⟩
  case merge => exact fun c a p k ls ih => ⟨follows_merge ih, other rfl⟩
  case leaf =>
    intro c v a notObject notList notReference notConcat notMerge
    refine ⟨follows_self (by rw [resolveNode] <;> assumption) fun W c' w twin => ?_, fun own => ?_⟩
    · cases twin.sides with
      | object => exact (notObject _ _ _ rfl).elim
      | list => exact (notList _ _ rfl).elim
      | reference => exact (notReference _ _ rfl).elim
      | concat => exact (notConcat _ _ rfl).elim
      | merge => exact (notMerge _ _ _ rfl).elim
      | _ => rw [resolveNode] <;> intros <;> contradiction
    · obtain ⟨fs, hfs⟩ := Option.isSome_iff_exists.1 object
      obtain ⟨p, closed, eq⟩ := eq_object_of_fields? hfs
      exact (notObject _ _ _ (own.trans eq)).elim
  case noLayers =>
    intro c whole node a layer above W m m' c' whole' above' below' inStep _ _ _ hdrop hdrop' twins habove
    clear hdrop hdrop'
    cases twins
    rw [resolveLayers, resolveLayers]
    exact .pure inStep habove
  case nested =>
    intro c whole node a layer above v below nested _ _ W m m' c' whole' above' below' inStep _ _ _
      hdrop hdrop' twins _
    clear hdrop hdrop'
    obtain _ | ⟨twin, twins⟩ := twins
    cases twin.sides with
    | merge =>
      rw [resolveLayers, resolveLayers]
      exact .error inStep _ _
    | _ => exact absurd nested Bool.false_ne_true
  case layers =>
    intro c whole node a layer above v below flat head tail
    refine layersFollow_cons ?_ (fun base => (head base).1) fun result =>
      Contract.overlay_eq above result ▸ tail result
    cases v with
    | merge p k ls => exact absurd rfl flat
    | _ => rfl
  case noItems =>
    intro c W m m' c' ys inStep _ twins
    cases twins
    rw [resolveItems, resolveItems]
    exact .pure inStep .nil
  case items => exact fun c v xs head tail => itemsFollow_cons head.1 tail
  case noFields =>
    intro c a W m m' c' gs inStep _ twins
    cases twins
    rw [resolveFields, resolveFields]
    exact .pure inStep .nil
  case field =>
    intro c a key v fs path hpath tail head
    refine fieldsFollow_cons (fun path' hpath' => ?_) tail
    cases hpath.symm.trans hpath'
    exact head.1
  case otherField =>
    intro c a key v fs hpath tail
    refine fieldsFollow_cons (fun path' hpath' => ?_) tail
    cases hpath.symm.trans hpath'

end Resolution

end Hocon
