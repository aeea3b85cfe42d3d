import Hocon.Proofs.Lockstep
import Hocon.Proofs.Resolving

/-!
# The way to a moved document

Whatever is asked of a moved document is asked of the root above it, and each object on the way is
resolved with it: as the one field that it has.  So the second run has more results to keep, one
for each node on the way, and they are all around the same result for the document.  A path that
starts with another key than the place finds nothing there.
-/

namespace Hocon

namespace Value

theorem Sides.isResolved_eq {place : Path} {W : Pairing} {v w : Value}
    (h : Sides place (Twin place W) v w) : v.isResolved = w.isResolved := by
  have parts : (∀ u ∈ v.parts, u.isResolved = true) ↔ ∀ u ∈ w.parts, u.isResolved = true := by
    have twins := h.parts
    generalize v.parts = xs at twins ⊢
    generalize w.parts = ys at twins ⊢
    induction twins with
    | nil => simp
    | cons head _ ih => simp only [List.forall_mem_cons, head.isResolved_eq, ih]
  rw [Bool.eq_iff_iff, isResolved_iff, isResolved_iff, h.isPending_eq, parts]

theorem Sides.isSome_fields?_eq {place : Path} {R : Value → Value → Prop} {v w : Value}
    (h : Sides place R v w) : v.fields?.isSome = w.fields?.isSome := by
  cases h <;> rfl

theorem Below.object {keys : List String} {v w : Value} (h : Below keys v w)
    (object : v.fields?.isSome = true) : w.fields?.isSome = true := by
  cases h with
  | here => exact object
  | inside => rfl

end Value

namespace Resolution

open Value

variable {s : Setting} {c c' : Surroundings} {t : Transfer} {W W' : Pairing}
  {m m' m₁ m₂ : Memory} {v w x y : Value} {a : Option Path} {e : Failure} {i : Nat}

/-! ### Resolving an object -/

/-- The part of a node for which a result is good. -/
def partFor (result : Value) (along : Option Path) : Option Path :=
  if result.isResolved then none else along

theorem showing?_of_object (c : Surroundings) (object : v.fields?.isSome = true) :
    c.showing? v = none := by
  cases v with
  | object => rfl
  | _ => cases object

theorem run_get_bind {β : Type} {f : Memory → Step β} :
    (get >>= f).run.run m = (f m).run.run m := rfl

theorem resolve_run_of_known (known : m.recall? v a = some w) :
    (resolve s c v a).run.run m = (.ok (some w), m) := by
  rw [resolve_eq, run_get_bind, known]
  rfl

/-- A node that is not open is resolved as it is. -/
theorem resolve_run_of_closed (unknown : m.recall? v a = none) (closed : c.showing? v = none) :
    (resolve s c v a).run.run m = (resolveNode s c v a >>= keepResult s v a).run.run m := by
  rw [resolve_eq, closed, run_get_bind, unknown]
  rfl

theorem resolve_run_of_unknown (unknown : m.recall? v a = none) (object : v.fields?.isSome = true) :
    (resolve s c v a).run.run m = (resolveNode s c v a >>= keepResult s v a).run.run m :=
  resolve_run_of_closed unknown (showing?_of_object c object)

theorem run_bind_of_ok {α β : Type} {x : Step α} {f : α → Step β} {r : α}
    (h : x.run.run m = (.ok r, m₁)) : (x >>= f).run.run m = (f r).run.run m₁ := by
  simp only [ExceptT.run_bind, StateT.run_bind, h]
  rfl

theorem run_bind_of_error {α β : Type} {x : Step α} {f : α → Step β}
    (h : x.run.run m = (.error e, m₁)) : (x >>= f).run.run m = (.error e, m₁) := by
  simp only [ExceptT.run_bind, StateT.run_bind, h]
  rfl

/-- A failure is the outcome. -/
theorem resolve_run_of_error (unknown : m.recall? v a = none) (object : v.fields?.isSome = true)
    (h : (resolveNode s c v a).run.run m = (.error e, m₁)) :
    (resolve s c v a).run.run m = (.error e, m₁) := by
  rw [resolve_run_of_unknown unknown object, run_bind_of_error h]

/-- A result is kept for the part for which it is good. -/
theorem resolve_run_of_ok (unknown : m.recall? v a = none) (object : v.fields?.isSome = true)
    (h : (resolveNode s c v a).run.run m = (.ok (some w), m₁))
    (good : w.isResolved = true ∨ a.isSome = true) :
    (resolve s c v a).run.run m = (.ok (some w), m₁.remember v (partFor w a) w) := by
  rw [resolve_run_of_unknown unknown object, run_bind_of_ok h]
  unfold keepResult keep partFor
  by_cases resolved : w.isResolved = true
  · simp only [resolved, if_true]
    rfl
  · simp only [resolved, good.resolve_left resolved, Bool.true_or, if_true]
    rfl

/-- A result that still waits is not good for a whole node. -/
theorem resolve_run_of_pending (unknown : m.recall? v none = none)
    (object : v.fields?.isSome = true) (strict : s.allowUnresolved = false)
    (h : (resolveNode s c v none).run.run m = (.ok (some w), m₁)) (waits : w.isResolved = false) :
    (resolve s c v none).run.run m = (.error (.error (.broken (.stillPending w))), m₁) := by
  rw [resolve_run_of_unknown unknown object, run_bind_of_ok h]
  unfold keepResult keep
  simp only [waits, strict]
  rfl

/-- An object with one field gets its mark before the field does. -/
theorem markFrom_single (o : Origin) (closed : Bool) (key : String) (v : Value) (n : Nat) :
    (object { origin := o } closed [(key, v)]).markFrom n
      = (object { origin := o, mark := some n } closed [(key, (v.markFrom (n + 1)).1)],
        (v.markFrom (n + 1)).2) := by
  have unmarked : ¬ (Provenance.isMarked { origin := o }) = true := Bool.false_ne_true
  rw [markFrom, if_neg unmarked, markFields, markFields]
  rfl

/-! ### The nodes on the way -/

namespace Transfer

theorem ahead_length : t.ahead t.place.length = [] := by
  have : t.place.keys.length = t.place.length := rfl
  rw [ahead, ← this, List.drop_length]

theorem ahead_lt (h : i < t.place.length) : t.ahead i = t.place.keys[i] :: t.ahead (i + 1) :=
  List.drop_eq_getElem_cons h

theorem object (moved : t.moved.fields?.isSome = true) (le : i ≤ t.place.length) :
    (t.way i).fields?.isSome = true := by
  rcases Nat.lt_or_eq_of_le le with lt | rfl
  · obtain ⟨p, eq⟩ := t.step i lt
    rw [eq]
    rfl
  · exact moved

theorem isResolved_way (moved : t.moved.isResolved = false) (le : i ≤ t.place.length) :
    (t.way i).isResolved = false := by
  induction hd : t.place.length - i generalizing i with
  | zero =>
    rw [show i = t.place.length by omega]
    exact moved
  | succ d ih =>
    obtain ⟨p, eq⟩ := t.step i (by omega)
    rw [eq, isResolved, fieldsResolved, ih (i := i + 1) (by omega) (by omega)]
    rfl

/-- A node on the way is resolved as the one field that it has. -/
theorem resolveNode_way (waits : t.moved.isResolved = false) (lt : i < t.place.length) :
    resolveNode s c (t.way i) (onto (t.ahead i) a)
      = resolve s c (t.way (i + 1)) (onto (t.ahead (i + 1)) a) >>= fun result =>
        some <$> rebuildObject (t.way i) [(t.place.keys[i], t.way (i + 1))]
          [(t.place.keys[i], result)] := by
  obtain ⟨p, eq⟩ := t.step i lt
  have pending : fieldsResolved [(t.place.keys[i], t.way (i + 1))] ≠ true := by
    have := t.isResolved_way waits (Nat.le_of_lt lt)
    rw [eq, isResolved] at this
    rw [this]
    exact Bool.false_ne_true
  rw [eq, resolveNode, if_neg pending, resolveFields, t.ahead_lt lt, alongField_onto]
  simp only [resolveFields, bind_assoc, pure_bind, map_eq_pure_bind]

end Transfer

/-! ### Results around a result -/

/-- What became of the nodes on the way from number `i` on, where the document was resolved to `y`,
which is good for the part `part` of it: what each was resolved to is remembered. -/
structure Led (t : Transfer) (y : Value) (part : Option Path) (m₁ : Memory) (i : Nat) (x : Value)
    (m₂ : Memory) : Prop where
  below : Below (t.ahead i) y x
  mark : x.mark.isSome = true
  same : x.mark = some (t.base + i) → x = t.way i
  next : m₁.next ≤ m₂.next
  stored : ∀ j, i ≤ j → j ≤ t.place.length → ∃ z, Below (t.ahead j) y z
    ∧ m₂.find? (t.base + j) (onto (t.ahead j) part) = some z
  others : ∀ n b, (∀ j, i ≤ j → j ≤ t.place.length → n = t.base + j → b ≠ onto (t.ahead j) part) →
    m₂.find? n b = m₁.find? n b

/-- What is resolved is remembered. -/
theorem Led.remember {part : Option Path} (h : Below (t.ahead i) y x) (mark : x.mark.isSome = true)
    (same : x.mark = some (t.base + i) → x = t.way i) (le : i ≤ t.place.length)
    (next : m₁.next ≤ m₂.next)
    (stored : ∀ j, i + 1 ≤ j → j ≤ t.place.length → ∃ z, Below (t.ahead j) y z
      ∧ m₂.find? (t.base + j) (onto (t.ahead j) part) = some z)
    (others : ∀ n b, (∀ j, i + 1 ≤ j → j ≤ t.place.length → n = t.base + j →
      b ≠ onto (t.ahead j) part) → m₂.find? n b = m₁.find? n b) :
    Led t y part m₁ i x (m₂.remember (t.way i) (onto (t.ahead i) part) x) where
  below := h
  mark := mark
  same := same
  next := by rwa [Memory.next_remember]
  stored j low high := by
    rcases Nat.lt_or_eq_of_le low with low | rfl
    · rw [Memory.find?_remember, t.way_mark i le, if_neg fun e => by simp at e; omega]
      exact stored j low high
    · rw [Memory.find?_remember, if_pos ⟨t.way_mark i le, rfl⟩]
      exact ⟨x, h, rfl⟩
  others n b other := by
    rw [Memory.find?_remember, t.way_mark i le, if_neg]
    · exact others n b fun j low => other j (Nat.le_of_succ_le low)
    · rintro ⟨here, same⟩
      exact other i (Nat.le_refl i) le (Option.some.inj here).symm same.symm

theorem partFor_onto {keys : List String} (same : x.isResolved = y.isResolved) :
    partFor x (onto keys a) = onto keys (partFor y a) := by
  unfold partFor
  rw [same]
  split <;> rfl

/-- A node on the way stays as it is, or there is a new one around what the node below was resolved
to. -/
theorem exists_rebuilt {part : Option Path} (lt : i < t.place.length)
    (led : Led t y part m₁ (i + 1) x m₂) (next : t.base + t.place.length < m₁.next) :
    ∃ z m₃, (rebuildObject (t.way i) [(t.place.keys[i], t.way (i + 1))]
        [(t.place.keys[i], some x)]).run.run m₂ = (.ok z, m₃)
      ∧ Below (t.ahead i) y z ∧ z.mark.isSome = true ∧ (z.mark = some (t.base + i) → z = t.way i)
      ∧ m₂.next ≤ m₃.next ∧ ∀ n b, m₃.find? n b = m₂.find? n b := by
  obtain ⟨p, eq⟩ := t.step i lt
  unfold rebuildObject
  by_cases kept : x.mark = (t.way (i + 1)).mark
  · have here : x = t.way (i + 1) := led.same (kept.trans (t.way_mark (i + 1) lt))
    refine ⟨t.way i, m₂, ?_, ?_, ?_, fun _ => rfl, Nat.le_refl _, fun _ _ => rfl⟩
    · simp only [List.map_cons, List.map_nil, Option.bind_some, kept, beq_self_eq_true, if_true]
      rfl
    · rw [eq, t.ahead_lt lt, ← here]
      exact .inside led.below
    · rw [t.way_mark i (Nat.le_of_lt lt)]
      rfl
  · obtain ⟨k, hk⟩ := Option.isSome_iff_exists.1 led.mark
    refine ⟨.object { origin := p.origin, mark := some m₂.next } false [(t.place.keys[i], x)],
      { m₂ with next := m₂.next + 1 }, ?_, ?_, rfl, fun e => ?_, Nat.le_succ _, fun _ _ => rfl⟩
    · have new : ¬ ([x.mark] == [(t.way (i + 1)).mark]) = true := by simpa using kept
      simp only [List.map_cons, List.map_nil, Option.bind_some, if_neg new, eq]
      show (_, _) = _
      simp only [List.filterMap_cons, List.filterMap_nil, Option.map_some, markFrom_single,
        markFrom_of_mark hk]
      rfl
    · rw [t.ahead_lt lt]
      exact .inside led.below
    · have here : m₂.next = t.base + i := Option.some.inj e
      have := led.next
      omega

/-- The nodes on the way are resolved around a result for the document. -/
theorem exists_led (waits : t.moved.isResolved = false) (object : t.moved.fields?.isSome = true)
    (unknown : ∀ j, j ≤ t.place.length → m.recall? (t.way j) (onto (t.ahead j) a) = none)
    (h : (resolveNode s c t.moved a).run.run m = (.ok (some y), m₁))
    (good : y.isResolved = true ∨ a.isSome = true) (mark : y.mark.isSome = true)
    (same : y.mark = t.moved.mark → y = t.moved) (next : t.base + t.place.length < m₁.next)
    (le : i ≤ t.place.length) :
    ∃ x m₂, (resolve s c (t.way i) (onto (t.ahead i) a)).run.run m = (.ok (some x), m₂)
      ∧ Led t y (partFor y a) m₁ i x m₂ := by
  -- from the document up to the root
  induction hd : t.place.length - i generalizing i with
  | zero =>
    obtain rfl : i = t.place.length := by omega
    have led : Led t y (partFor y a) m₁ t.place.length y
        (m₁.remember (t.way t.place.length) (onto (t.ahead t.place.length) (partFor y a)) y) := by
      refine .remember (by rw [t.ahead_length]; exact .here y) mark (fun e => same ?_)
        (Nat.le_refl _) (Nat.le_refl _) (fun j low high => ?_) fun _ _ _ => rfl
      · rw [e, Transfer.moved, t.way_mark _ (Nat.le_refl _)]
      · omega
    have fresh := unknown _ (Nat.le_refl _)
    rw [t.ahead_length, onto_nil] at led fresh ⊢
    exact ⟨y, _, resolve_run_of_ok fresh object h good, led⟩
  | succ d ih =>
    obtain ⟨x, m₂, run, led⟩ := ih (i := i + 1) (by omega) (by omega)
    have lt : i < t.place.length := by omega
    obtain ⟨z, m₃, rebuilt, around, mark', same', next', known⟩ := exists_rebuilt lt led next
    have node : (resolveNode s c (t.way i) (onto (t.ahead i) a)).run.run m = (.ok (some z), m₃) := by
      rw [t.resolveNode_way waits lt, run_bind_of_ok run, map_eq_pure_bind, run_bind_of_ok rebuilt]
      rfl
    have good' : z.isResolved = true ∨ (onto (t.ahead i) a).isSome = true := by
      rw [around.isResolved_eq, isSome_onto]
      exact good
    refine ⟨z, _, resolve_run_of_ok (unknown i le) (t.object object le) node good', ?_⟩
    rw [partFor_onto around.isResolved_eq]
    refine .remember around mark' same' le (Nat.le_trans led.next next') (fun j low high => ?_)
      fun n b other => ?_
    · rw [known]
      exact led.stored j low high
    · rw [known]
      exact led.others n b other

/-- A failure at the document is one at all nodes on the way. -/
theorem way_run_of_error (waits : t.moved.isResolved = false)
    (object : t.moved.fields?.isSome = true)
    (unknown : ∀ j, j ≤ t.place.length → m.recall? (t.way j) (onto (t.ahead j) a) = none)
    (h : (resolve s c t.moved a).run.run m = (.error e, m₁)) (le : i ≤ t.place.length) :
    (resolve s c (t.way i) (onto (t.ahead i) a)).run.run m = (.error e, m₁) := by
  induction hd : t.place.length - i generalizing i with
  | zero =>
    obtain rfl : i = t.place.length := by omega
    rw [t.ahead_length, onto_nil]
    exact h
  | succ d ih =>
    refine resolve_run_of_error (unknown i le) (t.object object le) ?_
    rw [t.resolveNode_way waits (by omega), run_bind_of_error (ih (by omega) (by omega))]

/-! ### The document in both runs -/

/-- Results for the document on its own and for the moved one. -/
def DocumentResults (t : Transfer) (W : Pairing) (r r' : Option Value) : Prop :=
  ∃ x y, r = some x ∧ r' = some y ∧ (x = t.own ∧ y = t.moved
    ∨ x.fields?.isSome = true ∧ Twin t.place W x y ∧ y.mark.isSome = true)

/-- Results for the document on its own and for the root above the moved one. -/
def RootResults (t : Transfer) (W : Pairing) (r r' : Option Value) : Prop :=
  ∃ x y, r = some x ∧ r' = some y ∧ Around t.place W t.place.keys x y

/-- The runs stay in step when both remember results for the document. -/
theorem InStep.led (h : InStep t W m₁ m₂) {x y z : Value} {part : Option Path} {m₃ : Memory}
    (object : x.fields?.isSome = true) (sides : Sides t.place (Twin t.place W) x y)
    (led : Led t y part m₂ 0 z m₃) : InStep t W (m₁.remember t.own part x) m₃ := by
  have low := h.fits.le
  have low' := h.fits.le'
  have next := led.next
  -- what is not on the way is known as before
  have beyond {k : Nat} (lt : t.base + t.place.length < k) (b : Option Path) :
      m₃.find? k b = m₂.find? k b := led.others k b fun j _ high e => by omega
  have own {n : Nat} (ne : n ≠ t.mark) (b : Option Path) :
      (m₁.remember t.own part x).find? n b = m₁.find? n b := by
    rw [Memory.find?_remember, t.own_mark, if_neg fun e => ne (Option.some.inj e.1).symm]
  constructor
  case fits =>
    rw [Memory.next_remember]
    exact h.fits.weaken (Nat.le_refl _) next
  case document => exact h.document
  case unused =>
    intro n le b
    rw [Memory.next_remember] at le
    rw [own (by omega)]
    exact h.unused n le b
  case unused' =>
    intro k le b
    rw [beyond (by omega)]
    exact h.unused' k (by omega) b
  case memo =>
    intro n k joins b
    obtain ⟨v, w, entry, mark⟩ := joins
    have := (h.fits.left n v w entry).2.1
    obtain ⟨k', mark', le, -⟩ := h.fits.right n v w entry
    cases mark.symm.trans mark'
    rw [own (by omega), beyond (by omega)]
    exact h.memo n k ⟨v, w, entry, mark⟩ b
  case way =>
    intro i le b
    rw [Memory.find?_remember, t.own_mark]
    by_cases here : part = b
    · subst here
      obtain ⟨z, below, stored⟩ := led.stored i (Nat.zero_le i) le
      rw [if_pos ⟨rfl, rfl⟩, stored]
      exact .some ⟨object, y, sides, below⟩
    · rw [if_neg fun e => here e.2, led.others]
      · exact h.way i le b
      · intro j _ _ e e'
        obtain rfl : i = j := by omega
        exact here (onto_inj.1 e').symm
  case elsewhere =>
    intro q first w hw
    refine h.elsewhere q first w ?_
    rw [← hw, eq_comm]
    refine led.others t.base (some q) fun j _ _ e e' => ?_
    -- no such path is one of the document seen from the root
    obtain rfl : j = 0 := by omega
    cases part with
    | none => cases e'
    | some path =>
      cases e'
      exact first rfl

/-- **The document and the root above the moved one are resolved in step** if the documents are. -/
theorem together_way (inStep : InStep t W m m') (object : t.own.fields?.isSome = true)
    (node : Together t W m m' (resolveNode t.here c t.own a) (resolveNode t.there c' t.moved a)
      (DocumentResults t)) :
    Together t W m m' (resolve t.here c t.own a) (resolve t.there c' (t.way 0) (onto t.place.keys a))
      (RootResults t) := by
  have object' : t.moved.fields?.isSome = true := inStep.document.isSome_fields?_eq ▸ object
  have waits : t.moved.isResolved = false := inStep.document.isResolved_eq ▸ t.waits
  have recalled {j : Nat} (le : j ≤ t.place.length) := inStep.recall?_way le a
  cases known : m.recall? t.own a with
  | some x =>
    have there := recalled (Nat.zero_le _)
    rw [known] at there
    obtain ⟨y, eq, around⟩ : ∃ y, m'.recall? (t.way 0) (onto t.place.keys a) = some y
        ∧ Around t.place W t.place.keys x y := by
      generalize eq : m'.recall? _ _ = b at there
      cases there with
      | some around => exact ⟨_, eq, around⟩
    refine ⟨W, fun _ _ h => h, ?_⟩
    rw [resolve_run_of_known known, resolve_run_of_known eq]
    exact ⟨inStep, .ok ⟨x, y, rfl, rfl, around⟩⟩
  | none =>
    have unknown (j : Nat) (le : j ≤ t.place.length) :
        m'.recall? (t.way j) (onto (t.ahead j) a) = none := by
      have there := recalled le
      rw [known] at there
      generalize m'.recall? _ _ = b at there
      cases there
      rfl
    have fresh : m'.recall? t.moved a = none := by
      have := unknown _ (Nat.le_refl _)
      rwa [t.ahead_length, onto_nil] at this
    obtain ⟨W', keeps, inStep', ends⟩ := node
    rcases hx : (resolveNode t.here c t.own a).run.run m with ⟨r, m₁⟩
    rcases hy : (resolveNode t.there c' t.moved a).run.run m' with ⟨r', m₁'⟩
    rw [hx, hy] at inStep' ends
    have failing {e e' : Failure} (left : (resolve t.here c t.own a).run.run m = (.error e, m₁))
        (right : (resolve t.there c' t.moved a).run.run m' = (.error e', m₁'))
        (ends : Ends (RootResults t W') (.error e) (.error e')) :
        Together t W m m' (resolve t.here c t.own a)
          (resolve t.there c' (t.way 0) (onto t.place.keys a)) (RootResults t) := by
      have right : (resolve t.there c' (t.way 0) (onto (t.ahead 0) a)).run.run m' = _ :=
        way_run_of_error waits object' unknown right (Nat.zero_le _)
      refine ⟨W', keeps, ?_⟩
      rw [show t.place.keys = t.ahead 0 from rfl, left, right]
      exact ⟨inStep', ends⟩
    cases ends with
    | cycle =>
      exact failing (resolve_run_of_error known object hx) (resolve_run_of_error fresh object' hy)
        (.cycle _ _)
    | error =>
      exact failing (resolve_run_of_error known object hx) (resolve_run_of_error fresh object' hy)
        (.error _ _)
    | ok related =>
      obtain ⟨x, y, rfl, rfl, either⟩ := related
      obtain ⟨object, sides, mark, same⟩ : x.fields?.isSome = true
          ∧ Sides t.place (Twin t.place W') x y ∧ y.mark.isSome = true
          ∧ (y.mark = t.moved.mark → y = t.moved) := by
        have own_mark : t.moved.mark = some (t.base + t.place.length) := t.way_mark _ (Nat.le_refl _)
        rcases either with ⟨rfl, rfl⟩ | ⟨object, twin, mark⟩
        · exact ⟨object, inStep'.document, by rw [own_mark]; rfl, fun _ => rfl⟩
        · refine ⟨object, twin.sides, mark, fun e => ?_⟩
          cases twin.marks with
          | fresh _ right => cases right.symm.trans (e.trans own_mark)
          | known _ _ entry =>
            obtain ⟨k, mark, low, -⟩ := inStep'.fits.right _ _ _ entry
            have : k = t.base + t.place.length := Option.some.inj (mark.symm.trans (e.trans own_mark))
            omega
      by_cases good : y.isResolved = true ∨ a.isSome = true
      · have next : t.base + t.place.length < m₁'.next := inStep'.fits.le'
        obtain ⟨z, m₂, run, led⟩ : ∃ z m₂, (resolve t.there c' (t.way 0) (onto (t.ahead 0) a)).run.run m'
            = (.ok (some z), m₂) ∧ Led t y (partFor y a) m₁' 0 z m₂ :=
          exists_led waits object' unknown hy good mark same next (Nat.zero_le _)
        have own := resolve_run_of_ok known ‹t.own.fields?.isSome = true› hx
          (sides.isResolved_eq ▸ good)
        have part : partFor x a = partFor y a := by unfold partFor; rw [sides.isResolved_eq]
        refine ⟨W', keeps, ?_⟩
        rw [show t.place.keys = t.ahead 0 from rfl, own, run, part]
        exact ⟨inStep'.led object sides led, .ok ⟨x, z, rfl, rfl, object, y, sides, led.below⟩⟩
      · -- what still waits is no result for all of the document
        obtain ⟨pending, whole⟩ := not_or.1 good
        obtain rfl : a = none := by simpa using whole
        replace pending : y.isResolved = false := by simpa using pending
        exact failing
          (resolve_run_of_pending known ‹_› rfl hx (sides.isResolved_eq.trans pending))
          (resolve_run_of_pending fresh object' rfl hy pending) (.error _ _)

/-! ### Paths that lead elsewhere -/

/-- The second run may remember that a path does not lead to the document. -/
theorem InStep.remember_root (h : InStep t W m m') {q : Path} (first : q.first ≠ t.place.first) :
    InStep t W m (m'.remember (t.way 0) (some q) (t.way 0)) := by
  have root : (t.way 0).mark = some t.base := t.way_mark 0 (Nat.zero_le _)
  have low' := h.fits.le'
  have other {k : Nat} {b : Option Path} (ne : ¬ (k = t.base ∧ b = some q)) :
      (m'.remember (t.way 0) (some q) (t.way 0)).find? k b = m'.find? k b := by
    rw [Memory.find?_remember, root, if_neg fun e => ne ⟨(Option.some.inj e.1).symm, e.2.symm⟩]
  constructor
  case fits =>
    rw [Memory.next_remember]
    exact h.fits
  case document => exact h.document
  case unused => exact h.unused
  case unused' =>
    intro k le b
    rw [Memory.next_remember] at le
    rw [other (by omega)]
    exact h.unused' k le b
  case memo =>
    intro n k joins b
    obtain ⟨v, w, entry, mark⟩ := joins
    obtain ⟨k', mark', le, -⟩ := h.fits.right n v w entry
    cases mark.symm.trans mark'
    rw [other (by omega)]
    exact h.memo n k ⟨v, w, entry, mark⟩ b
  case way =>
    intro i le b
    rw [other]
    · exact h.way i le b
    · rintro ⟨e, e'⟩
      obtain rfl : i = 0 := by omega
      cases b with
      | none => cases e'
      | some path =>
        cases e'
        exact first rfl
  case elsewhere =>
    intro q' first' w hw
    rw [Memory.find?_remember] at hw
    split at hw
    · cases hw
      obtain ⟨p, eq⟩ := t.step 0 (Nat.succ_pos _)
      exact ⟨t.way 1, by rw [eq]; rfl⟩
    · exact h.elsewhere q' first' w hw

/-- Along a path that leads elsewhere the root has only the key that it has anyway. -/
theorem exists_resolve_elsewhere (inStep : InStep t W m m') (object : t.own.fields?.isSome = true)
    {q : Path} (first : q.first ≠ t.place.first) :
    ∃ w m₁ x, (resolve t.there c (t.way 0) (some q)).run.run m' = (.ok (some w), m₁)
      ∧ InStep t W m m₁ ∧ w.fields? = some [(t.place.first, x)] := by
  have object' : t.moved.fields?.isSome = true := inStep.document.isSome_fields?_eq ▸ object
  have waits : t.moved.isResolved = false := inStep.document.isResolved_eq ▸ t.waits
  cases known : m'.recall? (t.way 0) (some q) with
  | some w =>
    obtain ⟨x, fields⟩ : ∃ x, w.fields? = some [(t.place.first, x)] := by
      unfold Memory.recall? at known
      rw [t.way_mark 0 (Nat.zero_le _)] at known
      have whole := inStep.way 0 (Nat.zero_le _) none
      simp only [onto_none] at whole known
      cases hw : m'.find? (t.base + 0) none with
      | some w' =>
        rw [hw] at whole known
        cases known
        generalize m.find? _ _ = b at whole
        cases whole with
        | some around =>
          obtain ⟨-, u, -, below⟩ := around
          cases below with
          | inside => exact ⟨_, rfl⟩
      | none =>
        rw [hw] at known
        exact inStep.elsewhere q first w known
    exact ⟨w, m', x, resolve_run_of_known known, inStep, fields⟩
  | none =>
    have lt : 0 < t.place.length := Nat.succ_pos _
    obtain ⟨p, eq⟩ := t.step 0 lt
    have other : alongField (some q) t.place.keys[0] = none := if_neg (Ne.symm first)
    have root := t.isResolved_way waits (Nat.zero_le _)
    have node : (resolveNode t.there c (t.way 0) (some q)).run.run m' = (.ok (some (t.way 0)), m') := by
      have pending : fieldsResolved [(t.place.keys[0], t.way 1)] ≠ true := by
        rw [eq, isResolved] at root
        rw [root]
        exact Bool.false_ne_true
      rw [eq, resolveNode, if_neg pending, resolveFields, other, resolveFields]
      simp only [pure_bind, rebuildObject, List.map_cons, List.map_nil, Option.bind_some,
        beq_self_eq_true, if_true]
      rfl
    refine ⟨t.way 0, _, t.way 1, resolve_run_of_ok known (t.object object' (Nat.zero_le _)) node
      (.inr rfl), ?_, by rw [eq]; rfl⟩
    rw [show partFor (t.way 0) (some q) = some q from if_neg (by rw [root]; exact Bool.false_ne_true)]
    exact inStep.remember_root first

/-- A path that leads elsewhere finds nothing. -/
theorem exists_findIn_elsewhere (inStep : InStep t W m m') (object : t.own.fields?.isSome = true)
    {q : Path} (first : q.first ≠ t.place.first) :
    ∃ m₁, (findIn (resolve t.there c) (t.way 0) q).run.run m' = (.ok none, m₁) ∧ InStep t W m m₁ := by
  obtain ⟨w, m₁, x, run, inStep', fields⟩ := exists_resolve_elsewhere (c := c) inStep object first
  refine ⟨m₁, ?_, inStep'⟩
  unfold findIn
  rw [run_bind_of_ok run]
  cases w with
  | object p closed fs =>
    cases fields
    have nothing : ∀ rest, (Value.object p closed [(t.place.first, x)]).peekThrough q.first rest
        = .ok none := by
      intro rest
      cases rest <;> simp [peekThrough, peekFirst, Entries.get?, bind, Except.bind, pure,
        Except.pure, Ne.symm first]
    simp only [isObjectValued, if_true, nothing]
    rfl
  | _ => cases fields

end Resolution

end Hocon
