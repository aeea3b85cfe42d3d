import Mathlib.Tactic.Ring
import Hocon.Proofs.RoundTrip

/-!
# Doubles that are whole numbers

A finite double is its significand doubled some times, and there is one way only to write a
magnitude like that (`Double.code_eq_of_magnitude_eq`).  The double nearest to a whole number of 64
bits is a whole number again and no further from zero than `2 ^ 63`
(`Double.exists_magnitude_ofInt`): rounding drops digits in front of the point only.

So two numbers that are equal have the same digest, but for the one double `2 ^ 63` that is equal to
whole numbers of 64 bits and is none itself (`Number.equals_iff`).
-/

namespace Hocon

namespace Double

/-! ### Rounding quotients -/

/-- A quotient is rounded down or up. -/
theorem roundDiv_cases (num den : Nat) :
    roundDiv num den = num / den ∧ 2 * (num % den) ≤ den
      ∨ roundDiv num den = num / den + 1 ∧ den ≤ 2 * (num % den) := by
  unfold roundDiv
  simp only []
  split
  · exact .inl ⟨rfl, by omega⟩
  split
  · exact .inr ⟨rfl, by omega⟩
  split
  · exact .inl ⟨rfl, by omega⟩
  · exact .inr ⟨rfl, by omega⟩

/-- What is divided without rest is not rounded. -/
theorem roundDiv_mul (k : Nat) {den : Nat} (pos : 0 < den) : roundDiv (k * den) den = k := by
  have rest : k * den % den = 0 := Nat.mul_mod_left k den
  rcases roundDiv_cases (k * den) den with ⟨eq, -⟩ | ⟨-, le⟩
  · rw [eq, Nat.mul_div_cancel k pos]
  · omega

theorem le_roundDiv {num den k : Nat} (pos : 0 < den) (h : k * den ≤ num) :
    k ≤ roundDiv num den := by
  have le := (Nat.le_div_iff_mul_le pos).2 h
  rcases roundDiv_cases num den with ⟨eq, -⟩ | ⟨eq, -⟩ <;> omega

theorem roundDiv_le {num den k : Nat} (pos : 0 < den) (h : num ≤ k * den) :
    roundDiv num den ≤ k := by
  rcases Nat.lt_or_eq_of_le h with lt | rfl
  · have := (Nat.div_lt_iff_lt_mul pos).2 lt
    rcases roundDiv_cases num den with ⟨eq, -⟩ | ⟨eq, -⟩ <;> omega
  · exact Nat.le_of_eq (roundDiv_mul k pos)

/-! ### Codes and magnitudes -/

/-- A significand of 53 digits, or of fewer if it is not doubled. -/
structure Normal (significand doublings : Nat) : Prop where
  lt : significand < 2 ^ 53
  full : 2 ^ 52 ≤ significand ∨ doublings = 0

theorem normal_significand (d : Double) : Normal d.significand d.doublings := by
  have lt : d.fraction.val < 2 ^ 52 := d.fraction.isLt
  unfold significand doublings
  split
  · next zero => exact ⟨by omega, .inr (by omega)⟩
  · exact ⟨by simp only [Nat.pow_eq]; omega, .inl (by simp only [Nat.pow_eq]; omega)⟩

/-- **A magnitude is written in one way only.** -/
theorem Normal.unique {m n p q : Nat} (hm : Normal m p) (hn : Normal n q)
    (h : m * 2 ^ p = n * 2 ^ q) : m = n ∧ p = q := by
  -- with fewer doublings one significand had a digit more
  have least {m n p q : Nat} (hm : Normal m p) (hn : Normal n q) (h : m * 2 ^ p = n * 2 ^ q)
      (lt : p < q) : False := by
    obtain ⟨k, rfl⟩ := Nat.exists_eq_add_of_lt lt
    have full := hn.full.resolve_right (by omega)
    have cancelled : m = n * 2 ^ (k + 1) := by
      refine Nat.eq_of_mul_eq_mul_right (Nat.two_pow_pos p) ?_
      rw [h]
      ring
    have more : n * 2 ≤ m := by
      rw [cancelled]
      exact Nat.mul_le_mul_left n (Nat.le_self_pow (Nat.succ_ne_zero k) 2)
    have := hm.lt
    omega
  rcases Nat.lt_trichotomy p q with lt | rfl | lt
  · exact (least hm hn h lt).elim
  · exact ⟨Nat.eq_of_mul_eq_mul_right (Nat.two_pow_pos p) h, rfl⟩
  · exact (least hn hm h.symm lt).elim

theorem code_eq_of_magnitude_eq {a b : Double} (h : a.magnitude = b.magnitude) :
    a.code = b.code := by
  obtain ⟨significand, doublings⟩ :=
    (normal_significand a).unique (normal_significand b) h
  have ha : a.fraction.val < 2 ^ 52 := a.fraction.isLt
  have hb : b.fraction.val < 2 ^ 52 := b.fraction.isLt
  unfold Double.significand Double.doublings at *
  unfold code
  simp only [Nat.pow_eq] at *
  split at significand <;> split at significand <;> omega

theorem ext_code {a b : Double} (sign : a.negative = b.negative) (h : a.code = b.code) : a = b := by
  obtain ⟨s, ⟨e, he⟩, ⟨f, hf⟩⟩ := a
  obtain ⟨s', ⟨e', he'⟩, ⟨f', hf'⟩⟩ := b
  simp only [code, Nat.pow_eq] at sign h hf hf'
  have exponent : e = e' := by omega
  have fraction : f = f' := by omega
  subst sign exponent fraction
  rfl

/-- A significand that is rounded up to 54 digits carries into the exponent. -/
theorem magnitude_ofCode (negative : Bool) {m p : Nat} (le : m ≤ 2 ^ 53)
    (full : 2 ^ 52 ≤ m ∨ p = 0) (small : p ≤ 2000) :
    (ofCode negative (p * 2 ^ 52 + m)).isFinite = true
      ∧ (ofCode negative (p * 2 ^ 52 + m)).magnitude = m * 2 ^ p := by
  have uncut : min (p * 2 ^ 52 + m) infiniteCode = p * 2 ^ 52 + m := by
    refine Nat.min_eq_left ?_
    unfold infiniteCode
    simp only [Nat.pow_eq]
    omega
  unfold isFinite magnitude significand doublings ofCode
  simp only [uncut, Nat.pow_eq]
  -- how the code is cut into its fields
  rcases Nat.lt_or_ge m (2 ^ 52) with lt | ge
  · obtain rfl : p = 0 := full.resolve_left (by omega)
    have exponent : (0 * 2 ^ 52 + m) / 2 ^ 52 % 2048 = 0 := by omega
    have fraction : (0 * 2 ^ 52 + m) % 2 ^ 52 = m := by omega
    simp only [exponent, fraction, if_true]
    exact ⟨rfl, trivial⟩
  rcases Nat.lt_or_eq_of_le le with lt | rfl
  · have exponent : (p * 2 ^ 52 + m) / 2 ^ 52 % 2048 = p + 1 := by omega
    have fraction : (p * 2 ^ 52 + m) % 2 ^ 52 = m - 2 ^ 52 := by omega
    simp only [exponent, fraction, Nat.succ_ne_zero, if_false, Nat.add_sub_cancel,
      Nat.add_sub_cancel' ge]
    exact ⟨by simp; omega, trivial⟩
  · have exponent : (p * 2 ^ 52 + 2 ^ 53) / 2 ^ 52 % 2048 = p + 2 := by omega
    have fraction : (p * 2 ^ 52 + 2 ^ 53) % 2 ^ 52 = 0 := by omega
    simp only [exponent, fraction, Nat.succ_ne_zero, if_false]
    refine ⟨by simp; omega, ?_⟩
    rw [show p + 2 - 1 = p + 1 from rfl]
    ring

/-- Rounding a magnitude to 53 digits. -/
theorem exists_roundCode {num : Nat} (full : 2 ^ 52 ≤ num) :
    ∃ s, roundCode num 1 = s * 2 ^ 52 + roundDiv num (2 ^ s) ∧ 2 ^ 52 * 2 ^ s ≤ num
      ∧ num < 2 ^ 53 * 2 ^ s := by
  have ne : num ≠ 0 := Nat.ne_of_gt (Nat.lt_of_lt_of_le (Nat.two_pow_pos 52) full)
  have digits : 52 ≤ num.log2 := (Nat.le_log2 ne).2 full
  have low := Nat.log2_self_le ne
  have high : num < 2 ^ (num.log2 + 1) := Nat.lt_log2_self
  refine ⟨num.log2 - 52, ?_, ?_, ?_⟩
  · unfold roundCode
    simp only [Nat.div_one, Nat.one_mul, Nat.pow_eq]
  · rwa [← Nat.pow_add, Nat.add_sub_cancel' digits]
  · rwa [← Nat.pow_add, show 53 + (num.log2 - 52) = num.log2 + 1 by omega]

/-- Rounding a whole number drops no digit behind the point: what `u` digits are behind. -/
theorem exists_rounded {k u : Nat} (pos : 0 < k) (small : k ≤ 2 ^ 63) (places : 52 ≤ u) :
    ∃ m s, roundCode (k * 2 ^ u) 1 = s * 2 ^ 52 + m ∧ m ≤ 2 ^ 53 ∧ 2 ^ 52 ≤ m ∧ s ≤ u + 11
      ∧ ∃ j ≤ 2 ^ 63, m * 2 ^ s = j * 2 ^ u := by
  have one : 2 ^ u ≤ k * 2 ^ u := Nat.le_mul_of_pos_left _ pos
  have bound : k * 2 ^ u ≤ 2 ^ (63 + u) := by
    rw [Nat.pow_add]
    exact Nat.mul_le_mul_right _ small
  obtain ⟨s, code, low, high⟩ :=
    exists_roundCode (Nat.le_trans (Nat.pow_le_pow_right Nat.two_pos places) one)
  have doubled : s ≤ u + 11 := by
    have le : 2 ^ (52 + s) ≤ 2 ^ (63 + u) := by
      rw [Nat.pow_add]
      exact Nat.le_trans low bound
    have := (Nat.pow_le_pow_iff_right (Nat.lt_succ_self 1)).1 le
    omega
  have pos' : 0 < 2 ^ s := Nat.two_pow_pos s
  refine ⟨roundDiv (k * 2 ^ u) (2 ^ s), s, code, roundDiv_le pos' (Nat.le_of_lt high),
    le_roundDiv pos' low, doubled, ?_⟩
  rcases Nat.le_total s u with le | ge
  · -- no digit is dropped
    have split : k * 2 ^ u = k * 2 ^ (u - s) * 2 ^ s := by
      rw [Nat.mul_assoc, ← Nat.pow_add, Nat.sub_add_cancel le]
    rw [split, roundDiv_mul _ pos']
    exact ⟨k, small, split.symm⟩
  · -- only digits in front of the point are dropped
    have most : roundDiv (k * 2 ^ u) (2 ^ s) ≤ 2 ^ (63 - (s - u)) := by
      refine roundDiv_le pos' ?_
      rwa [← Nat.pow_add, show 63 - (s - u) + s = 63 + u by omega]
    refine ⟨roundDiv (k * 2 ^ u) (2 ^ s) * 2 ^ (s - u), ?_, ?_⟩
    · refine Nat.le_trans (Nat.mul_le_mul_right _ most) (Nat.le_of_eq ?_)
      rw [← Nat.pow_add, Nat.sub_add_cancel (by omega)]
    · rw [Nat.mul_assoc, ← Nat.pow_add, Nat.sub_add_cancel ge]

theorem magnitude_rounded (negative : Bool) {k u unit : Nat} (hunit : unit = 2 ^ u)
    (small : k ≤ 2 ^ 63) (low : 52 ≤ u) (high : u ≤ 1900) :
    (ofCode negative (roundCode (k * unit) 1)).isFinite = true
      ∧ ∃ j ≤ 2 ^ 63, (ofCode negative (roundCode (k * unit) 1)).magnitude = j * unit := by
  subst hunit
  rcases Nat.eq_zero_or_pos k with rfl | pos
  · rw [Nat.zero_mul]
    exact ⟨rfl, 0, Nat.zero_le _, (Nat.zero_mul _).symm⟩
  obtain ⟨m, s, code, le, full, doubled, j, hj, eq⟩ := exists_rounded pos small low
  obtain ⟨finite, magnitude⟩ := magnitude_ofCode negative le (.inl full) (p := s) (by omega)
  rw [code]
  exact ⟨finite, j, hj, magnitude.trans eq⟩

theorem exists_unitsPerOne_eq : ∃ u, unitsPerOne = 2 ^ u ∧ 52 ≤ u ∧ u ≤ 1900 := by
  obtain ⟨u, hu⟩ : ∃ u, u = 1074 := ⟨_, rfl⟩
  refine ⟨u, ?_, by omega, by omega⟩
  unfold unitsPerOne
  rw [← hu]
  rfl

/-- **The double nearest to a whole number of 64 bits** is a whole number no further from zero than
`2 ^ 63`. -/
theorem exists_magnitude_ofInt {n : Int} (small : n.natAbs ≤ 2 ^ 63) :
    (ofInt n).isFinite = true ∧ ∃ k ≤ 2 ^ 63, (ofInt n).magnitude = k * unitsPerOne := by
  obtain ⟨u, hunit, low, high⟩ := exists_unitsPerOne_eq
  exact magnitude_rounded (n < 0) hunit small low high

/-! ### Equal doubles -/

theorem code_lt (d : Double) : d.code < 2 ^ 63 := by
  have exponent := d.exponent.isLt
  have fraction : d.fraction.val < 2 ^ 52 := d.fraction.isLt
  show d.exponent.val * 2 ^ 52 + d.fraction.val < 2 ^ 63
  omega

/-- The bits tell the sign and the code. -/
theorem bits_inj {a b : Double} (h : a.bits = b.bits) : a = b := by
  have ha := a.code_lt
  have hb := b.code_lt
  unfold bits at h
  simp only [Nat.pow_eq] at h
  by_cases sign : a.negative = b.negative
  · rw [sign] at h
    exact ext_code sign (Nat.add_left_cancel h)
  · cases sa : a.negative <;> cases sb : b.negative <;>
      simp only [sa, sb, if_true, Bool.false_eq_true, if_false, not_true_eq_false] at h sign <;>
      omega

/-- Two finite doubles are the same, or both are zero, if their values are. -/
theorem eq_of_units_eq {a b : Double} (h : a.units = b.units) : a = b ∨ a.magnitude = 0 := by
  have same : a.magnitude = b.magnitude := by
    unfold units at h
    split at h <;> split at h <;> omega
  by_cases zero : a.magnitude = 0
  · exact .inr zero
  · refine .inl (ext_code ?_ (code_eq_of_magnitude_eq same))
    unfold units at h
    cases ha : a.negative <;> cases hb : b.negative <;>
      simp only [ha, hb, if_true, Bool.false_eq_true, if_false, reduceCtorEq] at h ⊢ <;> omega

theorem equals_comm (a b : Double) : a.equals b = b.equals a := by
  unfold equals
  rw [Bool.and_comm a.isFinite, Bool.and_comm a.isInfinite, Bool.beq_comm (a := a.units),
    Bool.beq_comm (a := a.negative)]

theorem zero_lt_pow : 0 < Nat.pow 2 52 := by decide

/-- The least double that is too great for a whole number of 64 bits. -/
def edge : Double := ⟨false, ⟨1086, by decide⟩, ⟨0, zero_lt_pow⟩⟩

theorem magnitude_edge : edge.magnitude = 2 ^ 63 * unitsPerOne := by decide +kernel

/-- A double whose value is a whole number of 64 bits, or the one behind the greatest. -/
structure Whole (d : Double) : Prop where
  finite : d.isFinite = true
  magnitude : ∃ k ≤ 2 ^ 63, d.magnitude = k * unitsPerOne

theorem whole_ofInt {n : Int} (small : n.natAbs ≤ 2 ^ 63) : (ofInt n).Whole :=
  ⟨(exists_magnitude_ofInt small).1, (exists_magnitude_ofInt small).2⟩

theorem unitsPerOne_pos : 0 < unitsPerOne := by
  obtain ⟨u, hunit, -⟩ := exists_unitsPerOne_eq
  exact hunit ▸ Nat.two_pow_pos u

end Double

namespace Number

open Double

variable {a b : Number} {d e : Double}

/-- No not-a-number, nor the double at the edge of the whole numbers of 64 bits. -/
def Ordinary (n : Number) : Prop := n.isNaN = false ∧ n ≠ .double edge

instance (n : Number) : Decidable n.Ordinary := inferInstanceAs (Decidable (_ ∧ _))

theorem natAbs_toInt_le (n : Int64) : n.toInt.natAbs ≤ 2 ^ 63 := by
  have low := n.le_toInt
  have high := n.toInt_lt
  omega

/-- A double is a whole number of 64 bits if it is whole and not at the edge. -/
theorem isSome_toWhole? (whole : d.Whole) (inside : d ≠ edge) :
    (double d).toWhole?.isSome = true := by
  obtain ⟨finite, k, small, eq⟩ := whole
  have isWhole : d.isWhole = true := by
    unfold Double.isWhole
    rw [finite, eq, Nat.mul_mod_left]
    rfl
  have quotient : d.magnitude / unitsPerOne = k := by
    rw [eq, Nat.mul_div_cancel _ unitsPerOne_pos]
  have least : Int64.minValue.toInt = -2 ^ 63 := by decide
  have most : Int64.maxValue.toInt = 2 ^ 63 - 1 := by decide
  have range : -2 ^ 63 ≤ d.truncate ∧ d.truncate ≤ 2 ^ 63 - 1 := by
    unfold Double.truncate
    rw [quotient]
    split
    · omega
    · next sign =>
      -- the edge is the only one out of range
      have ne : k ≠ 2 ^ 63 := by
        rintro rfl
        refine inside (ext_code ?_ (code_eq_of_magnitude_eq (eq.trans magnitude_edge.symm)))
        exact Bool.eq_false_iff.2 sign
      omega
  unfold toWhole?
  simp only [isWhole, least, most, Bool.true_and, decide_eq_true range.1, decide_eq_true range.2,
    if_true, Option.isSome_some]

/-- The double of a whole number of 64 bits is whole. -/
theorem whole_toDouble (h : a.toWhole?.isSome = true) : a.toDouble.Whole := by
  cases a with
  | whole n => exact whole_ofInt (natAbs_toInt_le n)
  | double d =>
    unfold toWhole? at h
    simp only [] at h
    split at h
    · next inside =>
      have least : Int64.minValue.toInt = -2 ^ 63 := by decide
      have most : Int64.maxValue.toInt = 2 ^ 63 - 1 := by decide
      simp only [Bool.and_eq_true, decide_eq_true_eq, least, most] at inside
      obtain ⟨⟨isWhole, low⟩, high⟩ := inside
      simp only [Double.isWhole, Bool.and_eq_true, beq_iff_eq] at isWhole
      refine ⟨isWhole.1, d.magnitude / unitsPerOne, ?_,
        (Nat.div_mul_cancel (Nat.dvd_of_mod_eq_zero isWhole.2)).symm⟩
      unfold Double.truncate at low high
      generalize d.magnitude / unitsPerOne = k at low high ⊢
      by_cases sign : d.negative = true
      · rw [if_pos sign] at low
        omega
      · rw [if_neg sign] at high
        omega
    · cases h

/-- A whole number of 64 bits is not equal to a number that is none, unless that is at the edge. -/
theorem equals_toDouble_eq_false (ha : a.toWhole?.isSome = true) (hb : b.toWhole? = none)
    (inside : b ≠ .double edge) : a.toDouble.equals b.toDouble = false := by
  cases b with
  | whole n => cases hb
  | double d =>
    obtain ⟨finite, k, small, magnitude⟩ := whole_toDouble ha
    refine Bool.eq_false_iff.2 fun h => ?_
    show False
    unfold Double.equals at h
    split at h
    · next both =>
      have finite' : d.isFinite = true := ((Bool.and_eq_true _ _).mp both).2
      have units : a.toDouble.units = d.units := beq_iff_eq.1 h
      have same : d.magnitude = a.toDouble.magnitude := by
        unfold Double.units at units
        split at units <;> split at units <;> omega
      have whole : d.Whole := ⟨finite', k, small, same.trans magnitude⟩
      have := isSome_toWhole? whole fun e => inside (congrArg _ e)
      rw [hb] at this
      cases this
    · -- what is finite is not equal to what is not
      simp only [Bool.and_eq_true] at h
      have infinite := h.1.1
      unfold Double.isInfinite at infinite
      unfold Double.isFinite at finite
      simp only [Bool.and_eq_true, beq_iff_eq, bne_iff_ne] at infinite finite
      exact finite infinite.1

/-- Doubles that are no whole numbers of 64 bits are equal only to themselves. -/
theorem eq_of_equals (hd : (double d).toWhole? = none) (h : d.equals e = true) : d = e := by
  unfold Double.equals at h
  split at h
  · next both =>
    have finite : d.isFinite = true := ((Bool.and_eq_true _ _).mp both).1
    refine (eq_of_units_eq (beq_iff_eq.1 h)).resolve_right fun zero => ?_
    have whole : d.Whole := ⟨finite, 0, Nat.zero_le _, by rw [zero, Nat.zero_mul]⟩
    have inside : d ≠ edge := by
      rintro rfl
      rw [magnitude_edge] at zero
      have := unitsPerOne_pos
      omega
    have := isSome_toWhole? whole inside
    rw [hd] at this
    cases this
  · -- the same infinity
    simp only [Bool.and_eq_true, Double.isInfinite, beq_iff_eq] at h
    obtain ⟨⟨⟨exponent, fraction⟩, exponent', fraction'⟩, sign⟩ := h
    refine ext_code sign ?_
    unfold Double.code
    rw [exponent, fraction, exponent', fraction']

/-- **Equality of numbers**: the same whole number of 64 bits, or the same double. -/
theorem equals_iff (ha : a.Ordinary) (hb : b.Ordinary) : a.equals b = true
    ↔ a.toWhole? = b.toWhole? ∧ (a.toWhole? = none → a.toDouble = b.toDouble) := by
  unfold equals
  cases wa : a.toWhole? with
  | some m =>
    cases wb : b.toWhole? with
    | some n => simp
    | none =>
      have apart := equals_toDouble_eq_false (a := a) (by rw [wa]; rfl) wb hb.2
      simp [apart]
  | none =>
    cases wb : b.toWhole? with
    | some n =>
      have apart := equals_toDouble_eq_false (a := b) (by rw [wb]; rfl) wa ha.2
      rw [equals_comm] at apart
      simp [apart]
    | none =>
      cases a with
      | whole n => cases wa
      | double d =>
        cases b with
        | whole n => cases wb
        | double e =>
          refine ⟨fun h => ⟨rfl, fun _ => eq_of_equals wa h⟩, fun h => ?_⟩
          have same : d = e := h.2 rfl
          subst same
          exact Double.equals_self ha.1

end Number

end Hocon
