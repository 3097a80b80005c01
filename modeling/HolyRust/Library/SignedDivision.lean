import Mathlib.Data.BitVec

/-!
Signed and unsigned division of the same words.

* `sdiv_eq_udiv_iff` — exactly when the two quotients are one word.
-/

namespace HolyRust.SignedDivision

variable {w : Nat}

/-- The two quotients agree: a divisor that is 0 or 1, equal operands, or a
dividend without its top bit that is too small for the divisor's negative. -/
def QuotientsAgree (a b : BitVec w) : Prop :=
  b.toNat ≤ 1 ∨ a = b ∨ 2 * a.toNat < 2 ^ w ∧ a.toNat + b.toNat < 2 ^ w

instance (a b : BitVec w) : Decidable (QuotientsAgree a b) := by
  unfold QuotientsAgree; infer_instance

theorem msb_iff (hw : 0 < w) (a : BitVec w) : a.msb = true ↔ 2 ^ w ≤ 2 * a.toNat := by
  obtain ⟨n, rfl⟩ := Nat.exists_eq_succ_of_ne_zero hw.ne'
  rw [BitVec.msb_eq_decide, decide_eq_true_iff, Nat.succ_sub_one, Nat.pow_succ]
  omega

theorem toNat_neg_of_ne_zero {a : BitVec w} (h : a.toNat ≠ 0) : (-a).toNat = 2 ^ w - a.toNat := by
  rw [BitVec.toNat_neg, Nat.mod_eq_of_lt (by omega)]

theorem neg_eq_zero_iff {q : BitVec w} : -q = 0#w ↔ q.toNat = 0 := by
  rw [BitVec.neg_eq_zero_iff, ← BitVec.toNat_inj, BitVec.toNat_ofNat, Nat.zero_mod]

/-- A small dividend over a divisor with its top bit set. -/
theorem neg_udiv_eq_iff {a b : BitVec w} (ha : 2 * a.toNat < 2 ^ w) (hb : 2 ^ w ≤ 2 * b.toNat) :
    -(a.udiv (-b)) = a / b ↔ a.toNat + b.toNat < 2 ^ w := by
  have hb0 : b.toNat ≠ 0 := by have := Nat.two_pow_pos w; omega
  have hzero : a / b = 0#w := by
    rw [← BitVec.toNat_inj, BitVec.toNat_udiv, Nat.div_eq_of_lt (by omega)]
    simp
  have hquot : (a.udiv (-b)).toNat = a.toNat / (2 ^ w - b.toNat) := by
    rw [← toNat_neg_of_ne_zero hb0]
    rfl
  have hlt := b.isLt
  rw [hzero, neg_eq_zero_iff, hquot, Nat.div_eq_zero_iff]
  omega

/-- A dividend with its top bit set over a divisor from 2 up without. -/
theorem neg_neg_udiv_ne {a b : BitVec w} (ha : 2 ^ w ≤ 2 * a.toNat) (hb : 2 * b.toNat < 2 ^ w)
    (htwo : 2 ≤ b.toNat) : -((-a).udiv b) ≠ a / b := by
  have ha0 : a.toNat ≠ 0 := by have := Nat.two_pow_pos w; omega
  have hlt := a.isLt
  have hquot : ((-a).udiv b).toNat = (2 ^ w - a.toNat) / b.toNat := by
    rw [← toNat_neg_of_ne_zero ha0]
    rfl
  have hunsigned : 1 ≤ (a / b).toNat ∧ 2 * (a / b).toNat < 2 ^ w := by
    rw [BitVec.toNat_udiv]
    have hpos : 1 ≤ a.toNat / b.toNat := (Nat.one_le_div_iff (by omega)).mpr (by omega)
    have hmul : a.toNat / b.toNat * b.toNat ≤ a.toNat := Nat.div_mul_le_self _ _
    have htimes : a.toNat / b.toNat * 2 ≤ a.toNat / b.toNat * b.toNat :=
      Nat.mul_le_mul_left _ htwo
    omega
  have hsigned : 2 * ((-a).udiv b).toNat ≤ 2 ^ w - a.toNat := by
    rw [hquot]
    have hmul : (2 ^ w - a.toNat) / b.toNat * b.toNat ≤ 2 ^ w - a.toNat := Nat.div_mul_le_self _ _
    have htimes : (2 ^ w - a.toNat) / b.toNat * 2 ≤ (2 ^ w - a.toNat) / b.toNat * b.toNat :=
      Nat.mul_le_mul_left _ htwo
    omega
  intro heq
  by_cases hq : ((-a).udiv b).toNat = 0
  · have hzero : (a / b).toNat = 0 := by
      rw [← heq, neg_eq_zero_iff.mpr hq]
      simp
    omega
  · have hneg := toNat_neg_of_ne_zero hq
    rw [heq] at hneg
    omega

/-- Two operands with their top bits set. -/
theorem neg_udiv_neg_eq_iff {a b : BitVec w} (ha : 2 ^ w ≤ 2 * a.toNat)
    (hb : 2 ^ w ≤ 2 * b.toNat) : (-a).udiv (-b) = a / b ↔ a = b := by
  have hpos := Nat.two_pow_pos w
  have hlta := a.isLt
  have hltb := b.isLt
  have hquot : ((-a).udiv (-b)).toNat = (2 ^ w - a.toNat) / (2 ^ w - b.toNat) := by
    rw [← toNat_neg_of_ne_zero (a := a) (by omega), ← toNat_neg_of_ne_zero (a := b) (by omega)]
    rfl
  rw [← BitVec.toNat_inj, hquot, BitVec.toNat_udiv, ← BitVec.toNat_inj]
  rcases Nat.lt_trichotomy a.toNat b.toNat with h | h | h
  · have hone : 1 ≤ (2 ^ w - a.toNat) / (2 ^ w - b.toNat) :=
      (Nat.one_le_div_iff (by omega)).mpr (by omega)
    rw [Nat.div_eq_of_lt h]
    omega
  · rw [h, Nat.div_self (by omega), Nat.div_self (by omega)]
    omega
  · have hone : 1 ≤ a.toNat / b.toNat := (Nat.one_le_div_iff (by omega)).mpr (by omega)
    rw [Nat.div_eq_of_lt (a := 2 ^ w - a.toNat) (by omega)]
    omega

theorem two_mul_lt_of_msb (hw : 0 < w) {x : BitVec w} (h : x.msb = false) :
    2 * x.toNat < 2 ^ w := by
  by_contra hge
  have hmsb := (msb_iff hw x).mpr (Nat.le_of_not_lt hge)
  exact Bool.false_ne_true (h.symm.trans hmsb)

/-- A divisor of 0 or 1 negates twice. -/
theorem neg_neg_udiv_eq (hw : 0 < w) (a : BitVec w) {b : BitVec w} (hb : b.toNat ≤ 1) :
    -((-a).udiv b) = a / b := by
  obtain h | h : b.toNat = 0 ∨ b.toNat = 1 := by omega
  · obtain rfl : b = 0#w := BitVec.eq_of_toNat_eq (by simpa using h)
    simp [BitVec.udiv_def]
  · obtain rfl : b = 1#w := BitVec.eq_of_toNat_eq (by
      rw [h, BitVec.toNat_ofNat, Nat.mod_eq_of_lt (Nat.one_lt_two_pow hw.ne')])
    simp [BitVec.udiv_one]

/-- The signed quotient, truncated toward zero, is the unsigned one exactly for
operands that agree. -/
theorem sdiv_eq_udiv_iff (hw : 0 < w) (a b : BitVec w) :
    a.sdiv b = a / b ↔ QuotientsAgree a b := by
  have hpos := Nat.two_pow_pos w
  unfold QuotientsAgree
  rw [BitVec.sdiv_eq]
  cases hma : a.msb with
  | false =>
      have ha := two_mul_lt_of_msb hw hma
      cases hmb : b.msb with
      | false =>
          have hb := two_mul_lt_of_msb hw hmb
          exact iff_of_true rfl (.inr (.inr ⟨ha, by omega⟩))
      | true =>
          have hb := (msb_iff hw b).mp hmb
          refine (neg_udiv_eq_iff ha hb).trans ⟨fun h => .inr (.inr ⟨ha, h⟩), ?_⟩
          rintro (h | rfl | ⟨_, h⟩)
          · omega
          · omega
          · exact h
  | true =>
      have ha := (msb_iff hw a).mp hma
      cases hmb : b.msb with
      | false =>
          have hb := two_mul_lt_of_msb hw hmb
          by_cases htwo : 2 ≤ b.toNat
          · refine iff_of_false (neg_neg_udiv_ne ha hb htwo) ?_
            rintro (h | rfl | ⟨h, _⟩) <;> omega
          · have hone : b.toNat ≤ 1 := by omega
            exact iff_of_true (neg_neg_udiv_eq hw a hone) (.inl hone)
      | true =>
          have hb := (msb_iff hw b).mp hmb
          refine (neg_udiv_neg_eq_iff ha hb).trans ⟨fun h => .inr (.inl h), ?_⟩
          rintro (h | h | ⟨h, _⟩)
          · -- a one-bit space: the divisor with its top bit set is 1
            exact BitVec.eq_of_toNat_eq (by have := a.isLt; omega)
          · exact h
          · omega

end HolyRust.SignedDivision
