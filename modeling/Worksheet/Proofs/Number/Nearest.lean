import Worksheet.Number.Decimal
import Worksheet.Proofs.Number.Rounding

/-!
# The double nearest to a decimal

* `Binary.rounds_bounds`
                       what is rounded to a double is neither too great nor too small;
* `Binary.ofScientific_eq`
                       a decimal is rounded as a real is, also where it is worked out with doubles;
* `Decimal.length_toDigits`
                       where the leading digit of a number is;
* `Decimal.magnitude_eq`
                       a decimal in the interval of a double is read as that double.
-/

namespace Worksheet

namespace Binary

open Float.Model Float.Model.UnpackedFloat

theorem two_zpow_le_ten : (2 : ℚ) ^ (1200 : Int) ≤ 10 ^ (400 : Int) := by
  have h : (2 : ℚ) ^ 1200 ≤ 10 ^ 400 := by
    rw [pow_mul (2 : ℚ) 3 400]
    exact pow_le_pow_left₀ (by norm_num) (by norm_num) 400
  exact_mod_cast h

/-- no double is out of these bounds -/
theorem rounds_bounds {mant : Nat} {exp : Int} (hc : Canonical mant exp) {q : ℚ}
    (h : Rounds mant exp q) : (10 : ℚ) ^ (-400 : Int) ≤ q ∧ q < 10 ^ (400 : Int) := by
  have hpos : (1 : ℚ) ≤ mant := by exact_mod_cast hc.pos
  have hlt : (mant + 1 : ℚ) ≤ 2 ^ 53 := by exact_mod_cast hc.lt
  have hbelow := below_le mant exp
  obtain ⟨hlow, hhigh⟩ := h.le
  have hexp := two_zpow_pos exp
  constructor
  · calc (10 : ℚ) ^ (-400 : Int) = (10 ^ (400 : Int))⁻¹ := zpow_neg 10 400
      _ ≤ (2 ^ (1200 : Int))⁻¹ := inv_anti₀ (two_zpow_pos 1200) two_zpow_le_ten
      _ = 2 ^ (-1200 : Int) := (zpow_neg 2 1200).symm
      _ ≤ 2 ^ (-1 + -1074 : Int) := two_zpow_le (by decide)
      _ = 1 / 2 * 2 ^ (-1074 : Int) := by rw [zpow_add₀ (by norm_num), zpow_neg_one, one_div]
      _ ≤ 1 / 2 * 2 ^ exp := mul_le_mul_of_nonneg_left (two_zpow_le hc.le_exp) (by norm_num)
      _ ≤ (mant - below mant exp) * 2 ^ exp :=
          mul_le_mul_of_nonneg_right (by linarith) hexp.le
      _ ≤ q := hlow
  · calc q ≤ (mant + 1 / 2) * 2 ^ exp := hhigh
      _ ≤ 2 ^ 53 * 2 ^ exp := mul_le_mul_of_nonneg_right (by linarith) hexp.le
      _ ≤ 2 ^ 53 * 2 ^ (971 : Int) :=
          mul_le_mul_of_nonneg_left (two_zpow_le hc.exp_le) (by norm_num)
      _ = 2 ^ (971 + (53 : Nat) : Int) := (two_zpow_add 971 53).symm
      _ < 2 ^ (1200 : Int) := zpow_lt_zpow_right₀ (by norm_num) (by decide)
      _ ≤ 10 ^ (400 : Int) := two_zpow_le_ten

section
variable {n : Nat} {e : Int} {mant : Nat} {exp : Int} (hc : Canonical mant exp)
  (h : Rounds mant exp (n * 10 ^ e))
include h

theorem div_of_exact {x y : Float} {k : Nat} (hx : Exact x n) (hy : Exact y (10 ^ k))
    (he : e = -k) : x / y = double false mant exp hc.pos := by
  obtain ⟨m₁, e₁, h₁, hx, _, hxval⟩ := hx
  obtain ⟨m₂, e₂, h₂, hy, _, hyval⟩ := hy
  have hdiv := div_eq h₁ h₂ e₁ e₂ hc (by
    rw [hxval, hyval]
    rw [he, zpow_neg, zpow_natCast] at h
    push_cast
    rwa [div_eq_mul_inv])
  show Float.ofModel (.pack (.div .binary64 x.toModel.unpack y.toModel.unpack)) = _
  rw [hx, hy, hdiv]
  rfl

theorem mul_of_exact {x y : Float} {k : Nat} (hx : Exact x n) (hy : Exact y (10 ^ k))
    (he : e = k) : x * y = double false mant exp hc.pos := by
  obtain ⟨m₁, e₁, h₁, hx, hlead₁, hxval⟩ := hx
  obtain ⟨m₂, e₂, h₂, hy, hlead₂, hyval⟩ := hy
  have hlead : 2 ^ 52 ≤ m₁ * m₂ := hlead₁.trans (Nat.le_mul_of_pos_right m₁ h₂)
  have hmul := mul_eq h₁ h₂ e₁ e₂ hc hlead (by
      rw [zpow_add₀ (by norm_num), mul_mul_mul_comm, hxval, hyval]
      rw [he, zpow_natCast] at h
      push_cast
      exact h)
  show Float.ofModel (.pack (.mul .binary64 x.toModel.unpack y.toModel.unpack)) = _
  rw [hx, hy, hmul]
  rfl

/-- a power of ten is multiplied, or divided by, and the result is rounded -/
theorem unpacked_ofScientific_eq (hn : 0 < n) (hle : e ≤ 2048) (hge : -2048 ≤ e + n.log2) :
    UnpackedFloat.ofScientific .binary64 n e = .finite .positive mant exp hc.pos := by
  rw [UnpackedFloat.ofScientific, dif_neg hn.ne', if_neg (by show ¬e > 2048; omega),
    if_neg (by show ¬e < -(2048 + (n.log2 : Int)); omega)]
  by_cases hpos : 0 ≤ e
  · have hlead : 2 ^ 52 ≤ n <<< 53 * 10 ^ e.toNat := by
      rw [Nat.shiftLeft_eq]
      calc 2 ^ 52 ≤ 1 * 2 ^ 53 * 1 := by decide
        _ ≤ n * 2 ^ 53 * 10 ^ e.toNat :=
          Nat.mul_le_mul (Nat.mul_le_mul_right _ hn) (Nat.pow_pos (by decide))
    have hval : ((n <<< 53 : Nat) * (10 ^ e.toNat : Nat) * 2 ^ (-53 + 0 : Int) : ℚ) = n * 10 ^ e := by
      have hten : (10 : ℚ) ^ e = 10 ^ e.toNat := by
        rw [← zpow_natCast, Int.toNat_of_nonneg hpos]
      rw [hten, Nat.shiftLeft_eq, add_zero, zpow_neg]
      push_cast
      field_simp
    have hshift : 0 < n <<< 53 := by simpa [Nat.pos_iff_ne_zero] using hn.ne'
    rw [if_pos hpos]
    exact mul_eq hshift (Nat.pow_pos (by decide)) (-53) 0 hc hlead (by rwa [hval])
  · have hval : (n * 2 ^ (0 : Int) / ((10 ^ (-e).toNat : Nat) * 2 ^ (0 : Int)) : ℚ) = n * 10 ^ e := by
      have hten : (10 : ℚ) ^ e = ((10 : ℚ) ^ (-e).toNat)⁻¹ := by
        rw [← zpow_natCast, Int.toNat_of_nonneg (by omega), zpow_neg, inv_inv]
      rw [hten]
      push_cast
      rw [mul_one, mul_one, div_eq_mul_inv]
    have hten : 0 < 10 ^ (-e).toNat := Nat.pow_pos (by decide)
    rw [if_neg hpos]
    exact div_eq hn hten 0 0 hc (by rwa [hval])

/-- A decimal that is not out of all bounds is rounded as a real is. -/
theorem ofScientific_eq (hn : 0 < n) (hle : e ≤ 2048) (hge : -2048 ≤ e + n.log2) :
    Float.ofScientific n (e < 0) e.natAbs = double false mant exp hc.pos := by
  rw [Float.ofScientific]
  by_cases hfast : n < 2 ^ 53 ∧ e.natAbs ≤ 22
  · have hsize : e.natAbs < Float.exactlyRepresentablePowersOfTen.size :=
      Nat.lt_succ_of_le hfast.2
    have hx := exact_toFloat hn hfast.1
    have hy := exact_powerOfTen hsize
    rw [dif_pos hfast]
    by_cases hneg : e < 0
    · rw [decide_eq_true hneg]
      exact div_of_exact hc h hx hy (by omega)
    · rw [decide_eq_false hneg]
      exact mul_of_exact hc h hx hy (by omega)
  · have he : (if (decide (e < 0)) = true then Int.negOfNat e.natAbs else Int.ofNat e.natAbs) = e := by
      by_cases hneg : e < 0
      · rw [if_pos (decide_eq_true hneg), Int.negOfNat_eq, Int.ofNat_eq_natCast]
        omega
      · rw [if_neg (by simpa using hneg), Int.ofNat_eq_natCast]
        omega
    rw [dif_neg hfast, he]
    show Float.ofModel (.pack (UnpackedFloat.ofScientific .binary64 n e)) = _
    rw [unpacked_ofScientific_eq hc h hn hle hge]
    rfl

end

end Binary

/-! ## decimals -/

namespace Decimal

/-- a number has its leading digit at the power of ten below it -/
theorem length_toDigits {n : Nat} (hn : 0 < n) : ∃ k, (Nat.toDigits 10 n).length = k + 1 ∧
    10 ^ k ≤ n ∧ n < 10 ^ (k + 1) := by
  obtain ⟨k, hk⟩ : ∃ k, (Nat.toDigits 10 n).length = k + 1 :=
    Nat.exists_eq_succ_of_ne_zero Nat.length_toDigits_pos.ne'
  refine ⟨k, hk, ?_, (Nat.length_toDigits_le_iff (by decide) (Nat.succ_pos k)).mp hk.le⟩
  cases k with
  | zero => exact hn
  | succ k =>
    by_contra hlt
    have := (Nat.length_toDigits_le_iff (by decide) (Nat.succ_pos k)).mpr (Nat.lt_of_not_le hlt)
    omega

theorem ten_zpow_le {a b : Int} (h : a ≤ b) : (10 : ℚ) ^ a ≤ 10 ^ b :=
  zpow_le_zpow_right₀ (by norm_num) h

theorem ten_zpow_add (a : Int) (n : Nat) : (10 : ℚ) ^ (a + n) = 10 ^ n * 10 ^ a := by
  rw [zpow_add₀ (by norm_num), zpow_natCast, mul_comm]

theorem order_bounds {n : Nat} (hn : 0 < n) (e : Int) :
    (10 : ℚ) ^ ((Nat.toDigits 10 n).length + e - 1) ≤ n * 10 ^ e ∧
      (n * 10 ^ e : ℚ) < 10 ^ ((Nat.toDigits 10 n).length + e) := by
  obtain ⟨k, hk, hle, hlt⟩ := length_toDigits hn
  have hpos : (0 : ℚ) < 10 ^ e := zpow_pos (by norm_num) e
  have e1 : ((Nat.toDigits 10 n).length + e - 1 : Int) = e + k := by omega
  have e2 : ((Nat.toDigits 10 n).length + e : Int) = e + (k + 1 : Nat) := by omega
  rw [e1, e2, ten_zpow_add, ten_zpow_add]
  exact ⟨mul_le_mul_of_nonneg_right (mod_cast hle) hpos.le,
    mul_lt_mul_of_pos_right (mod_cast hlt) hpos⟩

theorem magnitude_eq {d : Decimal} {mant : Nat} {exp : Int} (hc : Binary.Canonical mant exp)
    (h : Binary.Rounds mant exp (d.digits * 10 ^ d.exp)) :
    d.magnitude = Binary.double false mant exp hc.pos := by
  obtain ⟨hlow, hhigh⟩ := Binary.rounds_bounds hc h
  have hn : 0 < d.digits := by
    refine Nat.pos_of_ne_zero fun e => ?_
    rw [e, Nat.cast_zero, zero_mul] at hlow
    exact absurd hlow (not_le.mpr (zpow_pos (by norm_num) _))
  obtain ⟨hge, hlt⟩ := order_bounds hn d.exp
  have horder : -400 ≤ (Nat.toDigits 10 d.digits).length + d.exp := by
    by_contra hno
    exact absurd ((hlow.trans_lt hlt).trans_le (ten_zpow_le (by omega))) (lt_irrefl _)
  have horder' : (Nat.toDigits 10 d.digits).length + d.exp ≤ 400 := by
    by_contra hno
    exact absurd ((hge.trans_lt hhigh).trans_le (ten_zpow_le (by omega))) (lt_irrefl _)
  have hlog : (Nat.toDigits 10 d.digits).length ≤ d.digits.log2 + 1 :=
    (Nat.length_toDigits_le_iff (by decide) (Nat.succ_pos _)).mpr
      (Nat.lt_log2_self.trans_le (Nat.pow_le_pow_left (by decide) _))
  rw [magnitude, if_neg (by omega), if_neg (by omega)]
  exact Binary.ofScientific_eq hc h hn (by omega) (by omega)

end Decimal

end Worksheet
