import Worksheet.Number.Shortest
import Worksheet.Proofs.Number.Nearest

/-!
# The shortest decimal is rounded to the double

* `RoundingInterval.contains_iff`
                       the interval of a double has the decimals that are rounded to it;
* `RoundingInterval.candidate?_seventeen`
                       one of seventeen digits is among them;
* `shortest_rounds`    so the shortest decimal is.
-/

namespace Worksheet

/-- a power with an integral exponent is a quotient of two without -/
theorem pow_toNat_div (b : ℚ) (k : Int) : b ^ k.toNat / b ^ (-k).toNat = b ^ k := by
  rcases Int.le_total 0 k with hk | hk
  · rw [Int.toNat_of_nonpos (Int.neg_nonpos_of_nonneg hk), pow_zero, div_one, ← zpow_natCast,
      Int.toNat_of_nonneg hk]
  · rw [Int.toNat_of_nonpos hk, pow_zero, one_div, ← zpow_natCast,
      Int.toNat_of_nonneg (Int.neg_nonneg_of_nonpos hk), zpow_neg, inv_inv]

namespace RoundingInterval

open Binary

section
variable {mant : Nat} {exp : Int}

theorem den_pos (mant : Nat) (exp : Int) : (0 : ℚ) < (ofParts mant exp).den := by
  show (0 : ℚ) < (2 ^ (2 - exp).toNat : Nat)
  positivity

theorem scale_div (exp : Int) :
    (2 ^ (exp - 2).toNat / 2 ^ (2 - exp).toNat : ℚ) = 2 ^ exp / 4 := by
  have h := pow_toNat_div 2 (exp - 2)
  rw [Int.neg_sub] at h
  rw [h, zpow_sub₀ (by norm_num)]
  norm_num

theorem mid_div (mant : Nat) (exp : Int) :
    ((ofParts mant exp).mid / (ofParts mant exp).den : ℚ) = mant * 2 ^ exp := by
  show ((4 * mant * 2 ^ (exp - 2).toNat : Nat) / (2 ^ (2 - exp).toNat : Nat) : ℚ) = _
  push_cast
  rw [mul_div_assoc, scale_div]
  ring

theorem low_div (hmant : 0 < mant) :
    ((ofParts mant exp).low / (ofParts mant exp).den : ℚ) = (mant - below mant exp) * 2 ^ exp := by
  show (((4 * mant - if mant = Nat.pow 2 52 ∧ exp ≠ -1074 then 1 else 2) * 2 ^ (exp - 2).toNat : Nat)
    / (2 ^ (2 - exp).toNat : Nat) : ℚ) = _
  have hle : (if mant = Nat.pow 2 52 ∧ exp ≠ -1074 then 1 else 2) ≤ 4 * mant := by
    split_ifs <;> omega
  push_cast [hle]
  rw [mul_div_assoc, scale_div, below]
  split_ifs with h1 h2 h2
  · ring
  · exact absurd h1 h2
  · exact absurd h2 h1
  · ring

theorem high_div (mant : Nat) (exp : Int) :
    ((ofParts mant exp).high / (ofParts mant exp).den : ℚ) = (mant + 1 / 2) * 2 ^ exp := by
  show (((4 * mant + 2) * 2 ^ (exp - 2).toNat : Nat) / (2 ^ (2 - exp).toNat : Nat) : ℚ) = _
  push_cast
  rw [mul_div_assoc, scale_div]
  ring

/-- the interval has the decimals that are rounded to the double -/
theorem contains_iff (hmant : 0 < mant) {n : Nat} {e : Int} :
    (ofParts mant exp).contains n e = true ↔ Rounds mant exp (n * 10 ^ e) := by
  have hden := den_pos mant exp
  have hten : (0 : ℚ) < 10 ^ (-e).toNat := by positivity
  have hval : (n * 10 ^ e : ℚ) = (n * 10 ^ e.toNat * (ofParts mant exp).den : Nat)
      / (10 ^ (-e).toNat * (ofParts mant exp).den) := by
    rw [← pow_toNat_div 10 e]
    push_cast
    field_simp
  have hend : ∀ a : Nat, (a / (ofParts mant exp).den : ℚ)
      = (a * 10 ^ (-e).toNat : Nat) / (10 ^ (-e).toNat * (ofParts mant exp).den) := fun a => by
    push_cast
    field_simp
  have hpos : (0 : ℚ) < 10 ^ (-e).toNat * (ofParts mant exp).den := mul_pos hten hden
  have hclosed : (ofParts mant exp).closed = (mant % 2 == 0) := rfl
  rw [contains, Rounds, ← low_div hmant, ← high_div, hval, hend, hend, hclosed]
  simp only [div_le_div_iff_of_pos_right hpos, div_lt_div_iff_of_pos_right hpos, Nat.cast_le,
    Nat.cast_lt, Nat.pow_eq]
  split_ifs with h1 h2 h2
  · rw [Bool.and_eq_true, decide_eq_true_eq, decide_eq_true_eq]
  · exact absurd (beq_iff_eq.mp h1) h2
  · exact absurd (beq_iff_eq.mpr h2) h1
  · rw [Bool.and_eq_true, decide_eq_true_eq, decide_eq_true_eq]

/-! ## candidates -/

/-- every candidate is in the interval -/
theorem contains_of_candidate? {r : RoundingInterval} {digits n : Nat} {e : Int}
    (h : r.candidate? digits = some (n, e)) : r.contains n e = true := by
  unfold candidate? at h
  simp only at h
  split at h
  · next h1 h2 =>
    cases h
    split_ifs
    · exact h2
    · exact h1
  · next h1 h2 =>
    cases h
    exact h1
  · next h1 h2 =>
    cases h
    exact h2
  · cases h

theorem candidate?_isSome {r : RoundingInterval} {digits : Nat}
    (h : r.contains (r.neighbour (r.order - (digits - 1 : Nat))).1 (r.order - (digits - 1 : Nat))
        = true ∨
      r.contains ((r.neighbour (r.order - (digits - 1 : Nat))).1 + 1) (r.order - (digits - 1 : Nat))
        = true) : (r.candidate? digits).isSome = true := by
  unfold candidate?
  simp only
  split
  · rfl
  · rfl
  · rfl
  · next h1 h2 =>
    rw [h1, h2] at h
    cases h <;> contradiction

/-! ## seventeen digits -/

/-- the leading digit of a fraction, found among the digits of a multiple of it -/
theorem pow_length_le {mid den k : Nat} (hden : 0 < den) (hle : den ≤ mid * 10 ^ k) :
    (10 : ℚ) ^ ((Nat.toDigits 10 (mid * Nat.pow 10 k / den)).length - (k + 1 : Int)) ≤ mid / den := by
  rw [Nat.pow_eq]
  have hten : (0 : ℚ) < 10 ^ k := by positivity
  have hlead := (Decimal.order_bounds (Nat.div_pos hle hden) 0).1
  have hfloor : ((mid * 10 ^ k / den : Nat) : ℚ) ≤ (mid * 10 ^ k : Nat) / den := Nat.cast_div_le
  rw [zpow_zero, mul_one, add_zero] at hlead
  rw [← sub_sub_sub_cancel_right _ _ (1 : Int), add_sub_cancel_right, zpow_sub₀ (by norm_num),
    zpow_natCast, div_le_iff₀ hten, div_mul_eq_mul_div]
  exact_mod_cast hlead.trans hfloor

/-- the leading digit of the double is not above its order -/
theorem order_le (hc : Canonical mant exp) :
    (10 : ℚ) ^ (ofParts mant exp).order ≤ mant * 2 ^ exp := by
  have hden := den_pos mant exp
  have hlow := (rounds_bounds hc (rounds_self mant exp)).1
  have hle : ∀ k : Nat, (10 : ℚ) ^ (-k : Int) ≤ mant * 2 ^ exp →
      (ofParts mant exp).den ≤ (ofParts mant exp).mid * 10 ^ k := fun k hk => by
    rw [← mid_div, zpow_neg, ← one_div, zpow_natCast, div_le_div_iff₀ (by positivity) hden,
      one_mul] at hk
    exact_mod_cast hk
  obtain ⟨k, hk⟩ : ∃ k, k = 400 := ⟨400, rfl⟩
  have horder : (ofParts mant exp).order = (Nat.toDigits 10 ((ofParts mant exp).mid * Nat.pow 10 k
      / (ofParts mant exp).den)).length - (k + 1 : Int) := by
    rw [order, ← hk]
    omega
  rw [horder, ← mid_div]
  exact pow_length_le (by exact_mod_cast hden) (hle k (by rw [hk]; exact hlow))

/-- the double lies between its two neighbours -/
theorem neighbour_bounds (mant : Nat) (exp e : Int) :
    (((ofParts mant exp).neighbour e).1 * 10 ^ e : ℚ) ≤ mant * 2 ^ exp ∧
      (mant * 2 ^ exp : ℚ) < (((ofParts mant exp).neighbour e).1 + 1) * 10 ^ e := by
  have hden := den_pos mant exp
  have hpos : (0 : ℚ) < 10 ^ e := zpow_pos (by norm_num) e
  have hval : (mant * 2 ^ exp / 10 ^ e : ℚ) = ((ofParts mant exp).mid * 10 ^ (-e).toNat : Nat)
      / ((ofParts mant exp).den * 10 ^ e.toNat : Nat) := by
    rw [← mid_div, ← pow_toNat_div 10 e]
    push_cast
    field_simp
  have hpos' : 0 < (ofParts mant exp).den * 10 ^ e.toNat :=
    Nat.mul_pos (by exact_mod_cast hden) (Nat.pow_pos (by decide))
  rw [← le_div_iff₀ hpos, ← div_lt_iff₀ hpos, hval]
  refine ⟨Nat.cast_div_le, ?_⟩
  rw [div_lt_iff₀ (by exact_mod_cast hpos')]
  have hlt := Nat.lt_mul_div_succ ((ofParts mant exp).mid * 10 ^ (-e).toNat) hpos'
  rw [Nat.mul_comm (_ * _)] at hlt
  exact_mod_cast hlt

/-- a grid fine enough for seventeen digits has a point next to the double that is rounded to it -/
theorem rounds_of_grid (hc : Canonical mant exp) {n : Nat} {g : ℚ}
    (hfine : 10 ^ 16 * g ≤ mant * 2 ^ exp) (hlow : n * g ≤ mant * 2 ^ exp)
    (hhigh : mant * 2 ^ exp < (n + 1) * g) :
    Rounds mant exp (n * g) ∨ Rounds mant exp ((n + 1) * g) := by
  have hlt : (mant : ℚ) + 1 ≤ 2 ^ 53 := by exact_mod_cast hc.lt
  have hu := two_zpow_pos exp
  have hg : 0 < g := by nlinarith
  by_cases hpow : mant = 2 ^ 52 ∧ exp ≠ -1074
  · -- below a power of two the interval ends too early, but the grid is fine enough above it
    have hm : (mant : ℚ) = 2 ^ 52 := by exact_mod_cast hpow.1
    refine .inr (rounds_of_lt ?_ ?_)
    · have := below_pos mant exp
      nlinarith
    · rw [hm] at hlow hfine ⊢
      nlinarith
  · have hbelow : below mant exp = 1 / 2 := if_neg hpow
    rcases le_total (mant * 2 ^ exp - n * g) (g / 2) with hnear | hnear
    · refine .inl (rounds_of_lt ?_ ?_)
      · rw [hbelow]
        nlinarith
      · nlinarith
    · refine .inr (rounds_of_lt ?_ ?_)
      · rw [hbelow]
        nlinarith
      · nlinarith

/-- A grid of seventeen digits has a point in every interval. -/
theorem candidate?_seventeen (hc : Canonical mant exp) :
    ((ofParts mant exp).candidate? 17).isSome = true := by
  have horder := order_le hc
  have hgrid : (10 : ℚ) ^ (ofParts mant exp).order = 10 ^ 16 * 10 ^ ((ofParts mant exp).order - 16) := by
    rw [← Decimal.ten_zpow_add]
    congr 1
    omega
  rw [hgrid] at horder
  obtain ⟨hlow, hhigh⟩ := neighbour_bounds mant exp ((ofParts mant exp).order - 16)
  have hsome := rounds_of_grid hc horder hlow hhigh
  rw [← Nat.cast_succ, ← contains_iff hc.pos, ← contains_iff hc.pos] at hsome
  exact candidate?_isSome hsome

end

end RoundingInterval

/-- the shortest decimal is rounded to the double -/
theorem shortest_rounds {mant : Nat} {exp : Int} (hc : Binary.Canonical mant exp) :
    Binary.Rounds mant exp ((shortest mant exp).1 * 10 ^ (shortest mant exp).2) := by
  have hsome : ((List.range 17).findSome? fun i =>
      (RoundingInterval.ofParts mant exp).candidate? (i + 1)).isSome = true :=
    List.findSome?_isSome_iff.mpr
      ⟨16, List.mem_range.mpr (by decide), RoundingInterval.candidate?_seventeen hc⟩
  obtain ⟨⟨n, e⟩, hne⟩ := Option.isSome_iff_exists.mp hsome
  obtain ⟨i, _, hi⟩ := List.exists_of_findSome?_eq_some hne
  have hshortest : shortest mant exp = (n, e) := by
    rw [shortest]
    simp only [hne, Option.getD_some]
  rw [hshortest]
  exact (RoundingInterval.contains_iff hc.pos).mp (RoundingInterval.contains_of_candidate? hi)

end Worksheet
