import Worksheet.Proofs.Number.Parts

/-!
# Rounding to a double

* `Binary.Rounds`      the reals that are rounded to a double: those half way to its neighbours or
                       nearer;
* `Binary.Extends`     a mantissa with two more bits, and the real that it stands for;
* `Binary.Near`        the natural number to which a real is rounded;
* `Binary.roundWithAccuracy_eq`
                       a real that is known to enough bits is rounded so;
* `Binary.mul_eq`, `Binary.div_eq`
                       products and quotients are;
* `Binary.Exact`       a double that has the value of a natural number: `Binary.exact_toFloat` of those
                       below `2 ^ 53`, `Binary.exact_powerOfTen` of powers of ten.
-/

namespace Worksheet

namespace Binary

open Float.Model Float.Model.UnpackedFloat

/-! ## what is rounded to a double -/

/-- below a power of two the neighbour is nearer by half, except at the smallest normal number -/
def below (mant : Nat) (exp : Int) : ℚ := if mant = 2 ^ 52 ∧ exp ≠ -1074 then 1 / 4 else 1 / 2

/-- ties go to the even mantissa -/
def Rounds (mant : Nat) (exp : Int) (q : ℚ) : Prop :=
  if mant % 2 = 0 then (mant - below mant exp) * 2 ^ exp ≤ q ∧ q ≤ (mant + 1 / 2) * 2 ^ exp
  else (mant - below mant exp) * 2 ^ exp < q ∧ q < (mant + 1 / 2) * 2 ^ exp

theorem two_zpow_pos (e : Int) : (0 : ℚ) < 2 ^ e := zpow_pos (by norm_num) e

theorem below_pos (mant : Nat) (exp : Int) : 0 < below mant exp := by
  unfold below
  split_ifs <;> norm_num

theorem below_le (mant : Nat) (exp : Int) : below mant exp ≤ 1 / 2 := by
  unfold below
  split_ifs <;> norm_num

theorem Rounds.le {mant : Nat} {exp : Int} {q : ℚ} (h : Rounds mant exp q) :
    (mant - below mant exp) * 2 ^ exp ≤ q ∧ q ≤ (mant + 1 / 2) * 2 ^ exp := by
  rw [Rounds] at h
  split_ifs at h
  · exact h
  · exact ⟨h.1.le, h.2.le⟩

theorem rounds_of_lt {mant : Nat} {exp : Int} {q : ℚ} (hlow : (mant - below mant exp) * 2 ^ exp < q)
    (hhigh : q < (mant + 1 / 2) * 2 ^ exp) : Rounds mant exp q := by
  rw [Rounds]
  split_ifs
  · exact ⟨hlow.le, hhigh.le⟩
  · exact ⟨hlow, hhigh⟩

/-- a double is rounded to itself -/
theorem rounds_self (mant : Nat) (exp : Int) : Rounds mant exp (mant * 2 ^ exp) := by
  have hpos := two_zpow_pos exp
  have hbelow := below_pos mant exp
  refine rounds_of_lt ?_ ?_
  · exact mul_lt_mul_of_pos_right (by linarith) hpos
  · exact mul_lt_mul_of_pos_right (by linarith) hpos

/-! ## mantissas with two more bits -/

/-- The first bit tells whether the real is in the lower or the upper half above the mantissa, the
second one whether it is in the interior. -/
def Extends (em : ExtendedMantissa) (x : ℚ) : Prop :=
  match em with
  | ⟨mant, false, false⟩ => x = mant
  | ⟨mant, false, true⟩ => mant < x ∧ x < mant + 1 / 2
  | ⟨mant, true, false⟩ => x = mant + 1 / 2
  | ⟨mant, true, true⟩ => mant + 1 / 2 < x ∧ x < mant + 1

theorem Extends.bounds {em : ExtendedMantissa} {x : ℚ} (h : Extends em x) :
    em.mantissa ≤ x ∧ x < em.mantissa + 1 := by
  obtain ⟨mant, r, s⟩ := em
  cases r <;> cases s <;> simp only [Extends] at h <;> constructor <;> linarith

theorem Extends.shiftRightOne {em : ExtendedMantissa} {x : ℚ} (h : Extends em x) :
    Extends em.shiftRightOne (x / 2) := by
  obtain ⟨mant, r, s⟩ := em
  obtain ⟨k, rfl | rfl⟩ := mant.even_or_odd'
  · have hshift : ExtendedMantissa.shiftRightOne ⟨2 * k, r, s⟩ = ⟨k, false, r || s⟩ := by
      rw [ExtendedMantissa.shiftRightOne]
      simp
    rw [hshift]
    cases r <;> cases s <;> simp only [Extends, Nat.cast_mul, Nat.cast_ofNat, Bool.or_false,
      Bool.or_true] at h ⊢
    · linarith
    · constructor <;> linarith
    · constructor <;> linarith
    · constructor <;> linarith
  · have hshift : ExtendedMantissa.shiftRightOne ⟨2 * k + 1, r, s⟩ = ⟨k, true, r || s⟩ := by
      rw [ExtendedMantissa.shiftRightOne]
      simp
      omega
    rw [hshift]
    cases r <;> cases s <;> simp only [Extends, Nat.cast_mul, Nat.cast_ofNat, Nat.cast_add,
      Nat.cast_one, Bool.or_false, Bool.or_true] at h ⊢
    · linarith
    · constructor <;> linarith
    · constructor <;> linarith
    · constructor <;> linarith

theorem Extends.shiftRight {em : ExtendedMantissa} {x : ℚ} (h : Extends em x) (n : Nat) :
    Extends (em >>> n) (x / 2 ^ n) := by
  induction n with
  | zero =>
    rw [pow_zero, div_one]
    exact h
  | succ n ih =>
    have e : x / 2 ^ (n + 1) = x / 2 ^ n / 2 := by rw [pow_succ, div_div]
    rw [e]
    exact ih.shiftRightOne

/-! ## natural numbers that are nearest -/

/-- a natural number that is nearest to a real, and even if there are two -/
structure Near (x : ℚ) (n : Nat) : Prop where
  le : x ≤ n + 1 / 2
  ge : n - 1 / 2 ≤ x
  even : x = n + 1 / 2 ∨ x = n - 1 / 2 → n % 2 = 0

theorem Extends.roundedMantissa {em : ExtendedMantissa} {x : ℚ} (h : Extends em x) {n : Nat}
    (hn : Near x n) : em.roundedMantissa = n := by
  obtain ⟨mant, r, s⟩ := em
  obtain ⟨hle, hge, heven⟩ := hn
  cases r <;> cases s <;> simp only [Extends] at h
  · have h1 : (mant : ℚ) < n + 1 := by linarith
    have h2 : (n : ℚ) < mant + 1 := by linarith
    norm_cast at h1 h2
    show mant = n
    omega
  · have h1 : (mant : ℚ) < n + 1 := by linarith
    have h2 : (n : ℚ) < mant + 1 := by linarith
    norm_cast at h1 h2
    show mant = n
    omega
  · have h1 : (mant : ℚ) < n + 1 := by linarith
    have h2 : (n : ℚ) < mant + 1 + 1 := by linarith
    norm_cast at h1 h2
    show mant + mant % 2 = n
    obtain rfl | rfl : n = mant ∨ n = mant + 1 := by omega
    · have := heven (.inl h)
      omega
    · have := heven (.inr (by push_cast; linarith))
      omega
  · have h1 : (mant : ℚ) < n := by linarith
    have h2 : (n : ℚ) < mant + 1 + 1 := by linarith
    norm_cast at h1 h2
    show mant + 1 = n
    omega

theorem Rounds.near {mant : Nat} {exp : Int} {q : ℚ} (h : Rounds mant exp q) :
    Near (q / 2 ^ exp) mant := by
  have hpos := two_zpow_pos exp
  have hbelow := below_le mant exp
  obtain ⟨hlow, hhigh⟩ := h.le
  rw [← le_div_iff₀ hpos] at hlow
  rw [← div_le_iff₀ hpos] at hhigh
  refine ⟨hhigh, by linarith, fun htie => ?_⟩
  by_contra hodd
  rw [Rounds, if_neg hodd, ← lt_div_iff₀ hpos, ← div_lt_iff₀ hpos] at h
  rcases htie with e | e
  · exact absurd e h.2.ne
  · exact absurd e (by linarith [h.1] : (mant : ℚ) - 1 / 2 < q / 2 ^ exp).ne'

/-! ## exponents -/

/-- the exponent of the double that a mantissa with an exponent is rounded to, but for a carry -/
def target (mant : Nat) (exp : Int) : Int := max (mant.log2 + 1 + exp - 53) (-1074)

theorem shiftToTargetExponent_eq (mant : Nat) (exp : Int) (acc : Accuracy) :
    shiftToTargetExponent .binary64 mant exp acc
      = (ExtendedMantissa.ofMantissaAndAccuracy mant acc >>> (target mant exp - exp).toNat,
        exp + (target mant exp - exp).toNat) := rfl

theorem Canonical.target_eq {mant : Nat} {exp : Int} (h : Canonical mant exp) :
    target mant exp = exp := by
  have hexp := h.le_exp
  rw [target]
  by_cases hle : 2 ^ 52 ≤ mant
  · rw [log2_of_leading hle h.lt]
    omega
  · have hlog : mant.log2 < 52 := (Nat.log2_lt (Nat.pos_iff_ne_zero.mp h.pos)).mpr (by omega)
    have := h.leading.resolve_left hle
    omega

theorem two_zpow_le {a b : Int} (h : a ≤ b) : (2 : ℚ) ^ a ≤ 2 ^ b :=
  zpow_le_zpow_right₀ (by norm_num) h

theorem two_zpow_add (a : Int) (n : Nat) : (2 : ℚ) ^ (a + n) = 2 ^ n * 2 ^ a := by
  rw [zpow_add₀ (by norm_num), zpow_natCast, mul_comm]

/-- where the leading bit of a real is -/
structure Fits (t : Int) (q : ℚ) : Prop where
  le : -1074 ≤ t
  lt : q < 2 ^ 53 * 2 ^ t
  ge : t ≠ -1074 → 2 ^ 52 * 2 ^ t ≤ q

theorem Extends.fits {mant : Nat} {exp : Int} {acc : Accuracy} {x : ℚ}
    (h : Extends (.ofMantissaAndAccuracy mant acc) x) (hexp : exp ≤ target mant exp) :
    Fits (target mant exp) (x * 2 ^ exp) := by
  have hmant : (ExtendedMantissa.ofMantissaAndAccuracy mant acc).mantissa = mant := by
    cases acc with
    | exact => rfl
    | inexact o => cases o <;> rfl
  have hbounds := h.bounds
  rw [hmant] at hbounds
  have hpos := two_zpow_pos exp
  refine ⟨le_max_right _ _, ?_, fun hne => ?_⟩
  · have hlog : mant + 1 ≤ 2 ^ (mant.log2 + 1) := Nat.lt_log2_self
    calc x * 2 ^ exp < (mant + 1) * 2 ^ exp := mul_lt_mul_of_pos_right hbounds.2 hpos
      _ ≤ 2 ^ (mant.log2 + 1) * 2 ^ exp := mul_le_mul_of_nonneg_right (mod_cast hlog) hpos.le
      _ = 2 ^ (exp + (mant.log2 + 1 : Nat)) := (two_zpow_add exp _).symm
      _ ≤ 2 ^ (target mant exp + (53 : Nat)) := two_zpow_le (by rw [target]; push_cast; omega)
      _ = 2 ^ 53 * 2 ^ target mant exp := two_zpow_add _ 53
  · have ht : target mant exp = mant.log2 + 1 + exp - 53 := by
      rw [target] at hne ⊢
      omega
    have hzero : mant ≠ 0 := fun e => by
      rw [e, Nat.log2_zero] at ht
      rw [e] at hexp
      omega
    calc 2 ^ 52 * 2 ^ target mant exp = 2 ^ (target mant exp + (52 : Nat)) :=
          (two_zpow_add _ 52).symm
      _ = 2 ^ (exp + (mant.log2 : Nat)) := by rw [ht]; congr 1; push_cast; omega
      _ = 2 ^ mant.log2 * 2 ^ exp := two_zpow_add exp _
      _ ≤ mant * 2 ^ exp := mul_le_mul_of_nonneg_right (mod_cast Nat.log2_self_le hzero) hpos.le
      _ ≤ x * 2 ^ exp := mul_le_mul_of_nonneg_right hbounds.1 hpos.le

/-- A real that is rounded to a double has the exponent of the double, or the double is a power of
two and the real is below it. -/
theorem Rounds.exponent {mant : Nat} {exp : Int} (hc : Canonical mant exp) {q : ℚ}
    (h : Rounds mant exp q) {t : Int} (ht : Fits t q) :
    t = exp ∨ t + 1 = exp ∧ mant = 2 ^ 52 ∧ Near (q / 2 ^ t) (2 ^ 53) := by
  have hpos := two_zpow_pos t
  have hle := ht.le
  have hlt := hc.lt
  obtain ⟨hlow, hhigh⟩ := h.le
  rcases lt_trichotomy t exp with hlt' | rfl | hgt
  · right
    have hne : exp ≠ -1074 := by omega
    have hlead := hc.leading.resolve_right hne
    -- twice the exponent would be too much, and so would be a greater mantissa
    have hmant : mant = 2 ^ 52 := by
      by_contra hm
      have hm' : (2 ^ 52 + 1 : ℚ) ≤ mant := by exact_mod_cast (by omega : 2 ^ 52 + 1 ≤ mant)
      have hb := below_le mant exp
      have hexp : (2 : ℚ) ^ (t + (1 : Nat)) ≤ 2 ^ exp := two_zpow_le (by push_cast; omega)
      rw [two_zpow_add] at hexp
      have := ht.lt
      nlinarith
    have hbelow : below mant exp = 1 / 4 := if_pos ⟨hmant, hne⟩
    have hexp : t + 1 = exp := by
      by_contra hne'
      have hexp : (2 : ℚ) ^ (t + (2 : Nat)) ≤ 2 ^ exp := two_zpow_le (by push_cast; omega)
      rw [two_zpow_add] at hexp
      rw [hbelow, hmant] at hlow
      push_cast at hlow
      have := ht.lt
      nlinarith
    refine ⟨hexp, hmant, ?_, ?_, fun _ => by decide⟩
    · rw [div_le_iff₀ hpos]
      have := ht.lt
      push_cast
      linarith
    · rw [le_div_iff₀ hpos]
      rw [hbelow, hmant, ← hexp, zpow_add₀ (by norm_num), zpow_one] at hlow
      push_cast at hlow ⊢
      linarith
  · exact .inl rfl
  · exfalso
    have hexp : (2 : ℚ) ^ (exp + (1 : Nat)) ≤ 2 ^ t := two_zpow_le (by push_cast; omega)
    rw [two_zpow_add] at hexp
    have hm : (mant + 1 : ℚ) ≤ 2 ^ 53 := by exact_mod_cast hlt
    have hpos' := two_zpow_pos exp
    have := ht.ge (by have := hc.le_exp; omega)
    nlinarith

/-! ## rounding -/

/-- A real of which enough bits are known is rounded to the double to whose interval it belongs. -/
theorem roundWithAccuracy_eq {s : Sign} {m : Nat} {e : Int} {acc : Accuracy} {x : ℚ}
    (hx : Extends (.ofMantissaAndAccuracy m acc) x) (he : e ≤ target m e) {mant : Nat} {exp : Int}
    (hc : Canonical mant exp) (h : Rounds mant exp (x * 2 ^ e)) :
    roundWithAccuracy .binary64 s m e acc = .finite s mant exp hc.pos := by
  have hshift : e + (target m e - e).toNat = target m e := by omega
  have hem : Extends (ExtendedMantissa.ofMantissaAndAccuracy m acc >>> (target m e - e).toNat)
      (x * 2 ^ e / 2 ^ target m e) := by
    have hdiv : x * 2 ^ e / 2 ^ target m e = x / 2 ^ (target m e - e).toNat := by
      conv => lhs; rw [← hshift, two_zpow_add]
      rw [mul_div_mul_right _ _ (two_zpow_pos e).ne']
    rw [hdiv]
    exact hx.shiftRight _
  have hround : ∀ n, Near (x * 2 ^ e / 2 ^ target m e) n → roundWithAccuracy .binary64 s m e acc
      = if h : (shiftToTargetExponent .binary64 n (target m e) .exact).1.mantissa = 0 then .zero s
        else .finite s (shiftToTargetExponent .binary64 n (target m e) .exact).1.mantissa
          (shiftToTargetExponent .binary64 n (target m e) .exact).2 (Nat.pos_of_ne_zero h) := by
    intro n hn
    rw [roundWithAccuracy]
    simp only [shiftToTargetExponent_eq m e, hshift, hem.roundedMantissa hn]
  rcases h.exponent hc (hx.fits he) with ht | ⟨ht, rfl, hnear⟩
  · have hfinal : shiftToTargetExponent .binary64 mant exp .exact = (⟨mant, false, false⟩, exp) := by
      rw [shiftToTargetExponent_eq, hc.target_eq, Int.sub_self]
      exact congrArg (Prod.mk _) (Int.add_zero exp)
    rw [hround mant (ht ▸ h.near), ht]
    simp only [hfinal]
    exact dif_neg hc.pos.ne'
  · -- the carry has made the mantissa too long by one bit
    have htarget : target (2 ^ 53) (target m e) = target m e + 1 := by
      rw [target, Nat.log2_two_pow]
      have := (hx.fits he).le
      omega
    have hone : (target m e + 1 - target m e).toNat = 1 := by omega
    have hfinal : shiftToTargetExponent .binary64 (2 ^ 53) (target m e) .exact
        = (⟨2 ^ 52, false, false⟩, exp) := by
      rw [shiftToTargetExponent_eq, htarget, hone, ← ht]
      rfl
    rw [hround _ hnear]
    simp only [hfinal]
    exact dif_neg hc.pos.ne'

/-! ## products, quotients and natural numbers -/

theorem le_target_of_leading {m : Nat} (h : 2 ^ 52 ≤ m) (e : Int) : e ≤ target m e := by
  have hlog : 52 ≤ m.log2 := (Nat.le_log2 (by omega)).mpr h
  rw [target]
  omega

theorem extends_exact (m : Nat) : Extends (.ofMantissaAndAccuracy m .exact) m := rfl

theorem extends_fraction (m : Nat) {d : Nat} (hd : 0 < d) :
    Extends (.ofMantissaAndAccuracy (m / d) (accuracyOfFraction (m % d) d)) (m / d : ℚ) := by
  have hpos : (0 : ℚ) < d := by exact_mod_cast hd
  have e : (m : ℚ) = (m / d : Nat) * d + (m % d : Nat) := by
    exact_mod_cast (Nat.div_add_mod' m d).symm
  have hlt : ((m % d : Nat) : ℚ) < d := by exact_mod_cast Nat.mod_lt m hd
  have hval : (m / d : ℚ) = (m / d : Nat) + (m % d : Nat) / d := by
    rw [e, add_div, mul_div_cancel_right₀ _ hpos.ne']
  rw [hval, accuracyOfFraction]
  generalize m / d = n at *
  generalize m % d = r at *
  split_ifs with hr
  · rw [hr, Nat.cast_zero, zero_div, add_zero]
    exact extends_exact n
  · have hr' : (0 : ℚ) < r / d := div_pos (by exact_mod_cast Nat.pos_of_ne_zero hr) hpos
    have hr1 : (r / d : ℚ) < 1 := (div_lt_one hpos).mpr hlt
    rcases hcmp : compare (2 * r) d with _ | _ | _
    · have h2 : (2 * r : ℚ) < d := by exact_mod_cast compare_lt_iff_lt.mp hcmp
      have hhalf : (r / d : ℚ) < 1 / 2 := by
        rw [div_lt_iff₀ hpos]
        linarith
      exact ⟨by linarith, by linarith⟩
    · have h2 : (2 * r : ℚ) = d := by exact_mod_cast compare_eq_iff_eq.mp hcmp
      have hhalf : (r / d : ℚ) = 1 / 2 := by
        rw [div_eq_iff hpos.ne']
        linarith
      show (n + r / d : ℚ) = n + 1 / 2
      rw [hhalf]
    · have h2 : (d : ℚ) < 2 * r := by exact_mod_cast compare_gt_iff_gt.mp hcmp
      have hhalf : (1 / 2 : ℚ) < r / d := by
        rw [lt_div_iff₀ hpos]
        linarith
      exact ⟨by linarith, by linarith⟩

section
variable {m₁ m₂ : Nat} (h₁ : 0 < m₁) (h₂ : 0 < m₂) (e₁ e₂ : Int) {mant : Nat} {exp : Int}
  (hc : Canonical mant exp)

theorem mul_eq (hlead : 2 ^ 52 ≤ m₁ * m₂) (h : Rounds mant exp (m₁ * m₂ * 2 ^ (e₁ + e₂))) :
    UnpackedFloat.mul .binary64 (.finite .positive m₁ e₁ h₁) (.finite .positive m₂ e₂ h₂)
      = .finite .positive mant exp hc.pos := by
  refine roundWithAccuracy_eq (extends_exact _) (le_target_of_leading hlead _) hc ?_
  rwa [Nat.cast_mul]

/-- the quotient is worked out to enough bits -/
theorem div_eq (h : Rounds mant exp (m₁ * 2 ^ e₁ / (m₂ * 2 ^ e₂))) :
    UnpackedFloat.div .binary64 (.finite .positive m₁ e₁ h₁) (.finite .positive m₂ e₂ h₂)
      = .finite .positive mant exp hc.pos := by
  let e := min (e₁ - e₂) (max (totalExponent m₁ e₁ - totalExponent m₂ e₂ - 53) (-1074))
  let shift := (e₁ - e₂ - e).toNat
  have hshift : e + shift = e₁ - e₂ := by omega
  have hdiv : UnpackedFloat.div .binary64 (.finite .positive m₁ e₁ h₁) (.finite .positive m₂ e₂ h₂)
      = roundWithAccuracy .binary64 .positive (m₁ * 2 ^ shift / m₂) e
        (accuracyOfFraction (m₁ * 2 ^ shift % m₂) m₂) := by
    rw [← Nat.shiftLeft_eq]
    rfl
  rw [hdiv]
  refine roundWithAccuracy_eq (extends_fraction _ h₂) ?_ hc ?_
  · by_cases hle : e ≤ -1074
    · exact hle.trans (le_max_right _ _)
    · refine le_target_of_leading ?_ e
      rw [Nat.le_div_iff_mul_le h₂]
      have hlog : m₂.log2 + 53 ≤ m₁.log2 + shift := by
        have he : e = min (e₁ - e₂) (max (m₁.log2 + 1 + e₁ - (m₂.log2 + 1 + e₂) - 53) (-1074)) := rfl
        omega
      calc 2 ^ 52 * m₂ ≤ 2 ^ 52 * 2 ^ (m₂.log2 + 1) :=
            Nat.mul_le_mul_left _ Nat.lt_log2_self.le
        _ = 2 ^ (m₂.log2 + 53) := by rw [← pow_add]; congr 1; omega
        _ ≤ 2 ^ (m₁.log2 + shift) := Nat.pow_le_pow_right (by decide) hlog
        _ = 2 ^ m₁.log2 * 2 ^ shift := pow_add ..
        _ ≤ m₁ * 2 ^ shift := Nat.mul_le_mul_right _ (Nat.log2_self_le h₁.ne')
  · have hq : (m₁ * 2 ^ e₁ / (m₂ * 2 ^ e₂) : ℚ) = (m₁ * 2 ^ shift : Nat) / m₂ * 2 ^ e := by
      have hz : (2 : ℚ) ^ e₁ = 2 ^ shift * 2 ^ e * 2 ^ e₂ := by
        rw [← two_zpow_add, ← zpow_add₀ (by norm_num)]
        congr 1
        omega
      have hpos := (two_zpow_pos e₂).ne'
      rw [hz]
      push_cast
      field_simp
    rwa [← hq]

end

/-- the double that has the value of a natural number, with all bits of its mantissa -/
def Exact (x : Float) (n : Nat) : Prop :=
  ∃ mant exp h, x.toModel.unpack = .finite .positive mant exp h ∧ 2 ^ 52 ≤ mant ∧
    (mant * 2 ^ exp : ℚ) = n

/-- natural numbers below `2 ^ 53` are doubles -/
theorem exact_toFloat {n : Nat} (hpos : 0 < n) (hlt : n < 2 ^ 53) : Exact n.toUInt64.toFloat n := by
  have hlog : n.log2 ≤ 52 := by
    have := (Nat.log2_lt hpos.ne').mpr hlt
    omega
  let mant := n * 2 ^ (52 - n.log2)
  let exp : Int := n.log2 - 52
  have hpow : 2 ^ n.log2 * 2 ^ (52 - n.log2) = 2 ^ 52 := by
    rw [← pow_add]
    congr 1
    omega
  have hlead : 2 ^ 52 ≤ mant := hpow ▸ Nat.mul_le_mul_right _ (Nat.log2_self_le hpos.ne')
  have hmant : mant < 2 ^ 53 := by
    have := Nat.mul_lt_mul_of_pos_right (Nat.lt_log2_self (n := n)) (Nat.two_pow_pos (52 - n.log2))
    rw [pow_succ, Nat.mul_right_comm, hpow] at this
    exact this
  have hc : Canonical mant exp := ⟨by omega, hmant, by omega, by omega, .inl hlead⟩
  have hval : (mant * 2 ^ exp : ℚ) = n := by
    have hz : (2 : ℚ) ^ exp = 1 / 2 ^ (52 - n.log2) := by
      rw [← zpow_natCast, one_div, ← zpow_neg]
      congr 1
      omega
    rw [hz]
    simp only [mant]
    push_cast
    field_simp
  have hround : UnpackedFloat.round .binary64 .positive n 0 = .finite .positive mant exp hc.pos := by
    have htarget : Format.binary64.targetExponent (totalExponent n 0) = exp := by
      show max ((n.log2 : Int) + 1 + 0 - 53) (-1074) = n.log2 - 52
      omega
    have hshift : ((0 : Int) - exp).toNat = 52 - n.log2 := by omega
    have hexp : (0 : Int) - (52 - n.log2 : Nat) = exp := by omega
    rw [UnpackedFloat.round, htarget, decreaseExponent]
    simp only [hshift, hexp, Nat.shiftLeft_eq]
    exact roundWithAccuracy_eq (extends_exact _) (le_target_of_leading hlead _) hc
      (rounds_self mant exp)
  refine ⟨mant, exp, hc.pos, ?_, hlead, hval⟩
  have hn : n.toUInt64.toNat = n := UInt64.toNat_ofNat_of_lt (Nat.lt_trans hlt (by decide))
  have hcmp : compare (n : Int) 0 = .gt := compare_gt_iff_gt.mpr (by omega)
  show (Float.Model.pack
    (UnpackedFloat.normalize .binary64 (n.toUInt64.toNat : Int) 0 .positive)).unpack = _
  rw [hn, UnpackedFloat.normalize, hcmp]
  show (Float.Model.pack (UnpackedFloat.round .binary64 .positive n 0)).unpack = _
  rw [hround, unpack_pack hc]

theorem ofFloat_powerOfTen : ∀ k : Fin Float.exactlyRepresentablePowersOfTen.size,
    2 ^ (10 ^ k.val).log2 ∣ 10 ^ k.val * 2 ^ 52 ∧
      2 ^ 52 ≤ 10 ^ k.val * 2 ^ 52 / 2 ^ (10 ^ k.val).log2 ∧
      ofFloat Float.exactlyRepresentablePowersOfTen[k] = .finite false
        (10 ^ k.val * 2 ^ 52 / 2 ^ (10 ^ k.val).log2) ((10 ^ k.val).log2 - 52) := by
  decide +kernel

/-- powers of ten up to `10 ^ 22` are doubles -/
theorem exact_powerOfTen {k : Nat} (h : k < Float.exactlyRepresentablePowersOfTen.size) :
    Exact Float.exactlyRepresentablePowersOfTen[k] (10 ^ k) := by
  obtain ⟨hdvd, hlead, hparts⟩ := ofFloat_powerOfTen ⟨k, h⟩
  have hpos := Nat.lt_of_lt_of_le (Nat.two_pow_pos 52) hlead
  have hunpack := @unpack_double false _ _ (canonical_of_ofFloat hparts hpos)
  rw [← eq_double hparts hpos] at hunpack
  refine ⟨_, _, hpos, hunpack, hlead, ?_⟩
  have hz : (2 : ℚ) ^ (((10 ^ k).log2 : Int) - 52) = 2 ^ (10 ^ k).log2 / 2 ^ 52 := by
    rw [zpow_sub₀ (by norm_num), zpow_natCast]
    rfl
  rw [hz, Nat.cast_div hdvd (by positivity)]
  push_cast
  field_simp
  norm_num

end Binary

end Worksheet
