import Mathlib
import Worksheet.Number.Binary
import Worksheet.Proofs.Number.Zero

/-!
# The parts of a double

* `Binary.Canonical`   the mantissas and exponents of the doubles that are neither zero nor infinite;
* `Binary.double`      the double with these parts;
* `Binary.unpack_double`
                       its parts are found again;
* `Binary.eq_double`   every finite double other than zero is the one with its parts;
* `Binary.neg_double`  a change of sign changes no other part.
-/

namespace Worksheet

namespace Binary

open Float.Model Float.Model.UnpackedFloat

/-- The mantissa has its leading bit, or the exponent is the least. -/
structure Canonical (mant : Nat) (exp : Int) : Prop where
  pos : 0 < mant
  lt : mant < 2 ^ 53
  le_exp : -1074 ≤ exp
  exp_le : exp ≤ 971
  leading : 2 ^ 52 ≤ mant ∨ exp = -1074

def sign (negative : Bool) : Sign := if negative then .negative else .positive

theorem neg_sign (negative : Bool) : -sign negative = sign (!negative) := by
  cases negative <;> rfl

def double (negative : Bool) (mant : Nat) (exp : Int) (h : 0 < mant) : Float :=
  .ofModel (.pack (.finite (sign negative) mant exp h))

/-! ## packed parts -/

section
variable {s : Sign} {exponent : BitVec 11} {mantissa : BitVec 52}

theorem unpackSign_packComponents :
    Sign.ofBitVec (unpackSign (packComponents .binary64 s exponent mantissa)) = s := by
  simp only [unpackSign, packComponents, BitVec.extractLsb]
  rw [BitVec.extractLsb'_append_eq_of_le (by decide), BitVec.extractLsb'_append_eq_of_le (by decide)]
  cases s <;> rfl

theorem toNat_one_append (v : BitVec 52) : (1#1 ++ v).toNat = 2 ^ 52 + v.toNat := by
  rw [BitVec.toNat_append, ← Nat.shiftLeft_add_eq_or_of_lt v.isLt]
  rfl

/-- the leading bit is left out, and it is put back -/
theorem unpack_packComponents (hzero : 0 < exponent.toNat) (hones : exponent.toNat < 2047) :
    UnpackedFloat.unpack .binary64 (packComponents .binary64 s exponent mantissa)
      = .finite s (2 ^ 52 + mantissa.toNat) (exponent.toNat - 1075) (by omega) := by
  have h0 : exponent ≠ 0#11 := fun e => by
    rw [e] at hzero
    cases hzero
  have h1 : exponent ≠ -1#11 := fun e => by
    rw [e] at hones
    exact absurd hones (by decide)
  rw [UnpackedFloat.unpack]
  simp only [unpackMantissa_packComponents, unpackExponent_packComponents,
    unpackSign_packComponents]
  rw [if_neg h1, if_neg h0]
  simp only [toNat_one_append]
  rfl

theorem unpack_packComponents_zero (hmant : 0 < mantissa.toNat) :
    UnpackedFloat.unpack .binary64 (packComponents .binary64 s 0#11 mantissa)
      = .finite s mantissa.toNat (-1074) hmant := by
  have hne : mantissa ≠ 0#52 := fun e => by
    rw [e] at hmant
    cases hmant
  rw [UnpackedFloat.unpack]
  simp only [unpackMantissa_packComponents, unpackExponent_packComponents,
    unpackSign_packComponents]
  rw [if_neg (by decide), if_pos trivial, dif_neg hne]
  rfl

end

theorem finite_congr {s : Sign} {mant mant' : Nat} {exp exp' : Int} {h : 0 < mant} (hm : mant = mant')
    (he : exp = exp') : UnpackedFloat.finite s mant exp h = .finite s mant' exp' (hm ▸ h) := by
  subst hm he
  rfl

theorem log2_of_leading {mant : Nat} (hle : 2 ^ 52 ≤ mant) (hlt : mant < 2 ^ 53) :
    mant.log2 = 52 :=
  (Nat.log2_eq_iff (by omega)).mpr ⟨hle, hlt⟩

theorem pack_of_leading {s : Sign} {mant : Nat} {exp : Int} {h : 0 < mant} (hle : 2 ^ 52 ≤ mant)
    (hlt : mant < 2 ^ 53) (hexp : exp ≤ 971) : UnpackedFloat.pack .binary64 (.finite s mant exp h)
      = packComponents .binary64 s (.ofNat 11 (exp + 1075).toNat) (.ofNat 52 mant) := by
  have hbias : exp + Format.binary64.exponentBias + Format.binary64.mantissaBitsWithoutImplicit
      = exp + 1075 := Int.add_assoc exp 1023 52
  rw [UnpackedFloat.pack, log2_of_leading hle hlt, hbias]
  simp only
  rw [if_neg (by show ¬2048 ≤ _; omega), if_pos (by rfl)]

theorem pack_of_lt {s : Sign} {mant : Nat} {h : 0 < mant} (hlt : mant < 2 ^ 52) :
    UnpackedFloat.pack .binary64 (.finite s mant (-1074) h)
      = packComponents .binary64 s 0#11 (.ofNat 52 mant) := by
  have hlog : mant.log2 < 52 := (Nat.log2_lt (Nat.pos_iff_ne_zero.mp h)).mpr hlt
  rw [UnpackedFloat.pack]
  simp only
  rw [if_neg (by decide), if_neg (by show ¬_ = 53; omega)]

theorem unpack_pack {s : Sign} {mant : Nat} {exp : Int} (h : Canonical mant exp) :
    (Float.Model.pack (.finite s mant exp h.pos)).unpack = .finite s mant exp h.pos := by
  have hlt := h.lt
  have hexp := h.exp_le
  have hexp' := h.le_exp
  show UnpackedFloat.unpack .binary64 (UnpackedFloat.pack .binary64 (.finite s mant exp h.pos)) = _
  by_cases hle : 2 ^ 52 ≤ mant
  · have hfield : (BitVec.ofNat 11 (exp + 1075).toNat).toNat = (exp + 1075).toNat := by
      rw [BitVec.toNat_ofNat]
      omega
    have hfraction : (BitVec.ofNat 52 mant).toNat = mant - 2 ^ 52 := by
      rw [BitVec.toNat_ofNat]
      omega
    have hm : 2 ^ 52 + (BitVec.ofNat 52 mant).toNat = mant := by omega
    have he : ((BitVec.ofNat 11 (exp + 1075).toNat).toNat : Int) - 1075 = exp := by omega
    rw [pack_of_leading hle hlt hexp, unpack_packComponents (by omega) (by omega)]
    exact finite_congr hm he
  · obtain rfl := h.leading.resolve_left hle
    have hfraction : (BitVec.ofNat 52 mant).toNat = mant := by
      rw [BitVec.toNat_ofNat]
      omega
    rw [pack_of_lt (by omega), unpack_packComponents_zero (by rw [hfraction]; exact h.pos)]
    exact finite_congr hfraction rfl

theorem unpack_double {negative : Bool} {mant : Nat} {exp : Int} (h : Canonical mant exp) :
    (double negative mant exp h.pos).toModel.unpack = .finite (sign negative) mant exp h.pos :=
  unpack_pack h

theorem neg_double {negative : Bool} {mant : Nat} {exp : Int} (h : Canonical mant exp) :
    -double negative mant exp h.pos = double (!negative) mant exp h.pos := by
  show Float.ofModel (.pack (.neg (double negative mant exp h.pos).toModel.unpack)) = _
  rw [unpack_double h, UnpackedFloat.neg, neg_sign]
  rfl

/-! ## the parts of a double -/

/-- the parts, as they are read off the bits -/
def ofUnpacked : UnpackedFloat → Binary
  | .infinity s => .infinite (s == .negative)
  | .notANumber => .nan
  | .zero s => .finite (s == .negative) 0 (-1074)
  | .finite s mant exp _ => .finite (s == .negative) mant exp

theorem sign_beq (s : Sign) : sign (s == .negative) = s := by
  cases s <;> rfl

theorem ofUnpacked_fields (v : BitVec 1) (e : BitVec 11) (m : BitVec 52) :
    (if e.toNat = 2047 then if m.toNat = 0 then .infinite (v.toNat == 1) else .nan
      else if e.toNat = 0 then .finite (v.toNat == 1) m.toNat (-1074)
      else .finite (v.toNat == 1) (2 ^ 52 + m.toNat) (e.toNat - 1075)) =
    ofUnpacked (if e = -1#11 then if m = 0#52 then .infinity (.ofBitVec v) else .notANumber
      else if e = 0#11 then
        if h : m = 0#52 then .zero (.ofBitVec v)
        else .finite (.ofBitVec v) m.toNat (e.toNat - 1075 + 1)
          (by simpa [BitVec.toNat_pos, BitVec.pos_iff_ne_zero])
      else .finite (.ofBitVec v) (1#1 ++ m).toNat (e.toNat - 1075)
        (by rw [toNat_one_append]; omega)) := by
  have hsign : (v.toNat == 1) = (Sign.ofBitVec v == .negative) := by
    obtain rfl | rfl := BitVec.eq_zero_or_eq_one v <;> rfl
  have hones : e = -1#11 ↔ e.toNat = 2047 := BitVec.toNat_eq
  have hzero : e = 0#11 ↔ e.toNat = 0 := BitVec.toNat_eq
  have hmzero : m = 0#52 ↔ m.toNat = 0 := BitVec.toNat_eq
  by_cases h1 : e.toNat = 2047
  · rw [if_pos h1, if_pos (hones.mpr h1)]
    by_cases h2 : m.toNat = 0
    · rw [if_pos h2, if_pos (hmzero.mpr h2), hsign]
      rfl
    · rw [if_neg h2, if_neg (mt hmzero.mp h2)]
      rfl
  · rw [if_neg h1, if_neg (mt hones.mp h1)]
    by_cases h3 : e.toNat = 0
    · rw [if_pos h3, if_pos (hzero.mpr h3), hsign]
      by_cases h2 : m.toNat = 0
      · rw [dif_pos (hmzero.mpr h2), h2]
        rfl
      · rw [dif_neg (mt hmzero.mp h2), h3]
        rfl
    · rw [if_neg h3, if_neg (mt hzero.mp h3), hsign]
      simp only [toNat_one_append]
      rfl

theorem ofFloat_eq (x : Float) : ofFloat x = ofUnpacked x.toModel.unpack := by
  have hm : (@unpackMantissa .binary64 x.toModel.toBits.toBitVec).toNat
      = x.toBits.toNat % 2 ^ 52 := by
    simp [unpackMantissa, Float.toBits]
  have he : (@unpackExponent .binary64 x.toModel.toBits.toBitVec).toNat
      = x.toBits.toNat / 2 ^ 52 % 2 ^ 11 := by
    simp [unpackExponent, Float.toBits, Nat.shiftRight_eq_div_pow]
  have hs : (@unpackSign .binary64 x.toModel.toBits.toBitVec).toNat
      = x.toBits.toNat / 2 ^ 63 % 2 := by
    simp [unpackSign, Float.toBits, Nat.shiftRight_eq_div_pow]
  show ofBits x.toBits.toNat = ofUnpacked (UnpackedFloat.unpack .binary64 x.toModel.toBits.toBitVec)
  rw [ofBits, UnpackedFloat.unpack]
  simp only [Nat.pow_eq, ← hm, ← he, ← hs]
  exact ofUnpacked_fields ..

section
variable {x : Float} {negative : Bool} {mant : Nat} {exp : Int}

theorem canonical_of_ofFloat (h : ofFloat x = .finite negative mant exp) (hmant : 0 < mant) :
    Canonical mant exp := by
  rw [ofFloat, ofBits] at h
  simp only [Nat.pow_eq] at h
  split_ifs at h with h1 h2 h3
  · cases h
    exact ⟨hmant, by omega, by omega, by omega, .inr rfl⟩
  · cases h
    exact ⟨hmant, by omega, by omega, by omega, .inl (by omega)⟩

theorem eq_double (h : ofFloat x = .finite negative mant exp) (hmant : 0 < mant) :
    x = double negative mant exp hmant := by
  have hx : x = .ofModel (.pack x.toModel.unpack) :=
    congrArg Float.ofModel (Number.pack_unpack x.toModel).symm
  rw [ofFloat_eq] at h
  cases hu : x.toModel.unpack with
  | finite s m e hm =>
    rw [hu] at h hx
    cases h
    rw [hx, double, sign_beq]
  | zero s =>
    rw [hu] at h
    cases h
    cases hmant
  | _ =>
    rw [hu] at h
    cases h

theorem isZero_of_ofFloat (h : ofFloat x = .finite negative 0 exp) : Number.IsZero x := by
  rw [ofFloat_eq] at h
  cases hu : x.toModel.unpack with
  | zero s => exact ⟨s, hu⟩
  | finite s m e hm =>
    rw [hu] at h
    cases h
    cases hm
  | _ =>
    rw [hu] at h
    cases h

end

end Binary

end Worksheet
