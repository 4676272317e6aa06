import Worksheet.Number.Display
import Worksheet.Proofs.Number.Decimal
import Worksheet.Proofs.Number.Shortest

/-!
# Numbers that are shown, and read back

* `Layout.exists_parse?_positional`
                       what is shown positionally is read as the decimal that is shown;
* `Layout.Scientific`  a mantissa, an `e`, a sign and an exponent;
* `Number.Shown`       what a number is shown as, apart from its sign: read back as the number if it
                       is positional, and otherwise with an exponent;
* `Number.format_of_ofFloat`
                       every finite number other than zero is shown so.
-/

namespace Worksheet

namespace Layout

/-! ## positional notation -/

/-- digits with a point among them are read as a decimal -/
theorem exists_parse? {t whole f : Text} (ht : t = whole ++ f) (hw : ∀ c ∈ whole, c.isDigit = true)
    (hf : Decimal.IsFraction f) (hne : whole ≠ [] ∨ f.drop 1 ≠ []) {n : Nat} {e : Int}
    (hval : (Nat.ofDigitChars 10 (whole ++ f.drop 1) 0 * 10 ^ (-(f.drop 1).length : Int) : ℚ)
      = n * 10 ^ e) :
    (∀ c ∈ t, Decimal.isBody c = true) ∧ ∃ d, Decimal.parse? t = some d ∧ d.negative = false ∧
      (d.digits * 10 ^ d.exp : ℚ) = n * 10 ^ e := by
  refine ⟨fun c hc => Decimal.isBody_of_mem hw hf (ht ▸ hc),
    ⟨false, Nat.ofDigitChars 10 (whole ++ f.drop 1) 0, -(f.drop 1).length⟩, ?_, rfl, hval⟩
  rw [ht, Decimal.parse?_of_digits hw hf hne]

theorem exists_parse?_positional {digits : Text} (hd : ∀ c ∈ digits, c.isDigit = true)
    (hne : digits ≠ []) (lead : Int) :
    (∀ c ∈ positional digits lead, Decimal.isBody c = true) ∧
      ∃ d, Decimal.parse? (positional digits lead) = some d ∧ d.negative = false ∧
        (d.digits * 10 ^ d.exp : ℚ)
          = Nat.ofDigitChars 10 digits 0 * 10 ^ (lead + 1 - digits.length) := by
  have hzero : ∀ k, ∀ c ∈ List.replicate k '0', c.isDigit = true := fun k c hc => by
    rw [List.eq_of_mem_replicate hc]
    rfl
  by_cases hlead : lead < 0
  · -- zeros stand in front of the digits
    have e : positional digits lead
        = ['0'] ++ '.' :: (List.replicate (-lead - 1).toNat '0' ++ digits) := by
      rw [positional, if_pos hlead]
      rfl
    refine exists_parse? e (hzero 1) (.inr ⟨_, rfl, ?_⟩) (.inl (List.cons_ne_nil _ _)) ?_
    · exact fun c hc => (List.mem_append.mp hc).elim (hzero _ c) (hd c)
    · have hlen : (-((List.replicate (-lead - 1).toNat '0' ++ digits).length : Int))
          = lead + 1 - digits.length := by
        rw [List.length_append, List.length_replicate]
        omega
      show (Nat.ofDigitChars 10 (['0'] ++ (List.replicate _ '0' ++ digits)) 0
        * 10 ^ (-((List.replicate (-lead - 1).toNat '0' ++ digits).length : Int)) : ℚ) = _
      rw [hlen, Nat.ofDigitChars_append, Nat.ofDigitChars_append]
      have h0 : Nat.ofDigitChars 10 ['0'] 0 = 0 := rfl
      rw [h0, Nat.ofDigitChars_replicate_zero, Nat.mul_zero]
  · by_cases hlen : digits.length ≤ (lead + 1).toNat
    · have e : positional digits lead
          = digits ++ List.replicate ((lead + 1).toNat - digits.length) '0' ++ [] := by
        rw [List.append_nil, positional, if_neg hlead, if_pos hlen]
      refine exists_parse? e ?_ (.inl rfl) (.inl (List.append_ne_nil_of_left_ne_nil hne _)) ?_
      · exact fun c hc => (List.mem_append.mp hc).elim (hd c) (hzero _ c)
      · have hexp : (lead + 1 - digits.length : Int) = ((lead + 1).toNat - digits.length : Nat) := by
          omega
        rw [hexp, zpow_natCast, List.drop_nil, List.append_nil, Nat.ofDigitChars_append,
          Nat.ofDigitChars_replicate_zero]
        push_cast
        rw [List.length_nil, Nat.cast_zero, neg_zero, zpow_zero, mul_one, mul_comm]
    · have e : positional digits lead
          = digits.take (lead + 1).toNat ++ '.' :: digits.drop (lead + 1).toNat := by
        rw [positional, if_neg hlead, if_neg hlen]
      have hdrop : digits.drop (lead + 1).toNat ≠ [] := by
        rw [ne_eq, List.drop_eq_nil_iff]
        exact hlen
      refine exists_parse? e (fun c hc => hd c (List.mem_of_mem_take hc))
        (.inr ⟨_, rfl, fun c hc => hd c (List.mem_of_mem_drop hc)⟩) (.inr hdrop) ?_
      have hexp : (-((digits.drop (lead + 1).toNat).length : Int)) = lead + 1 - digits.length := by
        rw [List.length_drop]
        omega
      show (Nat.ofDigitChars 10 (digits.take _ ++ digits.drop _) 0
        * 10 ^ (-((digits.drop (lead + 1).toNat).length : Int)) : ℚ) = _
      rw [hexp, List.take_append_drop]

/-! ## scientific notation -/

/-- a mantissa with an `e` behind it, a sign and the digits of an exponent -/
structure Scientific (t mantissa : Text) (s : Char) (digits : Text) : Prop where
  eq : t = mantissa ++ 'e' :: s :: digits
  whole : ∃ whole f, mantissa = whole ++ f ∧ (∀ c ∈ whole, c.isDigit = true) ∧ whole ≠ [] ∧
    Decimal.IsFraction f
  sign : s = '+' ∨ s = '-'
  isDigit : ∀ c ∈ digits, c.isDigit = true
  digits_ne_nil : digits ≠ []

theorem exists_scientific {digits : Text} (hd : ∀ c ∈ digits, c.isDigit = true) (hne : digits ≠ [])
    (lead : Int) : ∃ mantissa s ds, Scientific (scientific digits lead) mantissa s ds := by
  have hmantissa : ∃ mantissa, scientific digits lead
      = mantissa ++ 'e' :: (if lead < 0 then '-' else '+') :: Nat.toDigits 10 lead.natAbs ∧
      ∃ whole f, mantissa = whole ++ f ∧ (∀ c ∈ whole, c.isDigit = true) ∧ whole ≠ [] ∧
        Decimal.IsFraction f := by
    refine ⟨_, rfl, ?_⟩
    split
    · next c d rest =>
      refine ⟨[c], '.' :: d :: rest, rfl, ?_, List.cons_ne_nil _ _, .inr ⟨_, rfl, ?_⟩⟩
      · exact fun x hx => hd x (List.mem_singleton.mp hx ▸ List.mem_cons_self ..)
      · exact fun x hx => hd x (List.mem_cons_of_mem _ hx)
    · exact ⟨digits, [], (List.append_nil _).symm, hd, hne, .inl rfl⟩
  obtain ⟨mantissa, e, hwhole⟩ := hmantissa
  refine ⟨mantissa, _, _, e, hwhole, ?_, fun c hc => Nat.isDigit_of_mem_toDigits (by decide)
    (by decide) hc, Nat.toDigits_ne_nil⟩
  split_ifs
  · exact .inr rfl
  · exact .inl rfl

/-! ## both notations -/

/-- the digits of a number without the zeros at its end -/
theorem exists_digits {n : Nat} (hn : 0 < n) : ∃ digits k,
    ((Nat.toDigits 10 n).reverse.dropWhile (· == '0')).reverse = digits ∧ digits ≠ [] ∧
      (∀ c ∈ digits, c.isDigit = true) ∧ (Nat.toDigits 10 n).length = digits.length + k ∧
      n = Nat.ofDigitChars 10 digits 0 * 10 ^ k := by
  have hsplit : (Nat.toDigits 10 n).rdropWhile (· == '0') ++ (Nat.toDigits 10 n).rtakeWhile (· == '0')
      = Nat.toDigits 10 n := List.rdropWhile_append_rtakeWhile
  have hzeros : (Nat.toDigits 10 n).rtakeWhile (· == '0')
      = List.replicate ((Nat.toDigits 10 n).rtakeWhile (· == '0')).length '0' :=
    List.eq_replicate_iff.mpr ⟨rfl, fun c hc => by
      have h := List.mem_rtakeWhile_imp hc
      exact beq_iff_eq.mp h⟩
  have hval : n = Nat.ofDigitChars 10 ((Nat.toDigits 10 n).rdropWhile (· == '0')) 0
      * 10 ^ ((Nat.toDigits 10 n).rtakeWhile (· == '0')).length := by
    have h := Nat.ofDigitChars_ten_toDigits (n := n)
    rw [← hsplit, hzeros, Nat.ofDigitChars_append, Nat.ofDigitChars_replicate_zero,
      Nat.mul_comm] at h
    exact h.symm
  refine ⟨_, _, rfl, fun hnil => ?_, fun c hc => ?_, ?_, hval⟩
  · have hnil : (Nat.toDigits 10 n).rdropWhile (· == '0') = [] := hnil
    rw [hnil, Nat.ofDigitChars_nil, Nat.zero_mul] at hval
    exact hn.ne' hval
  · refine Nat.isDigit_of_mem_toDigits (b := 10) (n := n) (by decide) (by decide) ?_
    rw [← hsplit]
    exact List.mem_append_left _ hc
  · conv => lhs; rw [← hsplit]
    rw [List.length_append]
    rfl

/-- A number is shown as digits with a point among them, and read back as it is, or with an exponent. -/
theorem render_cases (l : Layout) {n : Nat} (hn : 0 < n) (e : Int) :
    ((∀ c ∈ l.render n e, Decimal.isBody c = true) ∧ ∃ d, Decimal.parse? (l.render n e) = some d ∧
        d.negative = false ∧ (d.digits * 10 ^ d.exp : ℚ) = n * 10 ^ e) ∨
      ∃ mantissa s digits, Scientific (l.render n e) mantissa s digits := by
  obtain ⟨digits, k, hdigits, hne, hd, hlen, hval⟩ := exists_digits hn
  rw [render]
  simp only [hdigits]
  split_ifs
  · left
    obtain ⟨hbody, d, hparse, hneg, hd⟩ :=
      exists_parse?_positional hd hne (e + (Nat.toDigits 10 n).length - 1)
    refine ⟨hbody, d, hparse, hneg, hd.trans ?_⟩
    have hexp : e + ((Nat.toDigits 10 n).length : Int) - 1 + 1 - digits.length = e + (k : Nat) := by
      omega
    rw [hexp, Decimal.ten_zpow_add]
    conv => rhs; rw [hval]
    push_cast
    ring
  · exact .inr (exists_scientific hd hne _)

end Layout

/-! ## numbers -/

namespace Number

/-- what a number is shown as, apart from its sign -/
inductive Shown (mant : Nat) (exp : Int) (hmant : 0 < mant) (t : Text) : Prop where
  | positional (isBody : ∀ c ∈ t, Decimal.isBody c = true)
      (read : ∃ d, Decimal.parse? t = some d ∧ d.toFloat = Binary.double false mant exp hmant)
  | scientific (mantissa : Text) (s : Char) (digits : Text)
      (written : Layout.Scientific t mantissa s digits)

/-- every finite number other than zero is shown positionally, and then read back, or with an exponent -/
theorem format_of_ofFloat {x : Float} {negative : Bool} {mant : Nat} {exp : Int}
    (h : Binary.ofFloat x = .finite negative mant exp) (hmant : 0 < mant) :
    ∃ t, format x = signed negative t ∧ Shown mant exp hmant t := by
  have hc := Binary.canonical_of_ofFloat h hmant
  have hround := shortest_rounds hc
  rw [format, h]
  simp only
  rw [if_neg hmant.ne']
  generalize shortest mant exp = ne at hround
  obtain ⟨n, e⟩ := ne
  have hn : 0 < n := by
    refine Nat.pos_of_ne_zero fun hzero => ?_
    have hlow := (Binary.rounds_bounds hc hround).1
    rw [hzero, Nat.cast_zero, zero_mul] at hlow
    exact absurd hlow (not_le.mpr (zpow_pos (by norm_num) _))
  refine ⟨_, rfl, ?_⟩
  rcases layout.render_cases hn e with ⟨hbody, d, hparse, hneg, hval⟩ | ⟨mantissa, s, digits, hw⟩
  · refine .positional hbody ⟨d, hparse, ?_⟩
    rw [← hval] at hround
    rw [Decimal.toFloat, hneg]
    exact Decimal.magnitude_eq hc hround
  · exact .scientific mantissa s digits hw

end Number

end Worksheet
