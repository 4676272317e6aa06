import Worksheet.Proofs.Formula.Operands
import Worksheet.Proofs.Formula.Splice
import Worksheet.Proofs.Number.Display

/-!
# Formulas of one call

The total of a call is written into the formula, and the formula is then read again.

* `Function.total?`    the sum or the mean of values, if they are numbers;
* `Number.Finite`      neither infinite nor undefined;
* `Expression.value_format`
                       what a number comes to when it is read again: itself, rounded to three places,
                       unless it is shown with an exponent, of which the sign is taken for an operator;
* `evaluate_total`     what a formula of one call of a sum or a mean shows.
-/

namespace Worksheet

/-- the sum or the mean of values, if they are numbers -/
def Function.total? : Function → List Text → Option Float
  | .ref, _ => none
  | .sum, vs => sum? vs
  | .avg, vs => (sum? vs).map (· / Float.ofNat vs.length)

theorem Function.apply_of_total? {f : Function} {vs : List Text} {v : Float}
    (h : f.total? vs = some v) : f.apply vs = .ok (some (Number.format v)) := by
  cases f with
  | ref => cases h
  | sum =>
    have hsum : sum? vs = some v := h
    rw [apply, hsum]
  | avg =>
    obtain ⟨x, hx, rfl⟩ := Option.map_eq_some_iff.mp h
    rw [apply, hx]

theorem Call.result_of_total? {c : Call} {s : Snapshot} {f : Function} (hf : c.function? = some f)
    {v : Float} (hv : f.total? (c.values s) = some v) : c.result s = .ok (Number.format v) := by
  rw [result_of_function? hf, Function.apply_of_total? hv]
  rfl

/-- neither infinite nor undefined -/
def Number.Finite (x : Float) : Prop :=
  ∃ negative mant exp, Binary.ofFloat x = .finite negative mant exp

instance (x : Float) : Decidable (Number.Finite x) :=
  match h : Binary.ofFloat x with
  | .finite negative mant exp => .isTrue ⟨negative, mant, exp, h⟩
  | .infinite _ => .isFalse fun ⟨_, _, _, h'⟩ => nomatch h.symm.trans h'
  | .nan => .isFalse fun ⟨_, _, _, h'⟩ => nomatch h.symm.trans h'

namespace Expression

open Grammar (numeral)

/-! ## numbers as they are shown -/

theorem mem_signed {negative : Bool} {t : Text} {c : Char} (hc : c ≠ '-') :
    c ∈ Number.signed negative t ↔ c ∈ t := by
  cases negative with
  | false => exact Iff.rfl
  | true => exact List.mem_cons.trans (or_iff_right hc)

theorem signed_eq (negative : Bool) (t : Text) :
    Number.signed negative t = signText (if negative then some .minus else none) ++ t := by
  cases negative <;> rfl

theorem operand_signed {t : Text} (hbody : ∀ c ∈ t, Decimal.isBody c = true) {d : Decimal}
    (hd : Decimal.parse? t = some d) (negative : Bool) :
    Operand (Number.signed negative t) (if negative then some .minus else none) t d where
  eq := signed_eq negative t
  not_isOperator c hc := not_isOperator_of_isBody (hbody c hc)
  not_isBlank c hc := not_isBlank_of_isBody (hbody c hc)
  parse? := hd

section
variable {t mantissa : Text} {s : Char} {digits : Text} (h : Layout.Scientific t mantissa s digits)
include h

theorem not_isBlank_of_scientific : ∀ c ∈ t, isBlank c = false := by
  obtain ⟨whole, f, rfl, hw, _, hf⟩ := h.whole
  intro c hc
  rw [h.eq] at hc
  rcases List.mem_append.mp hc with hc | hc
  · exact (not_isOperator_and_not_isBlank hw hf hc).2
  rcases List.mem_cons.mp hc with rfl | hc
  · rfl
  rcases List.mem_cons.mp hc with rfl | hc
  · rcases h.sign with rfl | rfl <;> rfl
  · exact not_isBlank_of_isBody (Decimal.isBody_of_isDigit (h.isDigit c hc))

theorem classify_scientific (negative : Bool) : classify (Number.signed negative t) = .mixed := by
  obtain ⟨whole, f, rfl, hw, hne, hf⟩ := h.whole
  rw [signed_eq, h.eq, List.append_assoc]
  exact classify_exponent hw hf (.inl hne) _ (.inl rfl) h.sign h.digits_ne_nil h.isDigit

end

/-- A finite number other than zero is shown as an operand that is worth as much, or with an exponent,
and then it is no number as an expression. -/
theorem format_cases {x : Float} {negative : Bool} {mant : Nat} {exp : Int}
    (hparts : Binary.ofFloat x = .finite negative mant exp) (hmant : 0 < mant) :
    (∃ σ u d, Operand (Number.format x) σ u d ∧ (numeral σ d.toFloat).value = x ∧
      'e' ∉ Number.format x) ∨
    (classify (Number.format x) = .mixed ∧ 'e' ∈ Number.format x ∧
      ∀ c ∈ Number.format x, isBlank c = false) := by
  obtain ⟨t, ht, hshown⟩ := Number.format_of_ofFloat hparts hmant
  rw [ht, mem_signed (by decide)]
  cases hshown with
  | positional hbody hread =>
    obtain ⟨d, hd, hdouble⟩ := hread
    refine .inl ⟨_, t, d, operand_signed hbody hd negative, ?_,
      fun hm => absurd (hbody _ hm) (by decide)⟩
    rw [Binary.eq_double hparts hmant, hdouble]
    cases negative with
    | false => rfl
    | true => exact Binary.neg_double (Binary.canonical_of_ofFloat hparts hmant)
  | scientific mantissa s digits hw =>
    refine .inr ⟨classify_scientific hw negative, ?_, fun c hc => ?_⟩
    · rw [hw.eq]
      exact List.mem_append_right _ (List.mem_cons_self ..)
    · by_cases hminus : c = '-'
      · rw [hminus]
        rfl
      · exact not_isBlank_of_scientific hw c ((mem_signed hminus).mp hc)

/-! ## what a number comes to when it is read again -/

theorem arithmetic_of_result? {t : Text} {x : Float} (h : result? t = some x)
    (hfin : Number.Finite (Number.thousandths x)) :
    arithmetic t = .ok (Number.format (Number.thousandths x)) := by
  obtain ⟨negative, mant, exp, hparts⟩ := hfin
  rw [arithmetic, h]
  simp only [hparts]

theorem value_of_trim {body t : Text} (h : Text.trim body = t) (hne : t ≠ []) :
    value body = match classify t with
      | .arithmetic => arithmetic t
      | .text => .ok (concatenate t)
      | .mixed => .error .typeMismatch := by
  rw [value, h]
  exact if_neg hne

/-- A number that is written into an expression is read again as itself, unless it has an exponent. -/
theorem value_format {x : Float} (hx : Number.Finite x)
    (hfin : Number.Finite (Number.thousandths x)) :
    value (Number.format x) = if 'e' ∈ Number.format x then .error .typeMismatch
      else .ok (Number.format (Number.thousandths x)) := by
  obtain ⟨negative, mant, exp, hparts⟩ := hx
  rcases Nat.eq_zero_or_pos mant with rfl | hmant
  · obtain ⟨s, hs⟩ := Binary.isZero_of_ofFloat hparts
    have e : x = .ofModel (.pack (.zero s)) :=
      congrArg Float.ofModel ((Number.pack_unpack x.toModel).symm.trans (congrArg _ hs))
    rw [e]
    cases s <;> decide +kernel
  rcases format_cases hparts hmant with ⟨σ, u, d, hop, hval, hno⟩ | ⟨hk, hmem, hblank⟩
  · rw [if_neg hno, value_of_trim (trim_of_not_isBlank hop.isBlank_eq_false) hop.ne_nil, hop.classify]
    exact arithmetic_of_result? (hval ▸ hop.result?) hfin
  · rw [if_pos hmem, value_of_trim (trim_of_not_isBlank hblank) (List.ne_nil_of_mem hmem), hk]

end Expression

/-! ## formulas -/

/-- A formula of one sum or mean shows the total, rounded to three places, unless the total has an
exponent. -/
theorem evaluate_total {raw : Text} {s : Snapshot} {c : Call} {f : Function} {v : Float}
    (hscan : Call.scan .lenient (Text.trim raw) = [.plain '=', .found c])
    (hf : c.function? = some f) (hv : f.total? (c.values s) = some v) (hfin : Number.Finite v)
    (hfin' : Number.Finite (Number.thousandths v)) :
    evaluate raw s = if 'e' ∈ Number.format v then Fault.typeMismatch.text
      else Number.format (Number.thousandths v) := by
  have hmap : [Stretch.found c].mapM (replacement s) = .ok [Number.format v] := by
    rw [List.mapM_cons, replacement, Call.result_of_total? hf hv]
    rfl
  rw [evaluate_of_scan (Call.head?_of_scan hscan) hscan, stretchesValue_eq hmap,
    List.flatten_singleton, Expression.value_format hfin hfin']
  split_ifs <;> rfl

/-- the mean of three values, of which one is blank, is rounded upward -/
theorem evaluate_total_mean : ∃ s : Snapshot,
    s = .ofList [(⟨0, 0⟩, " 1e-1 ".toList), (⟨1, 0⟩, "-0.2".toList), (⟨2, 0⟩, [])] ∧
      evaluate "=AVG(A1:A3)".toList s = "-0.033".toList := by
  refine ⟨_, rfl, ?_⟩
  generalize hs : Snapshot.ofList [(⟨0, 0⟩, " 1e-1 ".toList), (⟨1, 0⟩, "-0.2".toList),
    (⟨2, 0⟩, [])] = s
  have hv : Function.avg.total? ((Call.mk "AVG".toList "A1:A3".toList).values s)
      = some ((0 + 0.1 + -0.2 + 0) / 3) := by
    rw [← hs]
    decide +kernel
  have hfin : Number.Finite ((0 + 0.1 + -0.2 + 0) / 3) := by decide +kernel
  have hfin' : Number.Finite (Number.thousandths ((0 + 0.1 + -0.2 + 0) / 3)) := by decide +kernel
  refine (evaluate_total (by decide +kernel) rfl hv hfin hfin').trans ?_
  decide +kernel

/-- a sum of one value, which is read back as the number that is shown, and then is not -/
theorem not_evaluate_total : ∃ (raw : Text) (s : Snapshot) (c : Call) (ps : List Position) (v : Float),
    Call.scan .lenient (Text.trim raw) = [.plain '=', .found c] ∧ c.function? = some .sum ∧
      c.positions? = some ps ∧ Function.sum.total? (c.values s) = some v ∧ Number.Finite v ∧
      Number.Finite (Number.thousandths v) ∧ evaluate raw s = Fault.typeMismatch.text ∧
      evaluate raw s ≠ Number.format (Number.thousandths v) := by
  refine ⟨"=SUM(A1)".toList, .ofList [(⟨0, 0⟩, "1e21".toList)], ⟨"SUM".toList, "A1".toList⟩,
    [⟨0, 0⟩], 1e21, by decide +kernel, rfl, by decide +kernel, by decide +kernel,
    by decide +kernel, by decide +kernel, by decide +kernel, by decide +kernel⟩

end Worksheet
