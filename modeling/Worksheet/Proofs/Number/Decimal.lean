import Worksheet.Arithmetic.Token
import Worksheet.Proofs.Formula.Word

/-!
# How decimals are written

* `Decimal.Written`    a decimal without a sign, in three parts: the digits before the point, the point
                       with the digits after it, and the exponent;
* `Decimal.exists_parts`
                       the parts of what is read as a decimal, signs among them;
* `Decimal.exists_written`
                       without signs in it, it is written so;
* `Decimal.Written.numeral?`
                       it is one numeral, if what comes next does not go on with it;
* `Decimal.parse?_append`
                       the decimal that digits with a point among them stand for, with or without an
                       exponent.
-/

namespace Worksheet

namespace Decimal

/-! ## signs -/

theorem sign_of_head? {t : Text} (h : t.head?.all (fun c => !(c == '+' || c == '-')) = true) :
    sign t = (false, t) := by
  cases t with
  | nil => rfl
  | cons c t =>
    have hc := head?_all_cons.mp h
    simp only [Bool.or_eq_false_iff, beq_eq_false_iff_ne] at hc
    unfold sign
    split
    · next e => exact absurd (List.cons.inj e).1 hc.2
    · next e => exact absurd (List.cons.inj e).1 hc.1
    · rfl

/-- a sign, or nothing -/
def IsSign (t : Text) : Prop := t = [] ∨ t = ['+'] ∨ t = ['-']

theorem exists_sign (t : Text) :
    ∃ sgn negative u, IsSign sgn ∧ sign t = (negative, u) ∧ t = sgn ++ u := by
  unfold sign
  split
  · exact ⟨['-'], true, _, .inr (.inr rfl), rfl, rfl⟩
  · exact ⟨['+'], false, _, .inr (.inl rfl), rfl, rfl⟩
  · exact ⟨[], false, _, .inl rfl, rfl, rfl⟩

/-! ## the parts of a decimal -/

/-- a point and the digits after it, or nothing -/
def IsFraction (t : Text) : Prop :=
  t = [] ∨ ∃ places, t = '.' :: places ∧ ∀ c ∈ places, c.isDigit = true

/-- an `e` and the digits after it, or nothing -/
def IsExponent (t : Text) : Prop :=
  t = [] ∨ ∃ c digits, t = c :: digits ∧ (c = 'e' ∨ c = 'E') ∧ digits ≠ [] ∧
    ∀ d ∈ digits, d.isDigit = true

/-- one digit at least stands before the exponent -/
structure Written (t whole fraction exponent : Text) : Prop where
  eq : t = whole ++ (fraction ++ exponent)
  isDigit : ∀ c ∈ whole, c.isDigit = true
  isFraction : IsFraction fraction
  isExponent : IsExponent exponent
  some_digit : whole ≠ [] ∨ fraction.drop 1 ≠ []

/-- what may follow a point or a digit in a numeral -/
def isBody (c : Char) : Bool := c.isDigit || c == '.'

theorem isBody_of_isDigit {c : Char} (h : c.isDigit = true) : isBody c = true := by
  rw [isBody, h, Bool.true_or]

theorem isBody_of_isFraction {t : Text} (h : IsFraction t) : ∀ c ∈ t, isBody c = true := by
  obtain rfl | ⟨places, rfl, hplaces⟩ := h
  · exact fun c hc => absurd hc List.not_mem_nil
  · intro c hc
    rcases List.mem_cons.mp hc with rfl | hc
    · rfl
    · exact isBody_of_isDigit (hplaces c hc)

theorem isBody_of_mem {whole f : Text} (hw : ∀ c ∈ whole, c.isDigit = true) (hf : IsFraction f)
    {c : Char} (hc : c ∈ whole ++ f) : isBody c = true :=
  (List.mem_append.mp hc).elim (fun hc => isBody_of_isDigit (hw c hc))
    (isBody_of_isFraction hf c)

theorem head?_all_of_imp {p q : Char → Bool} (hpq : ∀ c, q c = true → p c = true) {t : Text}
    (h : t.head?.all (!p ·) = true) : t.head?.all (!q ·) = true := by
  cases t with
  | nil => rfl
  | cons c t =>
    refine head?_all_cons.mpr (Bool.eq_false_iff.mpr fun hq => ?_)
    exact Bool.eq_false_iff.mp (head?_all_cons.mp h) (hpq c hq)

theorem exists_fraction (t : Text) (ht : t.head?.all (!Char.isDigit ·) = true) :
    ∃ f, IsFraction f ∧ t = f ++ (fraction t).2 ∧ (fraction t).1 = f.drop 1 := by
  unfold fraction
  split
  · next rest =>
    refine ⟨'.' :: rest.takeWhile Char.isDigit, .inr ⟨_, rfl, fun _ => List.mem_takeWhile_imp⟩,
      ?_, rfl⟩
    rw [List.cons_append, List.takeWhile_append_dropWhile]
  · exact ⟨[], .inl rfl, rfl, rfl⟩

theorem fraction_append {f rest : Text} (h : IsFraction f)
    (hrest : rest.head?.all (!isBody ·) = true) : fraction (f ++ rest) = (f.drop 1, rest) := by
  obtain rfl | ⟨places, rfl, hplaces⟩ := h
  · rw [List.nil_append]
    unfold fraction
    split
    · cases head?_all_cons.mp hrest
    · rfl
  · have hdigit : rest.head?.all (!Char.isDigit ·) = true :=
      head?_all_of_imp (fun _ => isBody_of_isDigit) hrest
    show ((places ++ rest).takeWhile Char.isDigit, (places ++ rest).dropWhile Char.isDigit) = _
    rw [takeWhile_append_of_head? hplaces hdigit, dropWhile_append_of_head? hplaces hdigit]
    rfl

/-- an exponent has a sign in front of its digits, or none -/
theorem exponent?_cases {t : Text} {e : Int} (h : exponent? t = some e) : IsExponent t ∨
    ∃ c s digits, t = c :: s :: digits ∧ (c = 'e' ∨ c = 'E') ∧ (s = '+' ∨ s = '-') ∧ digits ≠ [] ∧
      ∀ d ∈ digits, d.isDigit = true := by
  cases t with
  | nil => exact .inl (.inl rfl)
  | cons c t =>
    obtain ⟨sgn, negative, digits, hsgn, hsign, rfl⟩ := exists_sign t
    rw [exponent?, hsign] at h
    obtain ⟨⟨hc, hne, hall⟩, _⟩ := Option.ite_none_right_eq_some.mp h
    have hall := List.all_eq_true.mp hall
    obtain rfl | rfl | rfl := hsgn
    · exact .inl (.inr ⟨c, digits, rfl, hc, hne, hall⟩)
    · exact .inr ⟨c, '+', digits, rfl, hc, .inl rfl, hne, hall⟩
    · exact .inr ⟨c, '-', digits, rfl, hc, .inr rfl, hne, hall⟩

/-- the parts of what is read as a decimal, of which the last is an exponent -/
theorem exists_parts {t : Text} {d : Decimal} (h : parse? t = some d) :
    ∃ sgn whole f rest e, IsSign sgn ∧ t = sgn ++ (whole ++ (f ++ rest)) ∧
      (∀ c ∈ whole, c.isDigit = true) ∧ IsFraction f ∧ exponent? rest = some e ∧
        (whole ≠ [] ∨ f.drop 1 ≠ []) := by
  obtain ⟨sgn, negative, u, hsgn, hsign, rfl⟩ := exists_sign t
  have hsplit := List.takeWhile_append_dropWhile (p := Char.isDigit) (l := u)
  obtain ⟨f, hf, hrest, hplaces⟩ := exists_fraction _ (head?_dropWhile Char.isDigit u)
  rw [parse?, hsign] at h
  obtain ⟨hne, h⟩ := Option.ite_none_left_eq_some.mp h
  obtain ⟨e, he, _⟩ := Option.map_eq_some_iff.mp h
  refine ⟨sgn, u.takeWhile Char.isDigit, f, (fraction (u.dropWhile Char.isDigit)).2, e, hsgn, ?_,
    fun _ => List.mem_takeWhile_imp, hf, he, ?_⟩
  · rw [← hrest, hsplit]
  · rw [← hplaces]
    exact not_and_or.mp hne

theorem exists_written {t : Text} (hplus : '+' ∉ t) (hminus : '-' ∉ t) {d : Decimal}
    (h : parse? t = some d) : ∃ whole fraction exponent, Written t whole fraction exponent := by
  obtain ⟨sgn, whole, f, rest, e, hsgn, rfl, hw, hf, he, hne⟩ := exists_parts h
  have hsigns : ∀ s, s = '+' ∨ s = '-' → s ∉ sgn ++ (whole ++ (f ++ rest)) := by
    rintro s (rfl | rfl)
    · exact hplus
    · exact hminus
  have hnil : sgn = [] := by
    obtain rfl | rfl | rfl := hsgn
    · rfl
    · exact absurd (List.mem_cons_self ..) hplus
    · exact absurd (List.mem_cons_self ..) hminus
  subst hnil
  refine ⟨whole, f, rest, rfl, hw, hf, (exponent?_cases he).resolve_right ?_, hne⟩
  rintro ⟨c, s, digits, rfl, -, hs, -⟩
  exact hsigns s hs (List.mem_append_right _ (List.mem_append_right _ (by simp)))

/-- the characters of what is read as a decimal -/
theorem of_mem_parse? {t : Text} {d : Decimal} (h : parse? t = some d) {c : Char} (hc : c ∈ t) :
    c.isDigit = true ∨ c ∈ "+-.eE".toList := by
  obtain ⟨sgn, whole, f, rest, e, hsgn, rfl, hw, hf, he, -⟩ := exists_parts h
  simp only [List.mem_append] at hc
  rcases hc with hc | hc | hc | hc
  · right
    obtain rfl | rfl | rfl := hsgn
    · cases hc
    · exact List.mem_singleton.mp hc ▸ by decide
    · exact List.mem_singleton.mp hc ▸ by decide
  · exact .inl (hw c hc)
  · rcases Bool.or_eq_true_iff.mp (isBody_of_isFraction hf c hc) with hd | hpoint
    · exact .inl hd
    · exact .inr (beq_iff_eq.mp hpoint ▸ by decide)
  · rcases exponent?_cases he with (rfl | ⟨x, digits, rfl, hx, -, hdigits⟩)
        | ⟨x, s, digits, rfl, hx, hs, -, hdigits⟩
    · cases hc
    · rcases List.mem_cons.mp hc with rfl | hc
      · exact .inr (by rcases hx with rfl | rfl <;> decide)
      · exact .inl (hdigits c hc)
    · rcases List.mem_cons.mp hc with rfl | hc
      · exact .inr (by rcases hx with rfl | rfl <;> decide)
      rcases List.mem_cons.mp hc with rfl | hc
      · exact .inr (by rcases hs with rfl | rfl <;> decide)
      · exact .inl (hdigits c hc)

theorem numeral?_eq (before : Option Char) (t : Text) : numeral? before t =
    let body := t.takeWhile isBody
    if body = [] then none
    else
      let lexeme := body ++ numeralTail (t.dropWhile isBody)
      some (lexeme, lexeme.length) := rfl

namespace Written
variable {t whole fraction exponent : Text} (h : Written t whole fraction exponent)
include h

/-- a numeral consists of digits, points and letters -/
theorem of_mem {c : Char} (hc : c ∈ t) : c.isAlphanum = true ∨ c = '.' := by
  have hdigit : ∀ {c : Char}, c.isDigit = true → c.isAlphanum = true := fun hd =>
    Bool.or_eq_true_iff.mpr (.inr hd)
  rw [h.eq, ← List.append_assoc, List.mem_append] at hc
  rcases hc with hc | hc
  · rcases Bool.or_eq_true_iff.mp (isBody_of_mem h.isDigit h.isFraction hc) with hd | hpoint
    · exact .inl (hdigit hd)
    · exact .inr (beq_iff_eq.mp hpoint)
  · obtain rfl | ⟨e, digits, rfl, he, _, hdigits⟩ := h.isExponent
    · exact absurd hc List.not_mem_nil
    · rcases List.mem_cons.mp hc with rfl | hc
      · rcases he with rfl | rfl <;> exact .inl rfl
      · exact .inl (hdigit (hdigits c hc))

theorem ne_nil : whole ++ fraction ≠ [] := by
  rcases h.some_digit with hw | hf
  · exact List.append_ne_nil_of_left_ne_nil hw _
  · exact List.append_ne_nil_of_right_ne_nil _ fun e => hf (by rw [e]; rfl)

/-- Letters and digits would go on with a numeral, and so would a point. -/
theorem numeral? (before : Option Char) {rest : Text}
    (hrest : rest.head?.all (fun c => !(c.isAlphanum || c == '.')) = true) :
    numeral? before (t ++ rest) = some (t, t.length) := by
  have hbody : rest.head?.all (!isBody ·) = true := head?_all_of_imp (fun c hc => by
    rcases Bool.or_eq_true_iff.mp hc with hd | hpoint
    · rw [Char.isAlphanum, hd, Bool.or_true, Bool.true_or]
    · rw [hpoint, Bool.or_true]) hrest
  have hdigit : rest.head?.all (!Char.isDigit ·) = true :=
    head?_all_of_imp (fun _ => isBody_of_isDigit) hbody
  have hhead : (exponent ++ rest).head?.all (!isBody ·) = true := by
    obtain rfl | ⟨e, digits, rfl, rfl | rfl, _⟩ := h.isExponent
    · exact hbody
    · rfl
    · rfl
  have htail : numeralTail (exponent ++ rest) = exponent := by
    obtain rfl | ⟨e, digits, rfl, he, hne, hdigits⟩ := h.isExponent
    · cases rest with
      | nil => rfl
      | cons c rest =>
        refine if_neg fun hc => ?_
        have hc' := head?_all_cons.mp hrest
        rcases hc.1 with rfl | rfl <;> cases hc'
    · rw [List.cons_append, numeralTail, takeWhile_append_of_head? hdigits hdigit]
      exact if_pos ⟨he, hne⟩
  have hmem : ∀ c ∈ whole ++ fraction, isBody c = true := fun c =>
    isBody_of_mem h.isDigit h.isFraction
  have e : t ++ rest = (whole ++ fraction) ++ (exponent ++ rest) := by
    rw [h.eq]
    simp only [List.append_assoc]
  have htake : (t ++ rest).takeWhile isBody = whole ++ fraction := by
    rw [e, takeWhile_append_of_head? hmem hhead]
  have hdrop : (t ++ rest).dropWhile isBody = exponent ++ rest := by
    rw [e, dropWhile_append_of_head? hmem hhead]
  rw [numeral?_eq, htake, hdrop, htail, if_neg h.ne_nil, List.append_assoc, ← h.eq]

end Written

/-- digits with a point among them, and what is behind them if that does not go on with them -/
theorem parse?_append {whole f rest : Text} (hw : ∀ c ∈ whole, c.isDigit = true) (hf : IsFraction f)
    (hne : whole ≠ [] ∨ f.drop 1 ≠ []) (hrest : rest.head?.all (!isBody ·) = true) :
    parse? (whole ++ (f ++ rest)) = (exponent? rest).map fun e =>
      ⟨false, Nat.ofDigitChars 10 (whole ++ f.drop 1) 0, e - (f.drop 1).length⟩ := by
  have hhead : (f ++ rest).head?.all (!Char.isDigit ·) = true := by
    obtain rfl | ⟨places, rfl, _⟩ := hf
    · exact head?_all_of_imp (fun _ => isBody_of_isDigit) hrest
    · rfl
  have hsign : sign (whole ++ (f ++ rest)) = (false, whole ++ (f ++ rest)) := by
    refine sign_of_head? ?_
    cases whole with
    | nil =>
      obtain rfl | ⟨places, rfl, _⟩ := hf
      · exact absurd rfl (hne.resolve_left fun h => h rfl)
      · rfl
    | cons c whole =>
      refine head?_all_cons.mpr (Bool.or_eq_false_iff.mpr ⟨?_, ?_⟩)
      · exact beq_eq_false_iff_ne.mpr fun e => absurd (e ▸ hw c (List.mem_cons_self ..)) (by decide)
      · exact beq_eq_false_iff_ne.mpr fun e => absurd (e ▸ hw c (List.mem_cons_self ..)) (by decide)
  rw [parse?, hsign]
  simp only [takeWhile_append_of_head? hw hhead, dropWhile_append_of_head? hw hhead,
    fraction_append hf hrest]
  rw [if_neg (not_and_or.mpr hne)]

/-- digits with a point among them, and nothing behind them -/
theorem parse?_of_digits {whole f : Text} (hw : ∀ c ∈ whole, c.isDigit = true) (hf : IsFraction f)
    (hne : whole ≠ [] ∨ f.drop 1 ≠ []) : parse? (whole ++ f) =
      some ⟨false, Nat.ofDigitChars 10 (whole ++ f.drop 1) 0, -(f.drop 1).length⟩ := by
  have e : parse? (whole ++ (f ++ [])) = _ := parse?_append hw hf hne rfl
  rw [List.append_nil] at e
  exact e.trans (congrArg (fun e => some (Decimal.mk false _ e)) (Int.zero_sub _))

end Decimal

end Worksheet
