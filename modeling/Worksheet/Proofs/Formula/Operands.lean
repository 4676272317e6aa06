import Worksheet.Proofs.Arithmetic.Brackets
import Worksheet.Proofs.Arithmetic.Pieces

/-!
# Operands of an expression

* `Expression.EachPiece` all pieces of a text are read in some way;
* `Expression.tokens_append_of_getLast?`, `Expression.tokens_append_of_head?`
                       texts that meet at an operator are cut into tokens on their own;
* `Expression.Operand` a decimal with a sign in front of it, or without, of which
                       `Expression.Operand.tokens` gives the tokens;
* `Expression.operand_or_mixed`
                       what is read as a decimal is an operand, or has an exponent with a sign: then it
                       is no number as an expression.
-/

namespace Worksheet

theorem trim_surrounded {l r : Text} (hl : ∀ c ∈ l, isBlank c = true)
    (hr : ∀ c ∈ r, isBlank c = true) (t : Text) : Text.trim (l ++ t ++ r) = Text.trim t := by
  obtain ⟨l', r', e, hl', hr'⟩ := exists_blanks t
  have h := trim_append (List.forall_mem_append.mpr ⟨hl, hl'⟩) (List.forall_mem_append.mpr ⟨hr', hr⟩)
    (head?_trim t) (getLast?_trim t)
  rw [← h]
  conv => lhs; rw [e]
  simp only [List.append_assoc]

namespace Expression

/-! ## pieces -/

/-- every piece is read so -/
def EachPiece (P : Option Float → Prop) (t : Text) : Prop := ∀ p ∈ pieces t, P (number? p)

theorem classify_eq_text {t : Text} : classify t = .text ↔ EachPiece (· = none) t := by
  rw [classify]
  obtain ⟨p, ps, hpieces⟩ := List.exists_cons_of_ne_nil (List.splitOnP_ne_nil isOperator t)
  have hmem : p ∈ pieces t := by
    rw [pieces, hpieces]
    exact List.mem_cons_self ..
  split_ifs with hsome hnone
  · refine iff_of_false (fun h => by cases h) fun h => ?_
    have hp := List.all_eq_true.mp hsome p hmem
    rw [h p hmem] at hp
    cases hp
  · exact iff_of_true rfl fun p hp =>
      Option.isNone_iff_eq_none.mp (List.all_eq_true.mp hnone p hp)
  · exact iff_of_false (fun h => by cases h) fun h =>
      hnone (List.all_eq_true.mpr fun p hp => Option.isNone_iff_eq_none.mpr (h p hp))

/-- a text of which some pieces are numbers, and some are not -/
theorem classify_eq_mixed {t p q : Text} (hp : p ∈ pieces t) (hnone : number? p = none)
    (hq : q ∈ pieces t) (hsome : (number? q).isSome = true) : classify t = .mixed := by
  rw [classify, if_neg, if_neg]
  · intro h
    have hn := List.all_eq_true.mp h q hq
    rw [Option.isNone_iff_eq_none.mp hn] at hsome
    cases hsome
  · intro h
    have hs := List.all_eq_true.mp h p hp
    rw [hnone] at hs
    cases hs

theorem not_isOperator_of_isBlank {c : Char} (h : isBlank c = true) : isOperator c = false := by
  refine Bool.eq_false_iff.mpr fun hop => ?_
  rw [not_isBlank_of_isOperator hop] at h
  cases h

/-! ### at an operator -/

section
variable {P : Option Float → Prop} {c : Char} (hc : isOperator c = true) (x y : Text)
include hc

theorem pieces_append_operator : pieces (x ++ c :: y) = pieces x ++ pieces y :=
  List.splitOnP_append_cons _ _ hc

theorem eachPiece_append_operator :
    EachPiece P (x ++ c :: y) ↔ EachPiece P x ∧ EachPiece P y := by
  rw [EachPiece, pieces_append_operator hc, List.forall_mem_append]
  exact Iff.rfl

theorem tokens_append_operator {o : Token} (ho : Token.ofOperator? c = some o) :
    tokens (x ++ c :: y) = tokens x ++ o :: tokens y := by
  induction x using piece_induction with
  | last p hp => rw [tokens_append_cons hp hc y ho, tokens_of_piece hp]
  | cons p d rest hp hd ih =>
    obtain ⟨o', ho'⟩ := exists_ofOperator? hd
    rw [List.append_assoc, List.cons_append, tokens_append_cons hp hd _ ho', ih,
      tokens_append_cons hp hd rest ho', List.append_assoc, List.cons_append]

end

/-! ### blanks at the ends -/

theorem pieceTokens_congr {p q : Text} (h : Text.trim p = Text.trim q) :
    number? p = number? q ∧ pieceTokens p = pieceTokens q := by
  have hnumber : number? p = number? q := by rw [number?, number?, h]
  exact ⟨hnumber, by rw [pieceTokens, pieceTokens, h, hnumber]⟩

section
variable {P : Option Float → Prop} {b : Text} (hb : ∀ c ∈ b, isBlank c = true)
include hb

theorem not_isOperator_blanks_append {p : Text} (hp : ∀ c ∈ p, isOperator c = false) :
    (∀ c ∈ b ++ p, isOperator c = false) ∧ ∀ c ∈ p ++ b, isOperator c = false :=
  have hb' : ∀ c ∈ b, isOperator c = false := fun c hc => not_isOperator_of_isBlank (hb c hc)
  ⟨List.forall_mem_append.mpr ⟨hb', hp⟩, List.forall_mem_append.mpr ⟨hp, hb'⟩⟩

theorem blanks_append (t : Text) :
    tokens (b ++ t) = tokens t ∧ (EachPiece P (b ++ t) ↔ EachPiece P t) := by
  have htrim : ∀ p, Text.trim (b ++ p) = Text.trim p := fun p => by
    have h := trim_surrounded hb (r := []) (fun _ h => absurd h List.not_mem_nil) p
    rwa [List.append_nil] at h
  -- the blanks join the first piece
  induction t using piece_induction with
  | last p hp =>
    have hp' := (not_isOperator_blanks_append hb hp).1
    obtain ⟨hnumber, htokens⟩ := pieceTokens_congr (htrim p)
    rw [tokens_of_piece hp', tokens_of_piece hp, EachPiece, EachPiece, pieces_of_piece hp',
      pieces_of_piece hp, List.forall_mem_singleton, List.forall_mem_singleton, hnumber]
    exact ⟨htokens, Iff.rfl⟩
  | cons p c rest hp hc _ =>
    obtain ⟨o, ho⟩ := exists_ofOperator? hc
    have hp' := (not_isOperator_blanks_append hb hp).1
    obtain ⟨hnumber, htokens⟩ := pieceTokens_congr (htrim p)
    rw [← List.append_assoc, tokens_append_cons hp' hc rest ho, tokens_append_cons hp hc rest ho,
      EachPiece, EachPiece, pieces_append_cons hp' hc, pieces_append_cons hp hc,
      List.forall_mem_cons, List.forall_mem_cons, hnumber, htokens]
    exact ⟨rfl, Iff.rfl⟩

theorem append_blanks (t : Text) :
    tokens (t ++ b) = tokens t ∧ (EachPiece P (t ++ b) ↔ EachPiece P t) := by
  induction t using piece_induction with
  | last p hp =>
    have hp' := (not_isOperator_blanks_append hb hp).2
    obtain ⟨hnumber, htokens⟩ := pieceTokens_congr (trim_surrounded (l := [])
      (fun _ h => absurd h List.not_mem_nil) hb p)
    rw [List.nil_append] at hnumber htokens
    rw [tokens_of_piece hp', tokens_of_piece hp, EachPiece, EachPiece, pieces_of_piece hp',
      pieces_of_piece hp, List.forall_mem_singleton, List.forall_mem_singleton, hnumber]
    exact ⟨htokens, Iff.rfl⟩
  | cons p c rest hp hc ih =>
    obtain ⟨o, ho⟩ := exists_ofOperator? hc
    rw [List.append_assoc, List.cons_append, tokens_append_operator hc _ _ ho,
      tokens_append_operator hc _ _ ho, eachPiece_append_operator hc, eachPiece_append_operator hc,
      ih.1, ih.2]
    exact ⟨rfl, Iff.rfl⟩

theorem tokens_blanks : tokens b = [] := by
  have h := (blanks_append (P := fun _ => True) hb []).1
  rwa [List.append_nil] at h

end

/-! ### texts that meet at an operator -/

theorem eachPiece_nil {P : Option Float → Prop} : EachPiece P [] ↔ P (some 0) := by
  rw [EachPiece, pieces_of_piece fun _ h => absurd h List.not_mem_nil]
  exact List.forall_mem_singleton

section
variable {P : Option Float → Prop} {x : Text} (hx : x.getLast?.all isOperator = true) (y : Text)
include hx

theorem eq_nil_or_concat_operator :
    x = [] ∨ ∃ u c o, x = u ++ c :: [] ∧ isOperator c = true ∧ Token.ofOperator? c = some o := by
  rcases List.eq_nil_or_concat' x with rfl | ⟨u, c, rfl⟩
  · exact .inl rfl
  · rw [List.getLast?_concat] at hx
    obtain ⟨o, ho⟩ := exists_ofOperator? hx
    exact .inr ⟨u, c, o, rfl, hx, ho⟩

theorem tokens_append_of_getLast? : tokens (x ++ y) = tokens x ++ tokens y := by
  rcases eq_nil_or_concat_operator hx with rfl | ⟨u, c, o, rfl, hc, ho⟩
  · rfl
  · rw [List.append_assoc, List.cons_append, tokens_append_operator hc _ _ ho,
      tokens_append_operator hc _ _ ho, List.append_assoc]
    rfl

theorem eachPiece_append_of_getLast? (h : EachPiece P (x ++ y)) : EachPiece P y := by
  rcases eq_nil_or_concat_operator hx with rfl | ⟨u, c, o, rfl, hc, -⟩
  · exact h
  · rw [List.append_assoc, List.cons_append, eachPiece_append_operator hc] at h
    exact h.2

theorem eachPiece_append_of_getLast?_iff (hP : P (some 0)) :
    EachPiece P (x ++ y) ↔ EachPiece P x ∧ EachPiece P y := by
  rcases eq_nil_or_concat_operator hx with rfl | ⟨u, c, o, rfl, hc, -⟩
  · rw [eachPiece_nil, and_iff_right hP]
    exact Iff.rfl
  · rw [List.append_assoc, List.cons_append, eachPiece_append_operator hc,
      eachPiece_append_operator hc, eachPiece_nil, and_iff_left hP]
    exact Iff.rfl

end

section
variable {P : Option Float → Prop} (x : Text) {y : Text} (hy : y.head?.all isOperator = true)
include hy

theorem tokens_append_of_head? : tokens (x ++ y) = tokens x ++ tokens y := by
  cases y with
  | nil => rw [List.append_nil, tokens_blanks fun _ h => absurd h List.not_mem_nil, List.append_nil]
  | cons c y =>
    obtain ⟨o, ho⟩ := exists_ofOperator? hy
    rw [tokens_append_operator hy _ _ ho, ← List.nil_append (c :: y),
      tokens_append_operator hy [] y ho]
    rfl

theorem eachPiece_append_of_head? (h : EachPiece P (x ++ y)) : EachPiece P x := by
  cases y with
  | nil => rwa [List.append_nil] at h
  | cons c y => exact ((eachPiece_append_operator hy x y).mp h).1

theorem eachPiece_append_of_head?_iff (hP : P (some 0)) :
    EachPiece P (x ++ y) ↔ EachPiece P x ∧ EachPiece P y := by
  cases y with
  | nil => rw [List.append_nil, eachPiece_nil, and_iff_left hP]
  | cons c y =>
    have h := eachPiece_append_operator (P := P) hy [] y
    rw [eachPiece_nil, and_iff_right hP] at h
    rw [eachPiece_append_operator hy, ← h]
    exact Iff.rfl

end

/-! ## operands -/

open Grammar (Sign numeral)

/-- the sign as it is written -/
def signText : Option Sign → Text
  | none => []
  | some .plus => ['+']
  | some .minus => ['-']

theorem exists_signText {sgn : Text} (h : Decimal.IsSign sgn) : ∃ σ, sgn = signText σ := by
  obtain rfl | rfl | rfl := h
  · exact ⟨none, rfl⟩
  · exact ⟨some .plus, rfl⟩
  · exact ⟨some .minus, rfl⟩

/-- a decimal of which only the first character may be an operator -/
structure Operand (v : Text) (σ : Option Sign) (u : Text) (d : Decimal) : Prop where
  eq : v = signText σ ++ u
  not_isOperator : ∀ c ∈ u, isOperator c = false
  not_isBlank : ∀ c ∈ u, isBlank c = false
  parse? : Decimal.parse? u = some d

theorem number?_of_not_isBlank {t : Text} (h : ∀ c ∈ t, isBlank c = false) (hne : t ≠ []) :
    number? t = (Decimal.parse? t).map Decimal.toFloat := by
  rw [number?, trim_of_not_isBlank h]
  cases t with
  | nil => exact absurd rfl hne
  | cons c t => rfl

theorem number?_of_parse? {t : Text} (h : ∀ c ∈ t, isBlank c = false) {d : Decimal}
    (hd : Decimal.parse? t = some d) : number? t = some d.toFloat := by
  rw [number?_of_not_isBlank h, hd]
  · rfl
  · rintro rfl
    cases hd

/-- a sign is an operator in front of a blank piece -/
theorem pieces_signText (σ : Option Sign) (u : Text) : (∀ p ∈ pieces u, p ∈ pieces (signText σ ++ u)) ∧
    ∀ p ∈ pieces (signText σ ++ u), p ∈ pieces u ∨ p = [] := by
  have hnil : ∀ c : Char, isOperator c = true → pieces (c :: u) = [] :: pieces u := fun c hc =>
    pieces_append_cons (fun _ h => absurd h List.not_mem_nil) hc u
  have hcons : ∀ c : Char, isOperator c = true → (∀ p ∈ pieces u, p ∈ pieces (c :: u)) ∧
      ∀ p ∈ pieces (c :: u), p ∈ pieces u ∨ p = [] := fun c hc => by
    rw [hnil c hc]
    exact ⟨fun p => List.mem_cons_of_mem _, fun p hp => (List.mem_cons.mp hp).symm⟩
  cases σ with
  | none => exact ⟨fun _ => id, fun _ => .inl⟩
  | some s =>
    cases s with
    | plus => exact hcons '+' rfl
    | minus => exact hcons '-' rfl

namespace Operand
variable {v : Text} {σ : Option Sign} {u : Text} {d : Decimal} (h : Operand v σ u d)
include h

theorem number? : number? u = some d.toFloat := number?_of_parse? h.not_isBlank h.parse?

theorem classify : classify v = .arithmetic := by
  rw [classify_eq_arithmetic, h.eq]
  intro p hp
  rcases (pieces_signText σ u).2 p hp with hp | rfl
  · rw [pieces_of_piece h.not_isOperator, List.mem_singleton] at hp
    rw [hp, h.number?]
    rfl
  · rfl

theorem tokens : tokens v = (numeral σ d.toFloat).tokens := by
  have hne : Text.trim u ≠ [] := by
    rw [trim_of_not_isBlank h.not_isBlank]
    intro e
    have hparse := h.parse?
    rw [e] at hparse
    cases hparse
  have hu : Expression.tokens u = [.number d.toFloat] := by
    rw [tokens_of_piece h.not_isOperator, pieceTokens_of_number? h.number? hne]
  have hcons : ∀ (c : Char) (o : Token), Token.ofOperator? c = some o → isOperator c = true →
      Expression.tokens (c :: u) = [o, .number d.toFloat] := fun c o ho hc => by
    rw [← List.nil_append (c :: u), tokens_append_operator hc _ _ ho, hu]
    rfl
  rw [h.eq]
  cases σ with
  | none => exact hu
  | some s =>
    cases s with
    | plus => exact hcons '+' .plus rfl rfl
    | minus => exact hcons '-' .minus rfl rfl

theorem isBlank_eq_false : ∀ c ∈ v, isBlank c = false := by
  intro c hc
  rw [h.eq] at hc
  rcases List.mem_append.mp hc with hc | hc
  · cases σ with
    | none => cases hc
    | some s => cases s <;> rw [List.mem_singleton.mp hc] <;> rfl
  · exact h.not_isBlank c hc

theorem ne_nil : v ≠ [] := by
  intro e
  rw [h.eq] at e
  have hparse := h.parse?
  rw [(List.append_eq_nil_iff.mp e).2] at hparse
  cases hparse

theorem result? : result? v = some (numeral σ d.toFloat).value := by
  have hparse : Arith.parse? (Expression.tokens v) = some (numeral σ d.toFloat).tree :=
    Arith.parse?_eq_some_iff_derived.mpr ⟨.mk (.mk (numeral σ d.toFloat) .nil) .nil, by
      rw [h.tokens, Grammar.Sum.tokens, Grammar.Product.tokens, Grammar.Factors.tokens,
        Grammar.Terms.tokens, List.append_nil, List.append_nil], rfl⟩
  rw [result?_of_classify h.classify, if_pos (separated_of_not_isBlank h.isBlank_eq_false), hparse,
    ← Grammar.Signed.eval_tree]
  rfl

end Operand

/-! ## decimals -/

theorem not_isOperator_of_isBody {c : Char} (h : Decimal.isBody c = true) : isOperator c = false := by
  refine Bool.eq_false_iff.mpr fun hop => ?_
  obtain ⟨hc, hpoint⟩ := Bool.or_eq_false_iff.mp (not_isBody_of_isOperator hop)
  rw [Decimal.isBody, not_isDigit_of_not_isAlphanum hc, hpoint] at h
  cases h

theorem not_isBlank_of_isBody {c : Char} (h : Decimal.isBody c = true) : isBlank c = false := by
  refine Bool.eq_false_iff.mpr fun hb => ?_
  obtain ⟨hc, hpoint⟩ := Bool.or_eq_false_iff.mp (not_isBody_of_isBlank hb)
  rw [Decimal.isBody, not_isDigit_of_not_isAlphanum hc, hpoint] at h
  cases h

section
variable {whole f : Text} (hw : ∀ c ∈ whole, c.isDigit = true) (hf : Decimal.IsFraction f)
  (hne : whole ≠ [] ∨ f.drop 1 ≠ [])
include hw hf

theorem not_isOperator_and_not_isBlank {c : Char} (hc : c ∈ whole ++ f) :
    isOperator c = false ∧ isBlank c = false :=
  have hbody := Decimal.isBody_of_mem hw hf hc
  ⟨not_isOperator_of_isBody hbody, not_isBlank_of_isBody hbody⟩

include hne

/-- What is left of a number in front of the sign of its exponent is not a number any more, and what is
behind it is one. -/
theorem classify_exponent (σ : Option Sign) {c s : Char} (hc : c = 'e' ∨ c = 'E')
    (hs : s = '+' ∨ s = '-') {digits : Text} (hdigits : digits ≠ [])
    (hd : ∀ c ∈ digits, c.isDigit = true) :
    classify (signText σ ++ (whole ++ (f ++ c :: s :: digits))) = .mixed := by
  have hletter : isOperator c = false ∧ isBlank c = false ∧ Decimal.isBody c = false := by
    rcases hc with rfl | rfl <;> exact ⟨rfl, rfl, rfl⟩
  have hmem : ∀ x ∈ whole ++ (f ++ [c]), isOperator x = false ∧ isBlank x = false := fun x hx => by
    rw [← List.append_assoc] at hx
    rcases List.mem_append.mp hx with hx | hx
    · exact not_isOperator_and_not_isBlank hw hf hx
    · rw [List.mem_singleton.mp hx]
      exact ⟨hletter.1, hletter.2.1⟩
  have hdigit : ∀ x ∈ digits, isOperator x = false ∧ isBlank x = false := fun x hx =>
    have hbody := Decimal.isBody_of_isDigit (hd x hx)
    ⟨not_isOperator_of_isBody hbody, not_isBlank_of_isBody hbody⟩
  have hpieces : pieces (whole ++ (f ++ c :: s :: digits)) = [whole ++ (f ++ [c]), digits] := by
    have hsign : isOperator s = true := by rcases hs with rfl | rfl <;> rfl
    have e : whole ++ (f ++ c :: s :: digits) = (whole ++ (f ++ [c])) ++ s :: digits := by
      simp only [List.append_assoc, List.cons_append, List.nil_append]
    rw [e, pieces_append_cons (fun x hx => (hmem x hx).1) hsign,
      pieces_of_piece fun x hx => (hdigit x hx).1]
  have hnone : number? (whole ++ (f ++ [c])) = none := by
    have hparse : Decimal.parse? (whole ++ (f ++ [c])) = none := by
      rw [Decimal.parse?_append hw hf hne (head?_all_cons.mpr hletter.2.2)]
      rcases hc with rfl | rfl <;> rfl
    rw [number?_of_not_isBlank (fun x hx => (hmem x hx).2) (by simp), hparse]
    rfl
  have hsome : (number? digits).isSome = true := by
    have hparse := Decimal.parse?_of_digits hd (.inl rfl) (.inl hdigits)
    rw [List.append_nil] at hparse
    rw [number?_of_parse? (fun x hx => (hdigit x hx).2) hparse]
    rfl
  have hin := (pieces_signText σ (whole ++ (f ++ c :: s :: digits))).1
  rw [hpieces] at hin
  exact classify_eq_mixed (hin _ (List.mem_cons_self ..)) hnone
    (hin _ (List.mem_cons_of_mem _ (List.mem_singleton_self _))) hsome

end

theorem operand_or_mixed {v : Text} {d : Decimal} (h : Decimal.parse? v = some d) :
    (∃ σ u d, Operand v σ u d) ∨ classify v = .mixed := by
  obtain ⟨sgn, whole, f, rest, e, hsgn, rfl, hw, hf, he, hne⟩ := Decimal.exists_parts h
  obtain ⟨σ, rfl⟩ := exists_signText hsgn
  rcases Decimal.exponent?_cases he with hexp | ⟨c, s, digits, rfl, hc, hs, hdigits, hd⟩
  · left
    have hrest : rest.head?.all (!Decimal.isBody ·) = true := by
      obtain rfl | ⟨c, digits, rfl, rfl | rfl, -⟩ := hexp <;> rfl
    have hmem : ∀ x ∈ rest, isOperator x = false ∧ isBlank x = false := by
      obtain rfl | ⟨c, digits, rfl, hc, -, hdigits⟩ := hexp
      · exact fun x hx => absurd hx List.not_mem_nil
      · refine List.forall_mem_cons.mpr ⟨by rcases hc with rfl | rfl <;> exact ⟨rfl, rfl⟩, ?_⟩
        intro x hx
        have hbody := Decimal.isBody_of_isDigit (hdigits x hx)
        exact ⟨not_isOperator_of_isBody hbody, not_isBlank_of_isBody hbody⟩
    have hall : ∀ x ∈ whole ++ (f ++ rest), isOperator x = false ∧ isBlank x = false := by
      rw [← List.append_assoc]
      exact List.forall_mem_append.mpr ⟨fun x => not_isOperator_and_not_isBlank hw hf, hmem⟩
    have hparse := Decimal.parse?_append hw hf hne hrest
    rw [he] at hparse
    exact ⟨σ, _, _, rfl, fun x hx => (hall x hx).1, fun x hx => (hall x hx).2, hparse⟩
  · exact .inr (classify_exponent hw hf hne σ hc hs hdigits hd)

end Expression

end Worksheet
