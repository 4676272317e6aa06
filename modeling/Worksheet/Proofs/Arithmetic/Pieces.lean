import Worksheet.Formula.Expression
import Worksheet.Proofs.Arithmetic.Parser
import Worksheet.Proofs.Number.Decimal

/-!
# Pieces and tokens

The numbers of an expression are recognised twice: its pieces are read when it is classified, and
its numerals when it is cut into tokens.

* `Expression.tokens`  the tokens that the pieces stand for, with the operators between them;
* `Separated`          no other blanks than those that may stand between tokens;
* `Expression.piece_induction`
                       a text is walked through piece by piece;
* `Expression.tokenize_piece`
                       the tokens of a piece that is a number;
* `Expression.tokenize_of_classify`
                       arithmetic without other blanks is cut into the tokens of its pieces;
* `Expression.tokens_of_arithmetic`
                       and what is invalid is arithmetic with other blanks, or outside of the grammar.
-/

namespace Worksheet

/-! ## operators and blanks -/

theorem isOperator_iff {c : Char} : isOperator c = true ↔ c ∈ "+-*/^()[]".toList := by
  constructor
  · intro h
    unfold isOperator Token.ofOperator? at h
    split at h <;> first | decide | cases h
  · exact List.all_eq_true.mp (by decide : "+-*/^()[]".toList.all isOperator = true) c

theorem exists_ofOperator? {c : Char} (h : isOperator c = true) :
    ∃ o, Token.ofOperator? c = some o :=
  Option.isSome_iff_exists.mp h

theorem not_isBlank_of_isOperator {c : Char} (h : isOperator c = true) : isBlank c = false :=
  Bool.not_eq_true' (isBlank c) ▸ List.all_eq_true.mp
    (by decide : "+-*/^()[]".toList.all (!isBlank ·) = true) c (isOperator_iff.mp h)

theorem not_isBody_of_isOperator {c : Char} (h : isOperator c = true) :
    (c.isAlphanum || c == '.') = false :=
  Bool.not_eq_true' (c.isAlphanum || c == '.') ▸ List.all_eq_true.mp
    (by decide : "+-*/^()[]".toList.all (fun c => !(c.isAlphanum || c == '.')) = true) c
    (isOperator_iff.mp h)

theorem not_isBody_of_isBlank {c : Char} (h : isBlank c = true) :
    (c.isAlphanum || c == '.') = false := by
  rw [not_isAlphanum_of_isBlank h, Bool.false_or]
  exact beq_eq_false_iff_ne.mpr fun e => absurd (e ▸ h) (by decide)

/-- the blanks that may stand between tokens -/
def IsGap (c : Char) : Prop := c = ' ' ∨ c = '\t' ∨ c = '\n' ∨ c = '\r'

instance (c : Char) : Decidable (IsGap c) := inferInstanceAs (Decidable (_ ∨ _))

theorem isBlank_of_isGap {c : Char} (h : IsGap c) : isBlank c = true := by
  rcases h with rfl | rfl | rfl | rfl <;> rfl

/-- no other blanks than those that may stand between tokens -/
def Separated (t : Text) : Prop := ∀ c ∈ t, isBlank c = true → IsGap c

instance (t : Text) : Decidable (Separated t) :=
  List.decidableBAll (fun c => isBlank c = true → IsGap c) t

theorem separated_append {s t : Text} : Separated (s ++ t) ↔ Separated s ∧ Separated t :=
  List.forall_mem_append

theorem separated_cons {c : Char} (hc : isBlank c = false) {t : Text} :
    Separated (c :: t) ↔ Separated t := by
  refine List.forall_mem_cons.trans (and_iff_right fun h => ?_)
  rw [hc] at h
  cases h

theorem separated_of_not_isBlank {t : Text} (h : ∀ c ∈ t, isBlank c = false) : Separated t :=
  fun c hc hb => by
    rw [h c hc] at hb
    cases hb

/-! ## tokens from the left -/

/-- a numeral does not depend on what comes before it -/
theorem stretchesFrom_numeral? (before : Option Char) (t : Text) :
    stretchesFrom numeral? before 0 t = stretches numeral? t := stretchesFrom_congr rfl

theorem stretches_numeral?_cons {c : Char} (hc : (c.isAlphanum || c == '.') = false) (t : Text) :
    stretches numeral? (c :: t) = .plain c :: stretches numeral? t := by
  have hnone : numeral? none (c :: t) = none := by
    refine if_pos (takeWhile_append_of_head? (l := []) (fun _ h => absurd h List.not_mem_nil) ?_)
    refine head?_all_cons.mpr (Bool.or_eq_false_iff.mpr ?_)
    obtain ⟨hc, hpoint⟩ := Bool.or_eq_false_iff.mp hc
    exact ⟨not_isDigit_of_not_isAlphanum hc, hpoint⟩
  rw [stretches, stretchesFrom_plain hnone, stretchesFrom_numeral?]

theorem ofStretch?_plain (c : Char) : Token.ofStretch? (.plain c) =
    if IsGap c then some [] else (Token.ofOperator? c).map fun o => [o] := rfl

theorem tokenize_nil : tokenize [] = some [] := rfl

section
variable {c : Char} (t : Text)

theorem tokenize_cons (hc : (c.isAlphanum || c == '.') = false) : tokenize (c :: t) =
    (Token.ofStretch? (.plain c)).bind fun ts => (tokenize t).map (ts ++ ·) := by
  rw [tokenize, stretches_numeral?_cons hc, List.mapM_cons, tokenize]
  cases Token.ofStretch? (.plain c) with
  | none => rfl
  | some ts => cases (stretches numeral? t).mapM Token.ofStretch? <;> rfl

theorem tokenize_cons_operator {o : Token} (hc : Token.ofOperator? c = some o) :
    tokenize (c :: t) = (tokenize t).map (o :: ·) := by
  have hop : isOperator c = true := by rw [isOperator, hc]; rfl
  have hgap : ¬IsGap c := fun h => by
    have hblank := isBlank_of_isGap h
    rw [not_isBlank_of_isOperator hop] at hblank
    cases hblank
  rw [tokenize_cons t (not_isBody_of_isOperator hop), ofStretch?_plain, if_neg hgap, hc]
  rfl

theorem tokenize_cons_blank (hc : isBlank c = true) :
    tokenize (c :: t) = if IsGap c then tokenize t else none := by
  rw [tokenize_cons t (not_isBody_of_isBlank hc), ofStretch?_plain]
  by_cases hgap : IsGap c
  · rw [if_pos hgap, if_pos hgap]
    cases tokenize t <;> rfl
  · have hop : Token.ofOperator? c = none := by
      refine Option.not_isSome_iff_eq_none.mp fun hop => ?_
      rw [not_isBlank_of_isOperator hop] at hc
      cases hc
    rw [if_neg hgap, if_neg hgap, hop]
    rfl

end

theorem tokenize_blanks {l : Text} (hl : ∀ c ∈ l, isBlank c = true) (t : Text) :
    tokenize (l ++ t) = if Separated l then tokenize t else none := by
  induction l with
  | nil => exact (if_pos fun _ h => absurd h List.not_mem_nil).symm
  | cons c l ih =>
    have hc := hl c (List.mem_cons_self ..)
    have hsep : Separated (c :: l) ↔ IsGap c ∧ Separated l :=
      List.forall_mem_cons.trans (and_congr_left fun _ => forall_prop_of_true hc)
    rw [List.cons_append, tokenize_cons_blank _ hc, ih fun d hd => hl d (List.mem_cons_of_mem _ hd)]
    by_cases hgap : IsGap c
    · simp only [hgap, hsep, true_and, if_true]
    · simp only [hgap, hsep, false_and, if_false]

/-- a decimal without a sign is one token, if neither a letter, a digit nor a point follows -/
theorem tokenize_decimal {t : Text} (hplus : '+' ∉ t) (hminus : '-' ∉ t) {d : Decimal}
    (h : Decimal.parse? t = some d) {rest : Text}
    (hrest : rest.head?.all (fun c => !(c.isAlphanum || c == '.')) = true) :
    tokenize (t ++ rest) = (tokenize rest).map (.number d.toFloat :: ·) := by
  obtain ⟨whole, fraction, exponent, hw⟩ := Decimal.exists_written hplus hminus h
  have hne : t ≠ [] := fun e => by
    rw [e] at h
    cases h
  rw [tokenize, stretches, stretchesFrom_found hne (hw.numeral? none hrest),
    stretchesFrom_numeral?, List.mapM_cons, Token.ofStretch?, h, tokenize]
  show ((stretches numeral? rest).mapM Token.ofStretch? >>= fun tss => _).map _ = _
  cases (stretches numeral? rest).mapM Token.ofStretch? <;> rfl

/-! ## the tokens of a piece -/

namespace Expression

/-- the number of a piece, or nothing for a blank one -/
def pieceTokens (p : Text) : List Token :=
  if Text.trim p = [] then [] else (number? p).toList.map .number

/-- lists with one member between each and the next -/
def interleave {α : Type} : List (List α) → List α → List α
  | [], _ => []
  | p :: _, [] => p
  | p :: ps, o :: os => p ++ o :: interleave ps os

/-- the tokens that the pieces of a text stand for, with the operators between them -/
def tokens (t : Text) : List Token :=
  interleave ((pieces t).map pieceTokens) (t.filterMap Token.ofOperator?)

theorem trim_eq_nil_iff {p : Text} : Text.trim p = [] ↔ ∀ c ∈ p, isBlank c = true := by
  obtain ⟨l, r, e, hl, hr⟩ := exists_blanks p
  constructor
  · intro h c hc
    rw [e, h, List.append_nil, List.mem_append] at hc
    exact hc.elim (hl c) (hr c)
  · intro h
    cases ht : Text.trim p with
    | nil => rfl
    | cons c t =>
      have hc : isBlank c = false := by
        have hhead := head?_trim p
        rw [ht] at hhead
        exact head?_all_cons.mp hhead
      have hm : c ∈ p := by
        rw [e, ht]
        exact List.mem_append_left _ (List.mem_append_right _ (List.mem_cons_self ..))
      rw [h c hm] at hc
      cases hc

theorem number?_of_trim {p : Text} {x : Float} (h : number? p = some x) (hne : Text.trim p ≠ []) :
    ∃ d, Decimal.parse? (Text.trim p) = some d ∧ x = d.toFloat := by
  rw [number?] at h
  split at h
  · next e => exact absurd e hne
  · next c rest e =>
    rw [e]
    obtain ⟨d, hd, hx⟩ := Option.map_eq_some_iff.mp h
    exact ⟨d, hd, hx.symm⟩

theorem pieceTokens_of_number? {p : Text} {x : Float} (h : number? p = some x)
    (hne : Text.trim p ≠ []) : pieceTokens p = [.number x] := by
  rw [pieceTokens, if_neg hne, h]
  rfl

/-- what stands between operators is one token, or none if it is blank -/
theorem tokenize_piece {p : Text} (hp : ∀ c ∈ p, isOperator c = false) {x : Float}
    (h : number? p = some x) (rest : Text) (hrest : rest.head?.all isOperator = true) :
    tokenize (p ++ rest) = if Separated p then (tokenize rest).map (pieceTokens p ++ ·) else none := by
  by_cases hne : Text.trim p = []
  · rw [tokenize_blanks (trim_eq_nil_iff.mp hne), pieceTokens, if_pos hne]
    cases tokenize rest <;> rfl
  obtain ⟨d, hd, rfl⟩ := number?_of_trim h hne
  obtain ⟨l, r, e, hl, hr⟩ := exists_blanks p
  have hmem : ∀ c ∈ Text.trim p, c ∈ p := fun c hc => by
    rw [e]
    exact List.mem_append_left _ (List.mem_append_right _ hc)
  have hno : ∀ c, isOperator c = true → c ∉ Text.trim p := fun c hc hm => by
    rw [hp c (hmem c hm)] at hc
    cases hc
  have hnext : (r ++ rest).head?.all (fun c => !(c.isAlphanum || c == '.')) = true := by
    cases r with
    | cons c r => exact head?_all_cons.mpr (not_isBody_of_isBlank (hr c (List.mem_cons_self ..)))
    | nil =>
      cases rest with
      | nil => rfl
      | cons c rest => exact head?_all_cons.mpr (not_isBody_of_isOperator hrest)
  have hsep : Separated p ↔ Separated l ∧ Separated r := by
    have hcore : Separated (Text.trim p) := by
      obtain ⟨_, _, _, hw⟩ := Decimal.exists_written (hno _ rfl) (hno _ rfl) hd
      refine separated_of_not_isBlank fun c hc => Bool.eq_false_iff.mpr fun hb => ?_
      have hbody := not_isBody_of_isBlank hb
      rcases hw.of_mem hc with halpha | rfl
      · rw [halpha, Bool.true_or] at hbody
        cases hbody
      · cases hbody
    rw [e, separated_append, separated_append]
    exact and_congr_left fun _ => and_iff_left hcore
  have htokens : tokenize (p ++ rest) = tokenize (l ++ (Text.trim p ++ (r ++ rest))) := by
    conv => lhs; rw [e]
    simp only [List.append_assoc]
  rw [htokens, tokenize_blanks hl, tokenize_decimal (hno _ rfl) (hno _ rfl) hd hnext,
    tokenize_blanks hr, pieceTokens_of_number? h hne]
  by_cases hsl : Separated l
  · by_cases hsr : Separated r
    · rw [if_pos hsl, if_pos hsr, if_pos (hsep.mpr ⟨hsl, hsr⟩)]
      rfl
    · rw [if_pos hsl, if_neg hsr, if_neg fun hs => hsr (hsep.mp hs).2]
      rfl
  · rw [if_neg hsl, if_neg fun hs => hsl (hsep.mp hs).1]

/-! ## the tokens of a text -/

/-- a text is walked through piece by piece -/
theorem piece_induction {motive : Text → Prop}
    (last : ∀ p, (∀ c ∈ p, isOperator c = false) → motive p)
    (cons : ∀ p c rest, (∀ c ∈ p, isOperator c = false) → isOperator c = true → motive rest →
      motive (p ++ c :: rest))
    (t : Text) : motive t := by
  generalize hn : t.length = n
  induction n using Nat.strongRecOn generalizing t with
  | _ n ih =>
    have hsplit := List.takeWhile_append_dropWhile (p := (!isOperator ·)) (l := t)
    have hp : ∀ c ∈ t.takeWhile (!isOperator ·), isOperator c = false := fun c hc => by
      have h := List.mem_takeWhile_imp hc
      rwa [Bool.not_eq_true'] at h
    have hhead := head?_dropWhile (!isOperator ·) t
    generalize t.takeWhile (!isOperator ·) = p at hsplit hp
    generalize t.dropWhile (!isOperator ·) = r at hsplit hhead
    subst hsplit
    cases r with
    | nil =>
      rw [List.append_nil]
      exact last p hp
    | cons c rest =>
      rw [List.length_append, List.length_cons] at hn
      have hc : isOperator c = true := by
        have h : (!!isOperator c) = true := hhead
        rwa [Bool.not_not] at h
      exact cons p c rest hp hc (ih rest.length (by omega) rest rfl)

section
variable {p : Text} (hp : ∀ c ∈ p, isOperator c = false)
include hp

theorem pieces_of_piece : pieces p = [p] := List.splitOnP_eq_singleton hp

theorem filterMap_of_piece : p.filterMap Token.ofOperator? = [] :=
  List.filterMap_eq_nil_iff.mpr fun c hc => by
    rw [← Option.not_isSome_iff_eq_none]
    exact Bool.eq_false_iff.mp (hp c hc)

theorem tokens_of_piece : tokens p = pieceTokens p := by
  rw [tokens, pieces_of_piece hp, filterMap_of_piece hp]
  rfl

variable {c : Char} (hc : isOperator c = true) (rest : Text)
include hc

theorem pieces_append_cons : pieces (p ++ c :: rest) = p :: pieces rest := by
  rw [pieces, List.splitOnP_append_cons _ _ hc, List.splitOnP_eq_singleton hp]
  rfl

theorem tokens_append_cons {o : Token} (ho : Token.ofOperator? c = some o) :
    tokens (p ++ c :: rest) = pieceTokens p ++ o :: tokens rest := by
  rw [tokens, pieces_append_cons hp hc, List.filterMap_append, filterMap_of_piece hp,
    List.filterMap_cons, ho]
  rfl

end

theorem classify_eq_arithmetic {t : Text} :
    classify t = .arithmetic ↔ ∀ p ∈ pieces t, (number? p).isSome = true := by
  rw [classify]
  split_ifs with h h'
  · exact iff_of_true rfl (List.all_eq_true.mp h)
  · exact iff_of_false nofun fun h' => h (List.all_eq_true.mpr h')
  · exact iff_of_false nofun fun h' => h (List.all_eq_true.mpr h')

theorem tokenize_of_classify {t : Text} (h : classify t = .arithmetic) :
    tokenize t = if Separated t then some (tokens t) else none := by
  rw [classify_eq_arithmetic] at h
  induction t using piece_induction with
  | last p hp =>
    rw [pieces_of_piece hp, List.forall_mem_singleton] at h
    obtain ⟨x, hx⟩ := Option.isSome_iff_exists.mp h
    have e := tokenize_piece hp hx [] rfl
    rw [List.append_nil] at e
    rw [e, tokens_of_piece hp, tokenize_nil, Option.map_some, List.append_nil]
  | cons p c rest hp hc ih =>
    rw [pieces_append_cons hp hc, List.forall_mem_cons] at h
    obtain ⟨x, hx⟩ := Option.isSome_iff_exists.mp h.1
    obtain ⟨o, ho⟩ := exists_ofOperator? hc
    rw [tokenize_piece hp hx (c :: rest) hc, tokenize_cons_operator rest ho, ih h.2,
      tokens_append_cons hp hc rest ho]
    have hsep : Separated (p ++ c :: rest) ↔ Separated p ∧ Separated rest := by
      rw [separated_append, separated_cons (not_isBlank_of_isOperator hc)]
    by_cases hsp : Separated p
    · by_cases hsr : Separated rest
      · rw [if_pos hsp, if_pos hsr, if_pos (hsep.mpr ⟨hsp, hsr⟩)]
        rfl
      · rw [if_pos hsp, if_neg hsr, if_neg fun hs => hsr (hsep.mp hs).2]
        rfl
    · rw [if_neg hsp, if_neg fun hs => hsp (hsep.mp hs).1]

/-! ## what is invalid -/

theorem arithmetic_eq_invalidExpression {t : Text} :
    arithmetic t = .error .invalidExpression ↔ result? t = none := by
  rw [arithmetic]
  cases result? t with
  | none => exact iff_of_true rfl rfl
  | some x =>
    refine iff_of_false (fun h => ?_) (Option.some_ne_none x)
    dsimp only at h
    split at h <;> cases h

theorem value_eq_invalidExpression {body : Text} : value body = .error .invalidExpression ↔
    Text.trim body ≠ [] ∧ classify (Text.trim body) = .arithmetic ∧
      result? (Text.trim body) = none := by
  rw [value]
  split_ifs with h
  · exact iff_of_false nofun fun h' => h'.1 h
  · rw [and_iff_right h]
    split
    · next hk => rw [and_iff_right hk, arithmetic_eq_invalidExpression]
    · next hk => exact iff_of_false nofun fun h' => nomatch hk.symm.trans h'.1
    · next hk => exact iff_of_false nofun fun h' => nomatch hk.symm.trans h'.1

theorem result?_of_classify {t : Text} (h : classify t = .arithmetic) :
    result? t = if Separated t then (Arith.parse? (tokens t)).map Arith.eval else none := by
  rw [result?, tokenize_of_classify h]
  split_ifs <;> rfl

theorem result?_eq_none {t : Text} (h : classify t = .arithmetic) :
    result? t = none ↔ (Separated t → ¬∃ d : Grammar.Sum, d.tokens = tokens t) := by
  rw [result?_of_classify h]
  split_ifs with hsep
  · rw [Option.map_eq_none_iff, Option.eq_none_iff_forall_ne_some, forall_prop_of_true hsep]
    simp only [ne_eq, Arith.parse?_eq_some_iff_derived]
    exact ⟨fun h ⟨d, hd⟩ => h _ ⟨d, hd, rfl⟩, fun h a ⟨d, hd, _⟩ => h ⟨d, hd⟩⟩
  · exact iff_of_true rfl fun hs => absurd hs hsep

/-- Arithmetic is cut into the tokens of its pieces, unless there are blanks between them that may not
stand there.  What is invalid is arithmetic with such blanks, or outside of the grammar. -/
theorem tokens_of_arithmetic (body : Text) :
    (classify (Text.trim body) = .arithmetic → tokenize (Text.trim body)
      = if Separated (Text.trim body) then some (tokens (Text.trim body)) else none) ∧
    (value body = .error .invalidExpression ↔
      Text.trim body ≠ [] ∧ classify (Text.trim body) = .arithmetic ∧
        (Separated (Text.trim body) → ¬∃ d : Grammar.Sum, d.tokens = tokens (Text.trim body))) := by
  refine ⟨tokenize_of_classify, value_eq_invalidExpression.trans ?_⟩
  exact and_congr_right fun _ => and_congr_right fun h => result?_eq_none h

/-- a line may end between the two terms of a sum -/
theorem tokens_of_arithmetic_lines : ∃ body : Text, body = " 1 +
2".toList ∧
    classify (Text.trim body) = .arithmetic ∧
      tokenize (Text.trim body) = some [.number 1, .plus, .number 2] := by
  have h : classify (Text.trim " 1 +
2".toList) = .arithmetic := by decide +kernel
  refine ⟨_, rfl, h, ((tokens_of_arithmetic _).1 h).trans ?_⟩
  decide +kernel

/-- a blank that is not one of the four stands between the terms of a sum -/
theorem not_tokens_of_arithmetic : ∃ body : Text, Text.trim body ≠ [] ∧
    classify (Text.trim body) = .arithmetic ∧ tokenize (Text.trim body) = none ∧
    value body = .error .invalidExpression ∧
      ∃ d : Grammar.Sum, d.tokens = tokens (Text.trim body) := by
  refine ⟨"1+\u00a02".toList, by decide +kernel, by decide +kernel, by decide +kernel,
    by decide +kernel, .mk (.mk (.unsigned (.atom (.number 1))) .nil)
      (.cons .plus (.mk (.unsigned (.atom (.number 2))) .nil) .nil), ?_⟩
  decide +kernel

end Expression

end Worksheet
