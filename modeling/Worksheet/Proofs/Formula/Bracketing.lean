import Worksheet.Proofs.Formula.Totals

/-!
# A call in brackets

The number of a call is written into the formula, and then its digits and its sign meet the characters
next to them.

* `Expression.Apart`   characters next to which a number is an operand of its own;
* `Expression.surround` an expression in which the middle stands between two others, of which
                       `Expression.tokens_surround` gives the tokens;
* `Expression.result?_bracketed`, `Expression.value_bracketed`
                       brackets around an operand that stands apart do not change the result;
* `Expression.NumberText`
                       an operand, or a number whose exponent has a sign, or one that is infinite or
                       undefined: `Expression.numberText_of_parse?` of decimals that are given,
                       `Expression.numberText_format` of numbers that are shown;
* `Call.Numeric`       a call that finds numbers;
* `evaluate_bracketed` brackets around a call whose number stands apart do not change what is shown.
-/

namespace Worksheet

namespace Expression

open Grammar (Sign numeral Stands)

/-! ## what stands next to a number -/

/-- Blanks apart, there are operators on both sides, or nothing; a sign does not follow a closing
bracket, and a minus sign is not in front of a power. -/
structure Apart (before v after : Text) : Prop where
  isOperator_before : (Text.trim before).getLast?.all isOperator = true
  isOperator_after : (Text.trim after).head?.all isOperator = true
  sign : v.head? = some '+' ∨ v.head? = some '-' →
    (Text.trim before).getLast? ≠ some ')' ∧ (Text.trim before).getLast? ≠ some ']'
  power : v.head? = some '-' → (Text.trim after).head? ≠ some '^'

/-- an operator that ends a phrase is a closing bracket -/
theorem close_of_closes {c : Char} {o : Token} (ho : Token.ofOperator? c = some o)
    (h : Grammar.Closes o) : c = ')' ∨ c = ']' := by
  unfold Token.ofOperator? at ho
  split at ho <;> cases ho <;> first | exact .inl rfl | exact .inr rfl | cases h

theorem eq_caret_of_ofOperator? {c : Char} (ho : Token.ofOperator? c = some .caret) : c = '^' := by
  unfold Token.ofOperator? at ho
  split at ho <;> first | rfl | cases ho

section
variable {before v after : Text} {σ : Option Sign} {u : Text} {d : Decimal}

theorem Operand.head?_of_some {s : Sign} (h : Operand v (some s) u d) :
    v.head? = (signText (some s)).head? := by
  rw [h.eq]
  cases s <;> rfl

theorem Apart.stands (h : Apart before v after) (hv : Operand v σ u d) :
    Stands σ (tokens (Text.trim before)) (tokens (Text.trim after)) where
  sign hσ := by
    obtain ⟨s, rfl⟩ := Option.ne_none_iff_exists'.mp hσ
    have hsign : v.head? = some '+' ∨ v.head? = some '-' := by
      rw [hv.head?_of_some]
      cases s
      · exact .inl rfl
      · exact .inr rfl
    obtain ⟨hround, hsquare⟩ := h.sign hsign
    intro hends
    rcases eq_nil_or_concat_operator h.isOperator_before with e | ⟨x, c, o, e, hc, ho⟩
    · rw [e, tokens_blanks fun _ h => absurd h List.not_mem_nil] at hends
      obtain ⟨us, t, e, -⟩ := hends
      exact List.append_ne_nil_of_right_ne_nil us (List.cons_ne_nil t []) e.symm
    · rw [e, tokens_append_operator hc x [] ho,
        tokens_blanks fun _ h => absurd h List.not_mem_nil] at hends
      rw [e, List.getLast?_concat] at hround hsquare
      rcases close_of_closes ho hends.closes with rfl | rfl
      · exact hround rfl
      · exact hsquare rfl
  power hσ := by
    subst hσ
    have hcaret := h.power hv.head?_of_some
    have hafter := h.isOperator_after
    cases e : Text.trim after with
    | nil =>
      rw [tokens_blanks fun _ h => absurd h List.not_mem_nil]
      exact nofun
    | cons c y =>
      rw [e] at hcaret hafter
      obtain ⟨o, ho⟩ := exists_ofOperator? hafter
      have htokens : tokens (c :: y) = o :: tokens y := tokens_append_operator hafter [] y ho
      rw [htokens]
      rintro ⟨⟩
      exact hcaret (congrArg some (eq_caret_of_ofOperator? ho))

end

/-! ## brackets -/

theorem tokens_bracketed (v : Text) : tokens ('(' :: (v ++ [')']))
    = .opening .round :: (tokens v ++ [.closing .round]) := by
  have hopen : tokens ('(' :: (v ++ [')'])) = tokens [] ++ .opening .round :: tokens (v ++ [')']) :=
    tokens_append_operator rfl [] _ rfl
  have hclose : tokens (v ++ [')']) = tokens v ++ .closing .round :: tokens [] :=
    tokens_append_operator rfl v [] rfl
  rw [hopen, hclose]
  rfl

theorem eachPiece_bracketed {P : Option Float → Prop} (v : Text) (hP : P (some 0)) :
    EachPiece P ('(' :: (v ++ [')'])) ↔ EachPiece P v := by
  have hopen := eachPiece_append_operator (P := P) (c := '(') rfl [] (v ++ [')'])
  have hclose := eachPiece_append_operator (P := P) (c := ')') rfl v []
  rw [eachPiece_nil, and_iff_right hP] at hopen
  rw [eachPiece_nil, and_iff_left hP] at hclose
  exact hopen.trans hclose

/-! ## an expression with a middle -/

/-- the blanks at the ends of `m` belong to neither side -/
def surround (x b b' y m : Text) : Text := x ++ (b ++ m ++ b' ++ y)

section
variable {x b b' y : Text} (hx : x.getLast?.all isOperator = true)
  (hy : y.head?.all isOperator = true) (hb : ∀ c ∈ b, isBlank c = true)
  (hb' : ∀ c ∈ b', isBlank c = true) (m : Text)
include hx hy hb hb'

theorem tokens_surround : tokens (surround x b b' y m) = tokens x ++ (tokens m ++ tokens y) := by
  rw [surround, tokens_append_of_getLast? hx, tokens_append_of_head? _ hy,
    (append_blanks (P := fun _ => True) hb' _).1, (blanks_append (P := fun _ => True) hb _).1]

theorem eachPiece_surround {P : Option Float → Prop} (hP : P (some 0)) :
    EachPiece P (surround x b b' y m) ↔ EachPiece P x ∧ EachPiece P m ∧ EachPiece P y := by
  rw [surround, eachPiece_append_of_getLast?_iff hx _ hP, eachPiece_append_of_head?_iff _ hy hP,
    (append_blanks hb' _).2, (blanks_append hb _).2]

/-- the middle is read as the whole is -/
theorem eachPiece_of_surround {P : Option Float → Prop} (h : EachPiece P (surround x b b' y m)) :
    EachPiece P m := by
  have h := eachPiece_append_of_head? _ hy (eachPiece_append_of_getLast? hx _ h)
  rwa [(append_blanks hb' _).2, (blanks_append hb _).2] at h

/-- brackets around an operand do not change the result -/
theorem result?_bracketed {v : Text} {σ : Option Sign} {u : Text} {d : Decimal}
    (hv : Operand v σ u d) (hs : Stands σ (tokens x) (tokens y))
    (hk : classify (surround x b b' y v) = .arithmetic) {r : Float}
    (hr : result? (surround x b b' y v) = some r) :
    classify (surround x b b' y ('(' :: (v ++ [')']))) = .arithmetic ∧
      result? (surround x b b' y ('(' :: (v ++ [')']))) = some r := by
  have hk' : classify (surround x b b' y ('(' :: (v ++ [')']))) = .arithmetic := by
    rw [classify_eq_arithmetic] at hk ⊢
    have h := (eachPiece_surround (P := (·.isSome = true)) hx hy hb hb' v rfl).mp hk
    exact (eachPiece_surround (P := (·.isSome = true)) hx hy hb hb' _ rfl).mpr
      ⟨h.1, (eachPiece_bracketed (P := (·.isSome = true)) v rfl).mpr h.2.1, h.2.2⟩
  have hsep : Separated (surround x b b' y ('(' :: (v ++ [')']))) ↔ Separated (surround x b b' y v) := by
    have hclose : Separated [')'] := separated_of_not_isBlank fun c hc => List.mem_singleton.mp hc ▸ rfl
    simp only [surround, separated_append, separated_cons (c := '(') rfl, and_iff_left hclose]
  rw [result?_of_classify hk, tokens_surround hx hy hb hb', hv.tokens] at hr
  obtain ⟨hseparated, hr⟩ := Option.ite_none_right_eq_some.mp hr
  obtain ⟨a, ha, rfl⟩ := Option.map_eq_some_iff.mp hr
  refine ⟨hk', ?_⟩
  rw [result?_of_classify hk', if_pos (hsep.mpr hseparated), tokens_surround hx hy hb hb',
    tokens_bracketed, hv.tokens, List.cons_append, List.append_assoc]
  exact congrArg (Option.map Arith.eval) (Arith.parse?_enclosed hs ha)

end

/-! ## the blanks next to a number -/

/-- the blanks at the end of a text, if there is something in front of them -/
theorem exists_blanks_behind (t : Text) : ∃ l b, t = l ++ (Text.trim t ++ b) ∧
    (∀ c ∈ l, isBlank c = true) ∧ (∀ c ∈ b, isBlank c = true) ∧ (Text.trim t = [] → b = []) := by
  obtain ⟨l, r, e, hl, hr⟩ := exists_blanks t
  by_cases hnil : Text.trim t = []
  · rw [hnil, List.append_nil] at e
    exact ⟨t, [], by rw [hnil, List.append_nil, List.append_nil],
      e ▸ List.forall_mem_append.mpr ⟨hl, hr⟩, fun _ h => absurd h List.not_mem_nil, fun _ => rfl⟩
  · exact ⟨l, r, by rw [← List.append_assoc, ← e], hl, hr, fun h => absurd h hnil⟩

theorem exists_blanks_ahead (t : Text) : ∃ b r, t = b ++ Text.trim t ++ r ∧
    (∀ c ∈ b, isBlank c = true) ∧ (∀ c ∈ r, isBlank c = true) ∧ (Text.trim t = [] → b = []) := by
  obtain ⟨l, r, e, hl, hr⟩ := exists_blanks t
  by_cases hnil : Text.trim t = []
  · rw [hnil, List.append_nil] at e
    exact ⟨[], t, by rw [hnil]; rfl, fun _ h => absurd h List.not_mem_nil,
      e ▸ List.forall_mem_append.mpr ⟨hl, hr⟩, fun _ => rfl⟩
  · exact ⟨l, r, e, hl, hr, fun h => absurd h hnil⟩

/-- the sides of a middle that has no blanks at its ends -/
theorem exists_trim_eq_surround (before after : Text) : ∃ b b',
    (∀ c ∈ b, isBlank c = true) ∧ (∀ c ∈ b', isBlank c = true) ∧
    ∀ m : Text, m ≠ [] → m.head?.all (!isBlank ·) = true → m.getLast?.all (!isBlank ·) = true →
      Text.trim (before ++ (m ++ after)) = surround (Text.trim before) b b' (Text.trim after) m := by
  obtain ⟨l, b, hbefore, hl, hb, hnil⟩ := exists_blanks_behind before
  obtain ⟨b', r, hafter, hb', hr, hnil'⟩ := exists_blanks_ahead after
  refine ⟨b, b', hb, hb', fun m hm hhead hlast => ?_⟩
  have hcore : before ++ (m ++ after)
      = l ++ surround (Text.trim before) b b' (Text.trim after) m ++ r := by
    conv => lhs; rw [hbefore, hafter]
    simp only [surround, List.append_assoc]
  rw [hcore]
  refine trim_append hl hr ?_ ?_
  · have h := head?_trim before
    rw [surround]
    cases e : Text.trim before with
    | nil =>
      obtain ⟨c, m, rfl⟩ := List.exists_cons_of_ne_nil hm
      rw [hnil e]
      exact hhead
    | cons c u =>
      rw [e] at h
      exact h
  · have h := getLast?_trim after
    rcases List.eq_nil_or_concat' (Text.trim after) with e | ⟨w, d, e⟩
    · obtain ⟨m, c, rfl⟩ := (List.eq_nil_or_concat' m).resolve_left hm
      rw [surround, e, hnil' e, List.append_nil, List.append_nil, ← List.append_assoc,
        ← List.append_assoc, List.getLast?_concat]
      rwa [List.getLast?_concat] at hlast
    · rw [e, List.getLast?_concat] at h
      rw [surround, e, ← List.append_assoc, ← List.append_assoc, List.getLast?_concat]
      exact h

/-! ## what is no number -/

theorem mem_trim {c : Char} (hblank : isBlank c = false) {t : Text} (h : c ∈ t) : c ∈ Text.trim t := by
  obtain ⟨l, r, e, hl, hr⟩ := exists_blanks t
  have hno : ∀ b : Text, (∀ x ∈ b, isBlank x = true) → c ∉ b := fun b hb hm => by
    rw [hb c hm] at hblank
    cases hblank
  rw [e, List.mem_append, List.mem_append] at h
  exact (h.resolve_right (hno r hr)).resolve_left (hno l hl)

theorem mem_stripFirst {c d : Char} (hne : c ≠ d) {t : Text} (h : c ∈ t) : c ∈ Text.stripFirst d t := by
  cases t with
  | nil => cases h
  | cons x t =>
    rw [Text.stripFirst]
    split_ifs with hx
    · exact (List.mem_cons.mp h).resolve_left fun hc => hne (hc.trans hx)
    · exact h

theorem mem_unquote {c : Char} (hquote : c ≠ '"') (hblank : isBlank c = false) {t : Text}
    (h : c ∈ t) : c ∈ unquote t := by
  have hfirst := mem_stripFirst hquote (mem_trim hblank h)
  exact List.mem_reverse.mpr (mem_stripFirst hquote (List.mem_reverse.mpr hfirst))

/-- only plus signs, quotes and blanks are lost when segments are joined -/
theorem mem_concatenate {c : Char} (hplus : c ≠ '+') (hquote : c ≠ '"') (hblank : isBlank c = false)
    {t : Text} (h : c ∈ t) : c ∈ concatenate t := by
  unfold concatenate
  split
  · exact h
  · rw [← @List.intercalate_splitOn _ t _ _ '+'] at h
    obtain ⟨segment, hsegment, hc⟩ := (mem_of_mem_intercalate h).resolve_left hplus
    exact List.mem_flatMap.mpr ⟨segment, hsegment, mem_unquote hquote hblank hc⟩

theorem number?_eq_none_of_mem {c : Char} (hblank : isBlank c = false) (hdigit : c.isDigit = false)
    (hno : c ∉ "+-.eE".toList) {t : Text} (h : c ∈ t) : number? t = none := by
  have hc := mem_trim hblank h
  refine Option.eq_none_iff_forall_ne_some.mpr fun x hx => ?_
  obtain ⟨d, hd, -⟩ := number?_of_trim hx (List.ne_nil_of_mem hc)
  rcases Decimal.of_mem_parse? hd hc with hc | hc
  · rw [hdigit] at hc
    cases hc
  · exact hno hc

theorem number?_fault (f : Fault) : number? f.text = none := by
  cases f <;> decide +kernel

/-! ## a number in brackets -/

/-- what the number of a call is written as -/
structure NumberText (v : Text) : Prop where
  ne_nil : v ≠ []
  not_isBlank : ∀ c ∈ v, isBlank c = false
  kind : (∃ σ u d, Operand v σ u d) ∨ classify v = .mixed ∨
    classify v = .text ∧ ('N' ∈ v ∨ 'I' ∈ v)

theorem not_isBlank_of_all {t : Text} (h : t.all (!isBlank ·) = true) : ∀ c ∈ t, isBlank c = false :=
  fun c hc => Bool.not_eq_true' (isBlank c) ▸ List.all_eq_true.mp h c hc

theorem Operand.numberText {v : Text} {σ : Option Sign} {u : Text} {d : Decimal}
    (h : Operand v σ u d) : NumberText v :=
  ⟨h.ne_nil, h.isBlank_eq_false, .inl ⟨σ, u, d, h⟩⟩

theorem numberText_of_parse? {v : Text} {d : Decimal} (hd : Decimal.parse? v = some d) :
    NumberText v := by
  refine ⟨fun e => ?_, fun c hc => ?_, (operand_or_mixed hd).imp_right .inl⟩
  · rw [e] at hd
    cases hd
  · rcases Decimal.of_mem_parse? hd hc with hdigit | hmem
    · exact not_isBlank_of_isBody (Decimal.isBody_of_isDigit hdigit)
    · exact not_isBlank_of_all (t := "+-.eE".toList) (by decide) c hmem

theorem numberText_format (x : Float) : NumberText (Number.format x) := by
  cases hparts : Binary.ofFloat x with
  | nan =>
    have e : Number.format x = "NaN".toList := by rw [Number.format, hparts]
    rw [e]
    exact ⟨by decide, not_isBlank_of_all (by decide), .inr (.inr ⟨by decide +kernel, by decide⟩)⟩
  | infinite negative =>
    have e : Number.format x = Number.signed negative "Infinity".toList := by
      rw [Number.format, hparts]
    rw [e]
    cases negative
    · exact ⟨by decide, not_isBlank_of_all (by decide), .inr (.inr ⟨by decide +kernel, by decide⟩)⟩
    · exact ⟨by decide, not_isBlank_of_all (by decide), .inr (.inl (by decide +kernel))⟩
  | finite negative mant exp =>
    rcases Nat.eq_zero_or_pos mant with rfl | hmant
    · have e : Number.format x = ['0'] := by
        rw [Number.format, hparts]
        rfl
      have hop : Operand ['0'] none ['0'] ⟨false, 0, 0⟩ :=
        ⟨rfl, List.forall_mem_singleton.mpr rfl, List.forall_mem_singleton.mpr rfl, by decide⟩
      rw [e]
      exact hop.numberText
    · rcases format_cases hparts hmant with ⟨σ, u, d, hop, -⟩ | ⟨hk, hmem, hblank⟩
      · exact hop.numberText
      · exact ⟨List.ne_nil_of_mem hmem, hblank, .inr (.inl hk)⟩

namespace NumberText
variable {v : Text} (hv : NumberText v) {x b b' y : Text} (hx : x.getLast?.all isOperator = true)
  (hy : y.head?.all isOperator = true) (hb : ∀ c ∈ b, isBlank c = true)
  (hb' : ∀ c ∈ b', isBlank c = true)
include hv hx hy hb hb'

/-- in arithmetic it is an operand -/
theorem exists_operand (hk : classify (surround x b b' y v) = .arithmetic) :
    ∃ σ u d, Operand v σ u d := by
  have hkv : classify v = .arithmetic := classify_eq_arithmetic.mpr
    (eachPiece_of_surround (P := (·.isSome = true)) hx hy hb hb' v (classify_eq_arithmetic.mp hk))
  rcases hv.kind with hop | hmixed | ⟨htext, -⟩
  · exact hop
  · cases hmixed.symm.trans hkv
  · cases htext.symm.trans hkv

/-- in a text it is infinite or undefined, and its letters are in what is shown -/
theorem number?_concatenate (hk : classify (surround x b b' y v) = .text) :
    number? (concatenate (surround x b b' y v)) = none := by
  have hkv : classify v = .text := classify_eq_text.mpr
    (eachPiece_of_surround hx hy hb hb' v (classify_eq_text.mp hk))
  have hnone : ∀ c, isBlank c = false → c.isDigit = false → c ∉ "+-.eE".toList → c ≠ '"' → c ∈ v →
      number? (concatenate (surround x b b' y v)) = none := fun c hblank hdigit hno hquote hc => by
    have hplus : c ≠ '+' := fun e => hno (e ▸ List.mem_cons_self ..)
    refine number?_eq_none_of_mem hblank hdigit hno (mem_concatenate hplus hquote hblank ?_)
    simp only [surround, List.mem_append, hc, true_or, or_true]
  rcases hv.kind with ⟨σ, u, d, hop⟩ | hmixed | ⟨-, hc | hc⟩
  · cases hop.classify.symm.trans hkv
  · cases hmixed.symm.trans hkv
  · exact hnone 'N' rfl rfl (by decide) (by decide) hc
  · exact hnone 'I' rfl rfl (by decide) (by decide) hc

end NumberText

/-- A number that stands apart in an expression that comes to a number may be put in brackets. -/
theorem value_bracketed {before v after : Text} (hv : NumberText v) (hapart : Apart before v after)
    (hnumber : (number? (Fault.shown (value (before ++ (v ++ after))))).isSome = true) :
    value (before ++ '(' :: (v ++ ')' :: after)) = value (before ++ (v ++ after)) := by
  obtain ⟨b, b', hb, hb', htrim⟩ := exists_trim_eq_surround before after
  obtain ⟨hhead, hlast⟩ := ends_of_not_isBlank hv.not_isBlank
  have ht := htrim v hv.ne_nil hhead hlast
  have ht' := htrim ('(' :: (v ++ [')'])) (List.cons_ne_nil _ _) rfl (by
    rw [← List.cons_append, List.getLast?_concat]
    rfl)
  have hne : ∀ {m}, m ≠ [] → surround (Text.trim before) b b' (Text.trim after) m ≠ [] := fun hm => by
    simp only [surround, ne_eq, List.append_eq_nil_iff, hm, and_false, false_and, not_false_eq_true]
  have hbracketed : before ++ '(' :: (v ++ ')' :: after)
      = before ++ (('(' :: (v ++ [')'])) ++ after) := by
    simp only [List.cons_append, List.append_assoc, List.nil_append]
  rw [value_of_trim ht (hne hv.ne_nil)] at hnumber
  rw [hbracketed, value_of_trim ht' (hne (List.cons_ne_nil _ _)), value_of_trim ht (hne hv.ne_nil)]
  have hx := hapart.isOperator_before
  have hy := hapart.isOperator_after
  cases hk : classify (surround (Text.trim before) b b' (Text.trim after) v) with
  | mixed =>
    rw [hk] at hnumber
    simp only [Fault.shown_error, number?_fault] at hnumber
    cases hnumber
  | text =>
    rw [hk] at hnumber
    simp only [Fault.shown_ok, hv.number?_concatenate hx hy hb hb' hk] at hnumber
    cases hnumber
  | arithmetic =>
    obtain ⟨σ, u, d, hop⟩ := hv.exists_operand hx hy hb hb' hk
    rw [hk] at hnumber
    cases hr : result? (surround (Text.trim before) b b' (Text.trim after) v) with
    | none =>
      simp only [arithmetic, hr, Fault.shown_error, number?_fault] at hnumber
      cases hnumber
    | some r =>
      obtain ⟨hk', hr'⟩ := result?_bracketed hx hy hb hb' hop (hapart.stands hop) hk hr
      simp only [hk', arithmetic, hr, hr']

end Expression

/-! ## formulas -/

namespace Call

/-- a reference to one decimal number, or a sum or a mean of numbers -/
def Numeric (s : Snapshot) (c : Call) : Prop :=
  (c.function? = some .ref ∧ (c.values s).length = 1 ∧
    ∀ v ∈ c.values s, (Decimal.parse? v).isSome = true) ∨
  (c.function?.bind (·.total? (c.values s))).isSome = true

instance (s : Snapshot) (c : Call) : Decidable (c.Numeric s) := inferInstanceAs (Decidable (_ ∨ _))

theorem numberText_of_numeric {s : Snapshot} {c : Call} (h : c.Numeric s) {v : Text}
    (hc : c.result s = .ok v) : Expression.NumberText v := by
  rcases h with ⟨hf, hlen, hparse⟩ | htotal
  · obtain ⟨w, hw⟩ := List.length_eq_one_iff.mp hlen
    rw [result_of_function? hf, hw] at hc
    obtain rfl : w = v := Except.ok.inj hc
    obtain ⟨d, hd⟩ := Option.isSome_iff_exists.mp (hparse w (hw ▸ List.mem_singleton_self w))
    exact Expression.numberText_of_parse? hd
  · obtain ⟨x, hx⟩ := Option.isSome_iff_exists.mp htotal
    obtain ⟨f, hf, hx⟩ := Option.bind_eq_some_iff.mp hx
    rw [result_of_total? hf hx] at hc
    obtain rfl := Except.ok.inj hc
    exact Expression.numberText_format x

end Call

/-- If a formula comes to a number, a call that finds numbers may be put in brackets, provided that its
number stands apart from what is written before and after it once the calls have been replaced. -/
theorem evaluate_bracketed {raw : Text} {s : Snapshot} {c : Call} {pre post : List (Stretch Call)}
    (hscan : Call.scan .lenient (Text.trim raw) = .plain '=' :: (pre ++ .found c :: post))
    (hnumeric : c.Numeric s) (hnumber : (number? (evaluate raw s)).isSome = true)
    {us ws : List Text} {v : Text} (hpre : pre.mapM (replacement s) = .ok us)
    (hpost : post.mapM (replacement s) = .ok ws) (hc : c.result s = .ok v)
    (hapart : Expression.Apart us.flatten v ws.flatten) :
    evaluate ((.plain '=' :: (pre ++ .plain '(' :: .found c :: .plain ')' :: post)).flatMap
      Call.source) s = evaluate raw s := by
  have hraw := Call.head?_of_scan hscan
  have hold : (pre ++ .found c :: post).mapM (replacement s) = .ok (us ++ v :: ws) := by
    rw [List.mapM_append, List.mapM_cons, hpre, hpost, replacement, hc]
    rfl
  have hnew : (pre ++ .plain '(' :: .found c :: .plain ')' :: post).mapM (replacement s)
      = .ok (us ++ ['('] :: v :: [')'] :: ws) := by
    rw [List.mapM_append, List.mapM_cons, List.mapM_cons, List.mapM_cons, hpre, hpost, replacement,
      replacement, replacement, hc]
    rfl
  have hw : [Stretch.plain '(', .found c, .plain ')'].flatMap Call.source
      = ('(' :: c.text) ++ [')'] := by
    simp only [List.flatMap_cons, List.flatMap_nil, Call.source, List.append_nil, List.cons_append,
      List.nil_append]
  have hfound : Call.scan .lenient (Text.trim raw) = (.plain '=' :: pre) ++ .found c :: post := hscan
  have hsplice := evaluate_splice hraw hfound hw (Call.scan_bracketed hfound) s
  rw [evaluate_of_scan hraw hscan, stretchesValue_eq hold, List.flatten_append,
    List.flatten_cons] at hnumber ⊢
  refine hsplice.trans (congrArg Fault.shown ((stretchesValue_eq hnew).trans ?_))
  have hvalue := Expression.value_bracketed (Call.numberText_of_numeric hnumeric hc) hapart hnumber
  rw [← hvalue, List.flatten_append]
  simp only [List.flatten_cons, List.cons_append, List.nil_append]

/-- a mean between two factors, with a negative number behind them -/
theorem evaluate_bracketed_mean : ∃ s : Snapshot,
    s = .ofList [(⟨0, 0⟩, "1".toList), (⟨0, 1⟩, "-4".toList), (⟨1, 0⟩, [])] ∧
      evaluate "=2*(AVG(A1:A2))/4-REF(B1)".toList s = "4.25".toList := by
  refine ⟨_, rfl, ?_⟩
  generalize hs : Snapshot.ofList [(⟨0, 0⟩, "1".toList), (⟨0, 1⟩, "-4".toList), (⟨1, 0⟩, [])] = s
  have hshown : evaluate "=2*AVG(A1:A2)/4-REF(B1)".toList s = "4.25".toList := by
    rw [← hs]
    decide +kernel
  have hnumeric : (Call.mk "AVG".toList "A1:A2".toList).Numeric s := by
    rw [← hs]
    decide +kernel
  have hresult : (Call.mk "AVG".toList "A1:A2".toList).result s = .ok "0.5".toList := by
    rw [← hs]
    decide +kernel
  have hpost : [Stretch.plain '/', .plain '4', .plain '-', .found ⟨"REF".toList, "B1".toList⟩].mapM
      (replacement s) = .ok [['/'], ['4'], ['-'], "-4".toList] := by
    rw [← hs]
    decide +kernel
  have hpre : [Stretch.plain '2', .plain '*'].mapM (replacement s) = .ok [['2'], ['*']] := rfl
  refine (evaluate_bracketed (by decide +kernel) hnumeric (by rw [hshown]; decide +kernel) hpre hpost
    hresult ⟨rfl, rfl, ?_, ?_⟩).trans hshown
  · exact fun h => absurd h (by decide)
  · exact fun h => absurd h (by decide)

/-- The digits of a number join those in front of it, and a sign joins it to a bracket in front of it.
Brackets around the base of a power put its minus sign into the power. -/
theorem not_evaluate_bracketed :
    (∀ e ∈ [("=2", "3"), ("=(2)", "-3")],
      ∃ (pre : List (Stretch Call)) (s : Snapshot) (c : Call) (raw : Text),
        pre = e.1.toList.map .plain ∧ s = .ofList [(⟨0, 0⟩, e.2.toList)] ∧
        c = ⟨"REF".toList, "A1".toList⟩ ∧ raw = e.1.toList ++ c.text ∧
        Call.scan .lenient (Text.trim raw) = pre ++ [Stretch.found c] ∧ c.Numeric s ∧
        (number? (evaluate raw s)).isSome = true ∧
        evaluate ((pre ++ [Stretch.plain '(', .found c, .plain ')']).flatMap Call.source) s
          ≠ evaluate raw s) ∧
    (tokenize "-3^2".toList).bind Arith.parse? = some (.neg (.pow (.number 3) (.number 2))) ∧
    (tokenize "(-3)^2".toList).bind Arith.parse? = some (.pow (.neg (.number 3)) (.number 2)) := by
  refine ⟨fun e he => ?_, by decide +kernel, by decide +kernel⟩
  refine ⟨_, _, _, _, rfl, rfl, rfl, rfl, ?_⟩
  revert e
  decide +kernel

end Worksheet
