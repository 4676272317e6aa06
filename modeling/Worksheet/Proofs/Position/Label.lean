import Mathlib.Data.List.Induction
import Mathlib.Data.List.TakeWhile
import Worksheet.Position.Label

/-!
# Labels and the positions they stand for

* `Column.value_spell`, `Column.spell_value`
                       column letters and columns determine each other, up to case;
* `Position.SpelledBy` the label of a position, in letters of either case;
* `Position.eq_of_spelledBy`, `Position.label_injective`
                       no two positions are spelled alike;
* `Position.ofLabel?_of_spelledBy`
                       every spelling is read back;
* `Position.spelledBy_iff` of all that is read as a position, the spellings are what has no leading
                       zero.
-/

namespace Worksheet

/-! ## letters and digits -/

namespace Letter

theorem isUpper_iff {c : Char} : c.isUpper = true ↔ 65 ≤ c.toNat ∧ c.toNat ≤ 90 := by
  show decide (c.val ≥ 'A'.val ∧ c.val ≤ 'Z'.val) = true ↔ _
  rw [decide_eq_true_eq, ge_iff_le, UInt32.le_iff_toNat_le, UInt32.le_iff_toNat_le]
  exact Iff.rfl

theorem isLower_iff {c : Char} : c.isLower = true ↔ 97 ≤ c.toNat ∧ c.toNat ≤ 122 := by
  show (decide (c.val ≥ 'a'.val) && decide (c.val ≤ 'z'.val)) = true ↔ _
  rw [Bool.and_eq_true, decide_eq_true_eq, decide_eq_true_eq, ge_iff_le, UInt32.le_iff_toNat_le,
    UInt32.le_iff_toNat_le]
  exact Iff.rfl

theorem isDigit_iff {c : Char} : c.isDigit = true ↔ 48 ≤ c.toNat ∧ c.toNat ≤ 57 :=
  Char.isDigit_iff_toNat

theorem isAlpha_iff {c : Char} : c.isAlpha = true ↔
    65 ≤ c.toNat ∧ c.toNat ≤ 90 ∨ 97 ≤ c.toNat ∧ c.toNat ≤ 122 := by
  show (c.isUpper || c.isLower) = true ↔ _
  rw [Bool.or_eq_true, isUpper_iff, isLower_iff]

theorem isAlpha_of_isUpper {c : Char} (h : c.isUpper = true) : c.isAlpha = true :=
  isAlpha_iff.mpr (.inl (isUpper_iff.mp h))

theorem toNat_toUpper (c : Char) :
    c.toUpper.toNat = if c.isLower then c.toNat - 32 else c.toNat := by
  unfold Char.toUpper
  split_ifs with h1 h2 h2
  · have h := isLower_iff.mp h2
    show (c.val + _).toNat = _
    rw [UInt32.toNat_add]
    show (c.toNat + 4294967264) % 4294967296 = c.toNat - 32
    omega
  · exact absurd (isLower_iff.mpr h1) h2
  · exact absurd (isLower_iff.mp h2) h1
  · rfl

theorem isAlpha_toUpper (c : Char) : c.toUpper.isAlpha = c.isAlpha := by
  rw [Bool.eq_iff_iff, isAlpha_iff, isAlpha_iff, toNat_toUpper]
  split_ifs with h
  · have := isLower_iff.mp h
    omega
  · have := mt isLower_iff.mpr h
    omega

theorem isDigit_toUpper (c : Char) : c.toUpper.isDigit = c.isDigit := by
  rw [Bool.eq_iff_iff, isDigit_iff, isDigit_iff, toNat_toUpper]
  split_ifs with h
  · have := isLower_iff.mp h
    omega
  · rfl

theorem not_isDigit_of_isAlpha {c : Char} (h : c.isAlpha = true) : c.isDigit = false := by
  rw [Bool.eq_false_iff, ne_eq, isDigit_iff]
  have := isAlpha_iff.mp h
  omega

theorem not_isAlpha_of_isDigit {c : Char} (h : c.isDigit = true) : c.isAlpha = false := by
  rw [Bool.eq_false_iff, ne_eq, isAlpha_iff]
  have := isDigit_iff.mp h
  omega

theorem toUpper_of_isDigit {c : Char} (h : c.isDigit = true) : c.toUpper = c := by
  refine Char.toNat_inj.mp ?_
  rw [toNat_toUpper, if_neg]
  rw [isLower_iff]
  have := isDigit_iff.mp h
  omega

theorem map_toUpper_of_isDigit {t : Text} (h : ∀ c ∈ t, c.isDigit = true) :
    t.map Char.toUpper = t :=
  (List.map_congr_left fun c hc => toUpper_of_isDigit (h c hc)).trans (List.map_id' t)

theorem toUpper_toUpper (c : Char) : c.toUpper.toUpper = c.toUpper := by
  refine Char.toNat_inj.mp ?_
  rw [toNat_toUpper, if_neg]
  rw [isLower_iff, toNat_toUpper]
  split_ifs with h
  · have := isLower_iff.mp h
    omega
  · exact mt isLower_iff.mpr h

end Letter

/-! ## columns -/

namespace Column

theorem digit_bounds {c : Char} (h : c.isAlpha = true) : 1 ≤ digit c ∧ digit c ≤ 26 := by
  unfold digit
  have ha := Letter.isAlpha_iff.mp h
  rw [Letter.toNat_toUpper]
  split_ifs with hl
  · have := Letter.isLower_iff.mp hl
    omega
  · have := mt Letter.isLower_iff.mpr hl
    omega

theorem ofNat_digit {c : Char} (h : c.isAlpha = true) : Char.ofNat (64 + digit c) = c.toUpper := by
  have hd := digit_bounds h
  unfold digit at hd ⊢
  rw [show 64 + (c.toUpper.toNat - 64) = c.toUpper.toNat by omega, Char.ofNat_toNat]

theorem toNat_capital {k : Nat} (h : k < 26) : (Char.ofNat (65 + k)).toNat = 65 + k := by
  have all : ∀ k < 26, (Char.ofNat (65 + k)).toNat = 65 + k := by decide
  exact all k h

theorem isUpper_capital {k : Nat} (h : k < 26) : (Char.ofNat (65 + k)).isUpper = true := by
  rw [Letter.isUpper_iff, toNat_capital h]
  omega

theorem digit_capital {k : Nat} (h : k < 26) : digit (Char.ofNat (65 + k)) = k + 1 := by
  unfold digit
  rw [Letter.toNat_toUpper, if_neg, toNat_capital h]
  · omega
  · rw [Letter.isLower_iff, toNat_capital h]
    omega

theorem value_append_singleton (t : Text) (c : Char) : value (t ++ [c]) = 26 * value t + digit c := by
  rw [value, List.foldl_append]
  rfl

theorem spell_zero : spell 0 = [] := by
  rw [spell, if_pos rfl]

theorem spell_succ (n k : Nat) (hk : k < 26) :
    spell (26 * n + (k + 1)) = spell n ++ [Char.ofNat (65 + k)] := by
  rw [spell, if_neg (by omega), show (26 * n + (k + 1) - 1) / 26 = n by omega,
    show (26 * n + (k + 1) - 1) % 26 = k by omega]

/-- the digits of a positive number, the last one apart -/
theorem exists_eq_mul_add {n : Nat} (h : n ≠ 0) :
    ∃ m k, k < 26 ∧ m < n ∧ n = 26 * m + (k + 1) :=
  ⟨(n - 1) / 26, (n - 1) % 26, Nat.mod_lt _ (by decide), by omega, by omega⟩

theorem value_spell (n : Nat) : value (spell n) = n := by
  induction n using Nat.strongRecOn with
  | _ n ih =>
    by_cases h : n = 0
    · rw [h, spell_zero]
      rfl
    · obtain ⟨m, k, hk, hlt, rfl⟩ := exists_eq_mul_add h
      rw [spell_succ m k hk, value_append_singleton, ih m hlt, digit_capital hk]

theorem isUpper_spell (n : Nat) : ∀ c ∈ spell n, c.isUpper = true := by
  induction n using Nat.strongRecOn with
  | _ n ih =>
    intro c hc
    by_cases h : n = 0
    · rw [h, spell_zero] at hc
      cases hc
    · obtain ⟨m, k, hk, hlt, rfl⟩ := exists_eq_mul_add h
      rw [spell_succ m k hk, List.mem_append, List.mem_singleton] at hc
      rcases hc with hc | rfl
      · exact ih m hlt c hc
      · exact isUpper_capital hk

theorem spell_value {t : Text} (h : ∀ c ∈ t, c.isAlpha = true) :
    spell (value t) = t.map Char.toUpper := by
  induction t using List.reverseRecOn with
  | nil => exact spell_zero
  | append_singleton t c ih =>
    have hc := h c (List.mem_append_right _ (List.mem_singleton.mpr rfl))
    have hd := digit_bounds hc
    rw [value_append_singleton, show digit c = digit c - 1 + 1 by omega,
      spell_succ _ _ (by omega), ih fun d hd => h d (List.mem_append_left _ hd), List.map_append,
      show 65 + (digit c - 1) = 64 + digit c by omega, ofNat_digit hc]
    rfl

theorem value_pos {t : Text} (ht : ∀ c ∈ t, c.isAlpha = true) (hne : t ≠ []) : 0 < value t := by
  refine Nat.pos_of_ne_zero fun e => hne ?_
  have hs := spell_value ht
  rw [e, spell_zero] at hs
  exact List.map_eq_nil_iff.mp hs.symm

theorem value_map_toUpper (t : Text) : value (t.map Char.toUpper) = value t := by
  unfold value
  rw [List.foldl_map]
  simp only [digit, Letter.toUpper_toUpper]

theorem letters_ne_nil (col : Nat) : letters col ≠ [] := by
  intro h
  have hv := value_spell (col + 1)
  rw [show spell (col + 1) = [] from h] at hv
  cases hv

end Column

/-! ## row numbers -/

theorem digitChar_of_isDigit {c : Char} (h : c.isDigit = true) :
    c.toNat - 48 < 10 ∧ (c.toNat - 48).digitChar = c := by
  have hc := Letter.isDigit_iff.mp h
  have hlt : c.toNat - 48 < 10 := by omega
  have all : ∀ d < 10, d.digitChar.toNat = 48 + d := by decide
  refine ⟨hlt, Char.toNat_inj.mp ?_⟩
  rw [all _ hlt]
  omega

/-- a number written without leading zeros is written as it was -/
theorem toDigits_ofDigitChars {t : Text} (h : ∀ c ∈ t, c.isDigit = true) (hne : t ≠ [])
    (h0 : t.head? ≠ some '0') : Nat.toDigits 10 (Nat.ofDigitChars 10 t 0) = t ∧
      0 < Nat.ofDigitChars 10 t 0 := by
  induction t using List.reverseRecOn with
  | nil => exact absurd rfl hne
  | append_singleton t c ih =>
    obtain ⟨hlt, hc⟩ := digitChar_of_isDigit (h c (List.mem_append_right _ (List.mem_singleton.mpr rfl)))
    have hval : Nat.ofDigitChars 10 (t ++ [c]) 0 = 10 * Nat.ofDigitChars 10 t 0 + (c.toNat - 48) := by
      rw [Nat.ofDigitChars_append, Nat.ofDigitChars_cons, Nat.ofDigitChars_nil]
      rfl
    rw [hval]
    by_cases ht : t = []
    · subst ht
      have hpos : 0 < c.toNat - 48 := by
        refine Nat.pos_of_ne_zero fun e => h0 ?_
        rw [← hc, e]
        rfl
      rw [Nat.ofDigitChars_nil, Nat.mul_zero, Nat.zero_add, Nat.toDigits_of_lt_base hlt, hc]
      exact ⟨rfl, hpos⟩
    · have h0' : t.head? ≠ some '0' := by
        obtain ⟨a, as, rfl⟩ := List.exists_cons_of_ne_nil ht
        exact h0
      obtain ⟨hdig, hpos⟩ := ih (fun d hd => h d (List.mem_append_left _ hd)) ht h0'
      rw [← Nat.toDigits_append_toDigits (by decide) hpos hlt, hdig, Nat.toDigits_of_lt_base hlt, hc]
      exact ⟨rfl, by omega⟩

theorem head?_toDigits {n : Nat} (h : 0 < n) : (Nat.toDigits 10 n).head? ≠ some '0' := by
  induction n using Nat.strongRecOn with
  | _ n ih =>
    by_cases hlt : n < 10
    · rw [Nat.toDigits_of_lt_base hlt]
      have all : ∀ n < 10, 0 < n → [n.digitChar].head? ≠ some '0' := by decide
      exact all n hlt h
    · have hrec := ih (n / 10) (by omega) (by omega)
      rw [Nat.toDigits_of_base_le (by decide) (Nat.le_of_not_lt hlt)]
      obtain ⟨a, as, e⟩ := List.exists_cons_of_ne_nil (Nat.toDigits_ne_nil (n := n / 10) (b := 10))
      rw [e] at hrec ⊢
      exact hrec

/-! ## labels -/

/-- letters, and then digits, of both at least one -/
structure LabelLike (t : Text) (letters digits : Text) : Prop where
  eq : t = letters ++ digits
  isAlpha : ∀ c ∈ letters, c.isAlpha = true
  isDigit : ∀ c ∈ digits, c.isDigit = true
  letters_ne_nil : letters ≠ []
  digits_ne_nil : digits ≠ []

namespace LabelLike
variable {t a d : Text} (h : LabelLike t a d)
include h

theorem isAlphanum : ∀ c ∈ t, c.isAlphanum = true := by
  intro c hc
  rw [h.eq, List.mem_append] at hc
  rw [Char.isAlphanum, Bool.or_eq_true]
  exact hc.imp (h.isAlpha c) (h.isDigit c)

theorem takeWhile_isAlpha : t.takeWhile Char.isAlpha = a := by
  obtain ⟨c, cs, hd⟩ := List.exists_cons_of_ne_nil h.digits_ne_nil
  have hc : c.isAlpha = false :=
    Letter.not_isAlpha_of_isDigit (h.isDigit c (hd ▸ List.mem_cons_self ..))
  rw [h.eq, List.takeWhile_append_of_pos h.isAlpha, hd, List.takeWhile_cons, hc]
  exact List.append_nil a

theorem dropWhile_isAlpha : t.dropWhile Char.isAlpha = d := by
  have e := List.takeWhile_append_dropWhile (p := Char.isAlpha) (l := t)
  rw [h.takeWhile_isAlpha, h.eq] at e
  exact h.eq ▸ List.append_cancel_left e

theorem map_toUpper : LabelLike (t.map Char.toUpper) (a.map Char.toUpper) d where
  eq := by
    rw [h.eq, List.map_append, Letter.map_toUpper_of_isDigit h.isDigit]
  isAlpha c hc := by
    obtain ⟨b, hb, rfl⟩ := List.mem_map.mp hc
    rw [Letter.isAlpha_toUpper]
    exact h.isAlpha b hb
  isDigit := h.isDigit
  letters_ne_nil := by
    rw [ne_eq, List.map_eq_nil_iff]
    exact h.letters_ne_nil
  digits_ne_nil := h.digits_ne_nil

end LabelLike

/-- what is like a label in capitals is like a label -/
theorem labelLike_of_map_toUpper {t a d : Text} (h : LabelLike (t.map Char.toUpper) a d) :
    LabelLike t (t.takeWhile Char.isAlpha) d ∧ (t.takeWhile Char.isAlpha).map Char.toUpper = a := by
  have hcomp : Char.isAlpha ∘ Char.toUpper = Char.isAlpha := funext Letter.isAlpha_toUpper
  have ha : (t.takeWhile Char.isAlpha).map Char.toUpper = a := by
    rw [← h.takeWhile_isAlpha, List.takeWhile_map, hcomp]
  have hd : (t.dropWhile Char.isAlpha).map Char.toUpper = d := by
    rw [← h.dropWhile_isAlpha, List.dropWhile_map, hcomp]
  have hdig : ∀ c ∈ t.dropWhile Char.isAlpha, c.isDigit = true := fun c hc => by
    rw [← Letter.isDigit_toUpper]
    exact h.isDigit _ (hd ▸ List.mem_map_of_mem hc)
  have hd' : t.dropWhile Char.isAlpha = d := by
    rw [← hd, Letter.map_toUpper_of_isDigit hdig]
  refine ⟨⟨?_, fun c hc => ?_, hd' ▸ hdig, fun e => h.letters_ne_nil ?_, h.digits_ne_nil⟩, ha⟩
  · rw [← hd', List.takeWhile_append_dropWhile]
  · exact List.mem_takeWhile_imp hc
  · rw [← ha, e]
    rfl

namespace Position

theorem labelLike_label (p : Position) :
    LabelLike p.label (Column.letters p.col) (Nat.toDigits 10 (p.row + 1)) where
  eq := rfl
  isAlpha c hc := Letter.isAlpha_of_isUpper (Column.isUpper_spell _ c hc)
  isDigit c hc := Nat.isDigit_of_mem_toDigits (by decide) (by decide) hc
  letters_ne_nil := Column.letters_ne_nil p.col
  digits_ne_nil := Nat.toDigits_ne_nil

/-- the label in letters of either case -/
def SpelledBy (p : Position) (t : Text) : Prop := t.map Char.toUpper = p.label

theorem spelledBy_label (p : Position) : p.SpelledBy p.label := by
  have h : p.label.map Char.toUpper = p.label.map fun c => c := List.map_congr_left fun c hc => by
    rcases List.mem_append.mp hc with hc | hc
    · refine Char.toNat_inj.mp ?_
      rw [Letter.toNat_toUpper, if_neg]
      rw [Letter.isLower_iff]
      have := Letter.isUpper_iff.mp (Column.isUpper_spell _ c hc)
      omega
    · exact Letter.toUpper_of_isDigit (Nat.isDigit_of_mem_toDigits (by decide) (by decide) hc)
  exact h.trans (List.map_id' _)

theorem SpelledBy.labelLike {p : Position} {t : Text} (h : p.SpelledBy t) :
    LabelLike t (t.takeWhile Char.isAlpha) (Nat.toDigits 10 (p.row + 1)) ∧
      (t.takeWhile Char.isAlpha).map Char.toUpper = Column.letters p.col := by
  have hl := labelLike_label p
  rw [← h] at hl
  exact labelLike_of_map_toUpper hl

/-- the row and the column of a label, however large -/
theorem SpelledBy.value {p : Position} {t : Text} (h : p.SpelledBy t) :
    Column.value (t.takeWhile Char.isAlpha) = p.col + 1 ∧
      Nat.ofDigitChars 10 (t.dropWhile Char.isAlpha) 0 = p.row + 1 := by
  obtain ⟨hl, hu⟩ := h.labelLike
  rw [← Column.value_map_toUpper, hu, hl.dropWhile_isAlpha]
  exact ⟨Column.value_spell _, Nat.ofDigitChars_toDigits (by decide) (by decide)⟩

theorem eq_of_spelledBy {p q : Position} {t : Text} (hp : p.SpelledBy t) (hq : q.SpelledBy t) :
    p = q := by
  obtain ⟨h1, h2⟩ := hp.value
  obtain ⟨h1', h2'⟩ := hq.value
  obtain ⟨r, c⟩ := p
  obtain ⟨r', c'⟩ := q
  simp only [Position.mk.injEq] at *
  omega

theorem label_injective {p q : Position} (h : p.label = q.label) : p = q :=
  eq_of_spelledBy (spelledBy_label p) (h ▸ spelledBy_label q)

/-- every spelling is read back -/
theorem ofLabel?_of_spelledBy {p : Position} {t : Text} (h : p.SpelledBy t)
    (hrow : p.row < maxCount) (hcol : p.col < maxCount) : ofLabel? t = some p := by
  obtain ⟨hl, -⟩ := h.labelLike
  obtain ⟨hc, hr⟩ := h.value
  have hletters : Column.ofLetters? (t.takeWhile Char.isAlpha) = some p.col := by
    rw [Column.ofLetters?, if_pos ⟨hl.letters_ne_nil, List.all_eq_true.mpr hl.isAlpha, by omega⟩, hc]
    rfl
  have hdigits : Text.digits? (t.dropWhile Char.isAlpha) = some (p.row + 1) := by
    have hd := hl.dropWhile_isAlpha
    rw [Text.digits?, if_pos ⟨hd ▸ hl.digits_ne_nil, List.all_eq_true.mpr (hd ▸ hl.isDigit), by omega⟩,
      hr]
  rw [ofLabel?, hletters, hdigits]

theorem ofLabel?_eq_some {t : Text} {p : Position} (h : ofLabel? t = some p) :
    LabelLike t (t.takeWhile Char.isAlpha) (t.dropWhile Char.isAlpha) ∧
      Column.value (t.takeWhile Char.isAlpha) = p.col + 1 ∧
      Nat.ofDigitChars 10 (t.dropWhile Char.isAlpha) 0 = p.row + 1 := by
  unfold ofLabel? at h
  split at h
  · next col row hcol hrow =>
    obtain rfl := Option.some.inj h
    unfold Column.ofLetters? at hcol
    unfold Text.digits? at hrow
    split_ifs at hcol with h1
    split_ifs at hrow with h2
    have halpha : ∀ c ∈ t.takeWhile Char.isAlpha, c.isAlpha = true := fun c hc =>
      List.mem_takeWhile_imp hc
    have hpos := Column.value_pos halpha h1.1
    have hc := Option.some.inj hcol
    refine ⟨⟨(List.takeWhile_append_dropWhile).symm, halpha, List.all_eq_true.mp h2.2.1, h1.1, h2.1⟩,
      ?_, Option.some.inj hrow⟩
    show _ = col + 1
    omega
  · cases h

/-- what is read as a position is not too large to be written and read again -/
theorem bounds_of_ofLabel? {t : Text} {p : Position} (h : ofLabel? t = some p) :
    p.row < maxCount ∧ p.col < maxCount := by
  unfold ofLabel? at h
  split at h
  · next col row hcol hrow =>
    obtain rfl := Option.some.inj h
    unfold Column.ofLetters? at hcol
    unfold Text.digits? at hrow
    split_ifs at hcol with h1
    split_ifs at hrow with h2
    have hc := Option.some.inj hcol
    have hr := Option.some.inj hrow
    have hpos : 0 < maxCount := by decide
    show row < maxCount ∧ col < maxCount
    omega
  · cases h

/-- the row number has more digits than it needs -/
def LeadingZero (t : Text) : Prop := (t.dropWhile Char.isAlpha).head? = some '0'

instance (t : Text) : Decidable (LeadingZero t) :=
  inferInstanceAs (Decidable ((t.dropWhile Char.isAlpha).head? = some '0'))

/-- Of all that is read as a position, the spellings without a leading zero are the label in letters
of either case. -/
theorem spelledBy_iff {t : Text} {p : Position} (h : ofLabel? t = some p) :
    p.SpelledBy t ↔ ¬LeadingZero t := by
  obtain ⟨hl, hc, hr⟩ := ofLabel?_eq_some h
  constructor
  · intro hs h0
    rw [LeadingZero, (hs.labelLike.1).dropWhile_isAlpha] at h0
    exact head?_toDigits (Nat.succ_pos _) h0
  · intro h0
    obtain ⟨hdig, -⟩ := toDigits_ofDigitChars hl.isDigit hl.digits_ne_nil h0
    rw [SpelledBy, hl.map_toUpper.eq, ← Column.spell_value hl.isAlpha, hc, ← hdig, hr]
    rfl

/-- a leading zero makes a text the spelling of no position -/
theorem not_spelledBy_of_leadingZero {t : Text} (h : LeadingZero t) (p : Position) :
    ¬p.SpelledBy t := by
  intro hs
  rw [LeadingZero, (hs.labelLike.1).dropWhile_isAlpha] at h
  exact head?_toDigits (Nat.succ_pos _) h

/-- all spellings of a position are read alike, also if it is too large to be read -/
theorem ofLabel?_congr {p : Position} {t u : Text} (ht : p.SpelledBy t) (hu : p.SpelledBy u) :
    ofLabel? t = ofLabel? u := by
  by_cases hp : p.row < maxCount ∧ p.col < maxCount
  · rw [ofLabel?_of_spelledBy ht hp.1 hp.2, ofLabel?_of_spelledBy hu hp.1 hp.2]
  · have hnone : ∀ {v}, p.SpelledBy v → ofLabel? v = none := fun hv => by
      refine Option.eq_none_iff_forall_ne_some.mpr fun q hq => hp ?_
      have hs := (spelledBy_iff hq).mpr fun h0 => not_spelledBy_of_leadingZero h0 p hv
      rw [eq_of_spelledBy hv hs]
      exact bounds_of_ofLabel? hq
    rw [hnone ht, hnone hu]

end Position

end Worksheet
