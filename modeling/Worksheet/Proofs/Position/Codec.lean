import Worksheet.Proofs.Position.Label

/-!
# Which texts are labels, and of which positions

Letters are numbered without a digit zero, so that each column has one spelling, and the largest
number splits the spellings of its own length into those that can be read and those that cannot.

* `Column.ofLetters?_eq_foldlM`
                       letters can be read one by one, with a check for overflow at every step;
* `Position.isSome_ofLabel?_iff`
                       what can be read as a position;
* `Position.label_of_ofLabel?`
                       the label of what has been read;
* `Position.read_iff_written`
                       a position that is written is read back, and what is read has been written,
                       up to the case of letters and leading zeros.
-/

namespace Worksheet

namespace Letter

theorem toNat_toLower (c : Char) :
    c.toLower.toNat = if c.isUpper then c.toNat + 32 else c.toNat := by
  unfold Char.toLower
  split_ifs with h1 h2 h2
  · have h := isUpper_iff.mp h2
    show (c.val + _).toNat = _
    rw [UInt32.toNat_add]
    show (c.toNat + 32) % 4294967296 = c.toNat + 32
    omega
  · exact absurd (isUpper_iff.mpr h1) h2
  · exact absurd (isUpper_iff.mp h2) h1
  · rfl

theorem toUpper_toLower (c : Char) : c.toLower.toUpper = c.toUpper := by
  refine Char.toNat_inj.mp ?_
  rw [toNat_toUpper, toNat_toUpper]
  simp only [isLower_iff, toNat_toLower, isUpper_iff]
  split_ifs <;> omega

end Letter

/-! ## letters one by one -/

namespace Column

/-- a number that is not too large -/
def checked? (n : Nat) : Option Nat := if n ≤ maxCount then some n else none

/-- the value of letters with one more behind them, checked after the multiplication and again after
the addition -/
def push? (n : Nat) (c : Char) : Option Nat :=
  if c.isAlpha then (checked? (26 * n)).bind fun m => checked? (m + digit c) else none

theorem push?_eq (n : Nat) (c : Char) : push? n c =
    if c.isAlpha ∧ 26 * n + digit c ≤ maxCount then some (26 * n + digit c) else none := by
  unfold push? checked?
  by_cases hc : c.isAlpha = true
  · rw [if_pos hc]
    by_cases hle : 26 * n + digit c ≤ maxCount
    · have hle' : 26 * n ≤ maxCount := by omega
      rw [if_pos hle', Option.bind_some, if_pos hle, if_pos ⟨hc, hle⟩]
    · have hno : ¬(c.isAlpha = true ∧ 26 * n + digit c ≤ maxCount) := fun h => hle h.2
      rw [if_neg hno]
      split_ifs
      · exact if_neg hle
      · rfl
  · rw [if_neg hc, if_neg fun h => hc h.1]

theorem le_foldl (n : Nat) (t : Text) : n ≤ t.foldl (fun n c => 26 * n + digit c) n := by
  induction t generalizing n with
  | nil => exact Nat.le_refl n
  | cons c t ih =>
    have h := ih (26 * n + digit c)
    rw [List.foldl_cons]
    omega

/-- an overflow on the way is one at the end -/
theorem foldlM_push? {n : Nat} (hn : n ≤ maxCount) (t : Text) : t.foldlM push? n =
    if t.all Char.isAlpha ∧ t.foldl (fun n c => 26 * n + digit c) n ≤ maxCount then
      some (t.foldl (fun n c => 26 * n + digit c) n)
    else none := by
  induction t generalizing n with
  | nil => exact (if_pos ⟨rfl, hn⟩).symm
  | cons c t ih =>
    rw [List.foldlM_cons, push?_eq, List.all_cons, List.foldl_cons]
    by_cases hc : c.isAlpha = true
    · by_cases hle : 26 * n + digit c ≤ maxCount
      · rw [if_pos ⟨hc, hle⟩, hc, Bool.true_and]
        exact ih hle
      · have hover := le_foldl (26 * n + digit c) t
        rw [if_neg fun h => hle h.2, if_neg fun h => by omega]
        rfl
    · rw [if_neg fun h => hc h.1, Bool.eq_false_iff.mpr hc, if_neg fun h => by simp at h]
      rfl

theorem ofLetters?_eq_foldlM (t : Text) :
    ofLetters? t = (t.foldlM push? 0).bind fun n => if 1 ≤ n then some (n - 1) else none := by
  rw [foldlM_push? (Nat.zero_le _), ofLetters?]
  show _ = Option.bind (if t.all Char.isAlpha ∧ value t ≤ maxCount then some (value t) else none) _
  by_cases h : t.all Char.isAlpha ∧ value t ≤ maxCount
  · by_cases hne : t = []
    · rw [hne, if_neg fun h => h.1 rfl]
      rfl
    · have hpos : 1 ≤ value t := value_pos (List.all_eq_true.mp h.1) hne
      rw [if_pos ⟨hne, h⟩, if_pos h, Option.bind_some, if_pos hpos]
  · rw [if_neg fun h' => h h'.2, if_neg h]
    rfl

end Column

/-! ## leading zeros -/

theorem ofDigitChars_dropWhile (t : Text) :
    Nat.ofDigitChars 10 (t.dropWhile (· == '0')) 0 = Nat.ofDigitChars 10 t 0 := by
  induction t with
  | nil => rfl
  | cons c t ih =>
    rw [List.dropWhile_cons]
    split_ifs with hc
    · rw [ih, Nat.ofDigitChars_cons, eq_of_beq hc]
      rfl
    · rfl

/-- a number that is written as digits say has those digits, without the zeros in front -/
theorem toDigits_eq_dropWhile {t : Text} (h : ∀ c ∈ t, c.isDigit = true)
    (hpos : 0 < Nat.ofDigitChars 10 t 0) :
    Nat.toDigits 10 (Nat.ofDigitChars 10 t 0) = t.dropWhile (· == '0') := by
  rw [← ofDigitChars_dropWhile] at hpos ⊢
  refine (toDigits_ofDigitChars (fun c hc => h c ((List.dropWhile_sublist _).subset hc))
    (fun e => ?_) fun e => ?_).1
  · rw [e] at hpos
    cases hpos
  · have hne := List.head?_dropWhile_not (· == '0') t
    rw [e] at hne
    simp at hne

namespace Position

/-! ## lower case -/

theorem spelledBy_toLower (p : Position) : p.SpelledBy (p.label.map Char.toLower) := by
  have h : (p.label.map Char.toLower).map Char.toUpper = p.label.map Char.toUpper := by
    rw [List.map_map]
    exact List.map_congr_left fun c _ => Letter.toUpper_toLower c
  exact h.trans p.spelledBy_label

/-! ## what can be read -/

/-- letters and then digits, of which neither is too large, nor the second zero -/
theorem isSome_ofLabel?_iff {t : Text} : (ofLabel? t).isSome = true ↔ ∃ letters digits,
    LabelLike t letters digits ∧ Column.value letters ≤ maxCount ∧
      1 ≤ Nat.ofDigitChars 10 digits 0 ∧ Nat.ofDigitChars 10 digits 0 ≤ maxCount := by
  constructor
  · intro h
    obtain ⟨p, hp⟩ := Option.isSome_iff_exists.mp h
    obtain ⟨hl, hc, hr⟩ := ofLabel?_eq_some hp
    have hb := bounds_of_ofLabel? hp
    exact ⟨_, _, hl, by omega, by omega, by omega⟩
  · rintro ⟨a, d, hl, ha, hd, hd'⟩
    obtain ⟨row, hrow⟩ := Nat.exists_eq_add_of_le' hd
    have hletters : Column.ofLetters? a = some (Column.value a - 1) :=
      if_pos ⟨hl.letters_ne_nil, List.all_eq_true.mpr hl.isAlpha, ha⟩
    have hdigits : Text.digits? d = some (row + 1) := by
      rw [← hrow]
      exact if_pos ⟨hl.digits_ne_nil, List.all_eq_true.mpr hl.isDigit, hd'⟩
    rw [ofLabel?, hl.takeWhile_isAlpha, hl.dropWhile_isAlpha, hletters, hdigits]
    rfl

/-- the label of a position that has been read -/
theorem label_of_ofLabel? {t : Text} {p : Position} (h : ofLabel? t = some p) :
    ∃ letters digits, LabelLike t letters digits ∧
      p.label = letters.map Char.toUpper ++ digits.dropWhile (· == '0') := by
  obtain ⟨hl, hc, hr⟩ := ofLabel?_eq_some h
  refine ⟨_, _, hl, ?_⟩
  rw [← Column.spell_value hl.isAlpha, ← toDigits_eq_dropWhile hl.isDigit (by omega), hc, hr]
  rfl

/-- Every position that is not too large is read back from its label, in letters of either case.
Read are just letters with digits behind them, of which neither stands for too large a number, and
the digits not for zero.  And what is read is not too large to be written, as the same text in
capitals without leading zeros.  Letters are read one by one, and given up at the first overflow. -/
theorem read_iff_written :
    (∀ p : Position, p.row < maxCount → p.col < maxCount →
      ofLabel? p.label = some p ∧ ofLabel? (p.label.map Char.toLower) = some p) ∧
    (∀ t, (ofLabel? t).isSome = true ↔ ∃ letters digits, LabelLike t letters digits ∧
      Column.value letters ≤ maxCount ∧
      1 ≤ Nat.ofDigitChars 10 digits 0 ∧ Nat.ofDigitChars 10 digits 0 ≤ maxCount) ∧
    (∀ t p, ofLabel? t = some p → p.row + 1 ≤ maxCount ∧ p.col + 1 ≤ maxCount ∧
      ∃ letters digits, LabelLike t letters digits ∧
        p.label = letters.map Char.toUpper ++ digits.dropWhile (· == '0')) ∧
    ∀ t, Column.ofLetters? t
      = (t.foldlM Column.push? 0).bind fun n => if 1 ≤ n then some (n - 1) else none := by
  refine ⟨fun p hrow hcol => ⟨?_, ?_⟩, fun t => isSome_ofLabel?_iff, fun t p h => ?_,
    Column.ofLetters?_eq_foldlM⟩
  · exact ofLabel?_of_spelledBy p.spelledBy_label hrow hcol
  · exact ofLabel?_of_spelledBy p.spelledBy_toLower hrow hcol
  · obtain ⟨hrow, hcol⟩ := bounds_of_ofLabel? h
    exact ⟨hrow, hcol, label_of_ofLabel? h⟩

/-- the last position of all, and labels of the same length that lie beyond it -/
theorem read_iff_written_last :
    ofLabel? "GKGWBYLWRXTLPO18446744073709551615".toList = some ⟨maxCount - 1, maxCount - 1⟩ ∧
    (∃ letters digits, LabelLike "gkgWBYLWRXTLPO018446744073709551615".toList letters digits ∧
      Position.label ⟨maxCount - 1, maxCount - 1⟩
        = letters.map Char.toUpper ++ digits.dropWhile (· == '0')) ∧
    ofLabel? "GKGWBYLWRXTLPP1".toList = none ∧ ofLabel? "A18446744073709551616".toList = none := by
  obtain ⟨hwritten, -, hread, -⟩ := read_iff_written
  have hlabel : Position.label ⟨maxCount - 1, maxCount - 1⟩
      = "GKGWBYLWRXTLPO18446744073709551615".toList := by decide +kernel
  have hlast := hwritten ⟨maxCount - 1, maxCount - 1⟩ (by decide) (by decide)
  have hzero := hread "gkgWBYLWRXTLPO018446744073709551615".toList ⟨maxCount - 1, maxCount - 1⟩
    (by decide +kernel)
  exact ⟨hlabel ▸ hlast.1, hzero.2.2, by decide +kernel, by decide +kernel⟩

end Position

end Worksheet
