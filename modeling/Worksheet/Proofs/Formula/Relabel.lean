import Mathlib.Data.List.DropRight
import Worksheet.Formula.Relabel
import Worksheet.Proofs.Position.Label
import Worksheet.Proofs.Snapshot
import Worksheet.Proofs.Text.Stretch

/-!
# What the replacement of a label does to a text

* `StandsAlone`        a label at some place of a text, standing alone;
* `relabelFrom`        the replacement from some place on, of which `relabel_induction` gives the
                       three cases;
* `relabelFrom_append_cons` the replacement works separately on both sides of a character that is
                       neither a letter nor a digit;
* `splitOn_relabel`    it can be made before or after a text is split;
* `relabel_of_spelledBy`, `relabel_of_not_spelledBy`
                       a text like a label is replaced if it spells the label, and only then;
* `spelledBy_relabel`  what spells a position spells the place to which it has moved;
* `trim_append`        the blanks around a text are what is trimmed.
-/

namespace Worksheet

/-! ## occurrences -/

/-- `l` is a spelling of the label of `p`, with no letter before it and no digit after it -/
structure StandsAlone (p : Position) (before : Option Char) (l rest : Text) : Prop where
  spelled : p.SpelledBy l
  before : before.all (!·.isAlpha) = true
  rest : rest.head?.all (!·.isDigit) = true

namespace StandsAlone
variable {p : Position} {before : Option Char} {l rest : Text}

theorem labelLike (h : StandsAlone p before l rest) :
    LabelLike l (l.takeWhile Char.isAlpha) (Nat.toDigits 10 (p.row + 1)) :=
  h.spelled.labelLike.1

theorem ne_nil (h : StandsAlone p before l rest) : l ≠ [] := fun e =>
  h.labelLike.letters_ne_nil (by rw [e]; rfl)

theorem exists_isDigit (h : StandsAlone p before l rest) : ∃ c ∈ l, c.isDigit = true := by
  obtain ⟨c, cs, hd⟩ := List.exists_cons_of_ne_nil h.labelLike.digits_ne_nil
  have hc : c ∈ Nat.toDigits 10 (p.row + 1) := hd ▸ List.mem_cons_self ..
  exact ⟨c, h.labelLike.eq ▸ List.mem_append_right _ hc, h.labelLike.isDigit c hc⟩

theorem exists_isAlpha (h : StandsAlone p before l rest) : ∃ c ∈ l, c.isAlpha = true := by
  obtain ⟨c, cs, hd⟩ := List.exists_cons_of_ne_nil h.labelLike.letters_ne_nil
  have hc : c ∈ l.takeWhile Char.isAlpha := hd ▸ List.mem_cons_self ..
  exact ⟨c, h.labelLike.eq ▸ List.mem_append_left _ hc, h.labelLike.isAlpha c hc⟩

end StandsAlone

theorem labelAt?_append {p : Position} {before : Option Char} {l rest : Text}
    (h : StandsAlone p before l rest) : labelAt? p before (l ++ rest) = some ((), l.length) := by
  have hn : p.label.length = l.length := by
    rw [← h.spelled, List.length_map]
  rw [labelAt?, hn, List.take_left, List.drop_left]
  exact if_pos ⟨h.spelled, h.before, h.rest⟩

theorem labelAt?_eq_none {p : Position} {before : Option Char} {t : Text}
    (h : ∀ l rest, t = l ++ rest → ¬StandsAlone p before l rest) : labelAt? p before t = none := by
  refine if_neg fun ⟨h1, h2, h3⟩ => ?_
  exact h _ _ (List.take_append_drop ..).symm ⟨h1, h2, h3⟩

/-! ## the replacement from some place on -/

def relabelFrom (old new : Position) (before : Option Char) (t : Text) : Text :=
  (stretchesFrom (labelAt? old) before 0 t).flatMap fun
    | .plain c => [c]
    | .found () => new.label

theorem relabel_eq (old new : Position) (t : Text) : relabel old new t = relabelFrom old new none t :=
  rfl

section
variable {old new : Position} {before : Option Char}

theorem relabelFrom_nil : relabelFrom old new before [] = [] := rfl

theorem relabelFrom_found {l rest : Text} (h : StandsAlone old before l rest) :
    relabelFrom old new before (l ++ rest) = new.label ++ relabelFrom old new l.getLast? rest := by
  rw [relabelFrom, stretchesFrom_found h.ne_nil (labelAt?_append h)]
  rfl

theorem relabelFrom_plain {c : Char} {t : Text}
    (h : ∀ l rest, c :: t = l ++ rest → ¬StandsAlone old before l rest) :
    relabelFrom old new before (c :: t) = c :: relabelFrom old new (some c) t := by
  rw [relabelFrom, stretchesFrom_plain (labelAt?_eq_none h)]
  rfl

end

/-- a text is walked through label by label, and where there is none, character by character -/
theorem relabel_induction (p : Position) {motive : Option Char → Text → Prop}
    (nil : ∀ before, motive before [])
    (found : ∀ before l rest, StandsAlone p before l rest → motive l.getLast? rest →
      motive before (l ++ rest))
    (plain : ∀ before c t, (∀ l rest, c :: t = l ++ rest → ¬StandsAlone p before l rest) →
      motive (some c) t → motive before (c :: t))
    (before : Option Char) (t : Text) : motive before t := by
  generalize hn : t.length = n
  induction n using Nat.strongRecOn generalizing before t with
  | _ n ih =>
    by_cases h : ∃ l rest, t = l ++ rest ∧ StandsAlone p before l rest
    · obtain ⟨l, rest, rfl, hl⟩ := h
      have hpos := List.length_pos_iff.mpr hl.ne_nil
      rw [List.length_append] at hn
      exact found before l rest hl (ih rest.length (by omega) _ rest rfl)
    · have h' : ∀ l rest, t = l ++ rest → ¬StandsAlone p before l rest := fun l rest e hl =>
        h ⟨l, rest, e, hl⟩
      cases t with
      | nil => exact nil before
      | cons c t =>
        rw [List.length_cons] at hn
        exact plain before c t h' (ih t.length (by omega) _ t rfl)

/-! ## both sides of a character -/

theorem not_isAlpha_of_not_isAlphanum {c : Char} (h : c.isAlphanum = false) : c.isAlpha = false :=
  (Bool.or_eq_false_iff.mp h).1

theorem not_isDigit_of_not_isAlphanum {c : Char} (h : c.isAlphanum = false) : c.isDigit = false :=
  (Bool.or_eq_false_iff.mp h).2

section
variable (old new : Position) {c : Char} (hc : c.isAlphanum = false)
include hc

theorem relabelFrom_some (t : Text) :
    relabelFrom old new (some c) t = relabelFrom old new none t := by
  have hiff : ∀ l rest, StandsAlone old (some c) l rest ↔ StandsAlone old none l rest := fun l rest =>
    ⟨fun h => ⟨h.spelled, rfl, h.rest⟩, fun h => ⟨h.spelled, by
      show (!c.isAlpha) = true
      rw [not_isAlpha_of_not_isAlphanum hc]
      rfl, h.rest⟩⟩
  by_cases h : ∃ l rest, t = l ++ rest ∧ StandsAlone old none l rest
  · obtain ⟨l, rest, rfl, hl⟩ := h
    rw [relabelFrom_found hl, relabelFrom_found ((hiff l rest).mpr hl)]
  · have h' : ∀ l rest, t = l ++ rest → ¬StandsAlone old none l rest := fun l rest e hl =>
      h ⟨l, rest, e, hl⟩
    cases t with
    | nil => rfl
    | cons d t =>
      rw [relabelFrom_plain h', relabelFrom_plain fun l rest e hl => h' l rest e ((hiff l rest).mp hl)]

theorem notMem_of_standsAlone {before : Option Char} {l rest : Text}
    (h : StandsAlone old before l rest) : c ∉ l := fun hm => by
  rw [h.labelLike.isAlphanum c hm] at hc
  cases hc

theorem relabelFrom_append_cons (before : Option Char) (u v : Text) :
    relabelFrom old new before (u ++ c :: v)
      = relabelFrom old new before u ++ c :: relabelFrom old new none v := by
  -- what stands alone in front of `c` also does so at the end of the text
  have hhead : ∀ r : Text, r.head?.all (!·.isDigit) = (r ++ c :: v).head?.all (!·.isDigit) := by
    intro r
    cases r with
    | nil =>
      show true = !c.isDigit
      rw [not_isDigit_of_not_isAlphanum hc]
      rfl
    | cons d r => rfl
  induction before, u using relabel_induction old with
  | nil before =>
    rw [List.nil_append, relabelFrom_plain, relabelFrom_some old new hc]
    · rfl
    · intro l rest e h
      obtain ⟨d, l, rfl⟩ := List.exists_cons_of_ne_nil h.ne_nil
      exact notMem_of_standsAlone old hc h ((List.cons.inj e).1 ▸ List.mem_cons_self ..)
  | found before l rest h ih =>
    have h' : StandsAlone old before l (rest ++ c :: v) := ⟨h.spelled, h.before, hhead rest ▸ h.rest⟩
    rw [List.append_assoc, relabelFrom_found h', relabelFrom_found h, ih, List.append_assoc]
  | plain before d u h ih =>
    rw [List.cons_append, relabelFrom_plain, relabelFrom_plain h, ih, List.cons_append]
    intro l rest e hl
    rw [← List.cons_append, List.append_eq_append_iff] at e
    have hnot := notMem_of_standsAlone old hc hl
    rcases e with ⟨r, e, e'⟩ | ⟨r, e, e'⟩
    · cases r with
      | nil =>
        refine h l [] (by rw [e, List.append_nil, List.append_nil]) ⟨hl.spelled, hl.before, rfl⟩
      | cons x r =>
        rw [e, (List.cons.inj e').1] at hnot
        exact hnot (List.mem_append_right _ (List.mem_cons_self ..))
    · exact h l r e ⟨hl.spelled, hl.before, by rw [hhead r, ← e']; exact hl.rest⟩

theorem relabel_append_cons (u v : Text) :
    relabel old new (u ++ c :: v) = relabel old new u ++ c :: relabel old new v :=
  relabelFrom_append_cons old new hc none u v

theorem mem_relabelFrom (before : Option Char) (t : Text) :
    c ∈ relabelFrom old new before t ↔ c ∈ t := by
  induction before, t using relabel_induction old with
  | nil before => exact Iff.rfl
  | found before l rest h ih =>
    have hnew : c ∉ new.label := fun hm => by
      rw [new.labelLike_label.isAlphanum c hm] at hc
      cases hc
    rw [relabelFrom_found h, List.mem_append, List.mem_append, ih, or_iff_right hnew,
      or_iff_right (notMem_of_standsAlone old hc h)]
  | plain before d t h ih => rw [relabelFrom_plain h, List.mem_cons, List.mem_cons, ih]

theorem splitOn_relabel (t : Text) :
    (relabel old new t).splitOn c = (t.splitOn c).map (relabel old new) := by
  have single : ∀ t : Text, c ∉ t →
      (relabel old new t).splitOn c = (t.splitOn c).map (relabel old new) := fun t h => by
    have h' : c ∉ relabel old new t := fun hm => h ((mem_relabelFrom old new hc none t).mp hm)
    rw [List.splitOn_eq_singleton h, List.splitOn_eq_singleton h']
    rfl
  generalize hn : t.length = n
  induction n using Nat.strongRecOn generalizing t with
  | _ n ih =>
    by_cases h : c ∈ t
    · obtain ⟨u, v, rfl, hu⟩ := List.eq_append_cons_of_mem h
      rw [List.length_append, List.length_cons] at hn
      rw [relabel_append_cons old new hc, List.splitOn_append_cons_self,
        List.splitOn_append_cons_self, List.map_append, single u hu, ih v.length (by omega) v rfl]
    · exact single t h

end

/-! ## texts like labels -/

section
variable {old new : Position}

/-- without a digit there is no label -/
theorem relabelFrom_of_not_isDigit (before : Option Char) {t : Text}
    (h : ∀ c ∈ t, c.isDigit = false) : relabelFrom old new before t = t := by
  induction before, t using relabel_induction old with
  | nil before => rfl
  | found before l rest hl _ =>
    obtain ⟨c, hc, hd⟩ := hl.exists_isDigit
    rw [h c (List.mem_append_left _ hc)] at hd
    cases hd
  | plain before c t hno ih =>
    rw [relabelFrom_plain hno, ih fun d hd => h d (List.mem_cons_of_mem _ hd)]

/-- without a letter there is no label -/
theorem relabelFrom_of_isDigit (before : Option Char) {t : Text}
    (h : ∀ c ∈ t, c.isDigit = true) : relabelFrom old new before t = t := by
  induction before, t using relabel_induction old with
  | nil before => rfl
  | found before l rest hl _ =>
    obtain ⟨c, hc, ha⟩ := hl.exists_isAlpha
    rw [Letter.not_isAlpha_of_isDigit (h c (List.mem_append_left _ hc))] at ha
    cases ha
  | plain before c t hno ih =>
    rw [relabelFrom_plain hno, ih fun d hd => h d (List.mem_cons_of_mem _ hd)]

/-- behind a letter no label begins -/
theorem relabelFrom_of_isAlpha {b : Char} (hb : b.isAlpha = true) {a d : Text}
    (ha : ∀ c ∈ a, c.isAlpha = true) (hd : ∀ c ∈ d, c.isDigit = true) :
    relabelFrom old new (some b) (a ++ d) = a ++ d := by
  induction a generalizing b with
  | nil => exact relabelFrom_of_isDigit _ hd
  | cons c a ih =>
    rw [List.cons_append, relabelFrom_plain, ih (ha c (List.mem_cons_self ..))
      fun x hx => ha x (List.mem_cons_of_mem _ hx)]
    intro l rest _ h
    have hbefore : (!b.isAlpha) = true := h.before
    rw [hb] at hbefore
    cases hbefore

theorem relabel_of_spelledBy {t : Text} (h : old.SpelledBy t) : relabel old new t = new.label := by
  have hs : StandsAlone old none t [] := ⟨h, rfl, rfl⟩
  rw [relabel_eq, ← List.append_nil t, relabelFrom_found hs, relabelFrom_nil, List.append_nil]

theorem relabel_of_not_spelledBy {t a d : Text} (ht : LabelLike t a d) (h : ¬old.SpelledBy t) :
    relabel old new t = t := by
  have hno : ∀ l rest, t = l ++ rest → ¬StandsAlone old none l rest := by
    rintro l rest rfl hl
    have hd := hl.labelLike
    have hdrop : (l ++ rest).dropWhile Char.isAlpha = Nat.toDigits 10 (old.row + 1) ++ rest := by
      obtain ⟨c, cs, hcs⟩ := List.exists_cons_of_ne_nil hd.digits_ne_nil
      have hc : c.isAlpha = false :=
        Letter.not_isAlpha_of_isDigit (hd.isDigit c (hcs ▸ List.mem_cons_self ..))
      conv => lhs; rw [hd.eq]
      rw [List.append_assoc, List.dropWhile_append_of_pos hd.isAlpha, hcs, List.cons_append,
        List.dropWhile_cons, hc]
      rfl
    -- the digits end where the label ends
    cases rest with
    | nil => exact h (by rw [List.append_nil]; exact hl.spelled)
    | cons c rest =>
      have hc : c.isDigit = true := ht.isDigit c (by
        rw [← ht.dropWhile_isAlpha, hdrop]
        exact List.mem_append_right _ (List.mem_cons_self ..))
      have hrest : (!c.isDigit) = true := hl.rest
      rw [hc] at hrest
      cases hrest
  obtain ⟨b, a, rfl⟩ := List.exists_cons_of_ne_nil ht.letters_ne_nil
  rw [relabel_eq]
  rw [ht.eq] at hno ⊢
  rw [List.cons_append] at hno ⊢
  rw [relabelFrom_plain hno, relabelFrom_of_isAlpha (ht.isAlpha b (List.mem_cons_self ..))
    (fun x hx => ht.isAlpha x (List.mem_cons_of_mem _ hx)) ht.isDigit]

/-- what spells a position spells the place to which it has moved -/
theorem spelledBy_relabel {p : Position} {t : Text} (h : p.SpelledBy t) :
    (Position.moved old new p).SpelledBy (relabel old new t) := by
  by_cases e : p = old
  · subst e
    rw [Position.moved_self, relabel_of_spelledBy h]
    exact Position.spelledBy_label new
  · rw [Position.moved_of_ne e, relabel_of_not_spelledBy h.labelLike.1 fun h' =>
      e (Position.eq_of_spelledBy h h')]
    exact h

end

/-! ## blanks around a label -/

theorem not_isAlphanum_of_isBlank {c : Char} (h : isBlank c = true) : c.isAlphanum = false := by
  rw [Bool.eq_false_iff]
  intro ha
  rw [Char.isAlphanum, Bool.or_eq_true, Letter.isAlpha_iff, Letter.isDigit_iff] at ha
  simp only [isBlank, Bool.or_eq_true, Bool.and_eq_true, decide_eq_true_eq, beq_iff_eq] at h
  omega

theorem exists_eq_trim_append (t : Text) :
    ∃ r, t = t.takeWhile isBlank ++ Text.trim t ++ r ∧ ∀ c ∈ r, isBlank c = true := by
  refine ⟨(Text.trimStart t).rtakeWhile isBlank, ?_, fun c hc => List.mem_rtakeWhile_imp hc⟩
  have he : Text.trim t ++ (Text.trimStart t).rtakeWhile isBlank = Text.trimStart t :=
    List.rdropWhile_append_rtakeWhile
  rw [List.append_assoc, he]
  exact List.takeWhile_append_dropWhile.symm

theorem exists_blanks (t : Text) : ∃ l r, t = l ++ Text.trim t ++ r ∧
    (∀ c ∈ l, isBlank c = true) ∧ ∀ c ∈ r, isBlank c = true := by
  obtain ⟨r, e, hr⟩ := exists_eq_trim_append t
  exact ⟨_, r, e, fun c hc => List.mem_takeWhile_imp hc, hr⟩

theorem not_isBlank_of_isAlphanum {c : Char} (h : c.isAlphanum = true) : (!isBlank c) = true := by
  rw [Bool.not_eq_true', Bool.eq_false_iff]
  intro hb
  rw [not_isAlphanum_of_isBlank hb] at h
  cases h

theorem trim_append {l core r : Text} (hl : ∀ c ∈ l, isBlank c = true)
    (hr : ∀ c ∈ r, isBlank c = true) (hhead : core.head?.all (!isBlank ·) = true)
    (hlast : core.getLast?.all (!isBlank ·) = true) : Text.trim (l ++ core ++ r) = core := by
  have hend : ∀ t, Text.trimEnd (t ++ r) = Text.trimEnd t := fun t => by
    rw [Text.trimEnd, List.reverse_append, List.dropWhile_append_of_pos
      fun c hc => hr c (List.mem_reverse.mp hc), Text.trimEnd]
  rw [Text.trim, List.append_assoc, Text.trimStart, List.dropWhile_append_of_pos hl]
  cases core with
  | nil =>
    have hnil : (r ++ []).dropWhile isBlank = [] := List.dropWhile_append_of_pos hr
    rw [List.append_nil] at hnil
    rw [List.nil_append, hnil]
    rfl
  | cons c core =>
    have hc : isBlank c = false := Bool.not_eq_true' _ ▸ hhead
    rw [List.cons_append, List.dropWhile_cons, hc, if_neg Bool.false_ne_true, ← List.cons_append,
      hend, Text.trimEnd]
    cases e : (c :: core).reverse with
    | nil => cases List.reverse_eq_nil_iff.mp e
    | cons d u =>
      have hd : isBlank d = false := by
        rw [← List.head?_reverse, e] at hlast
        exact Bool.not_eq_true' _ ▸ hlast
      rw [List.dropWhile_cons, hd, if_neg Bool.false_ne_true, ← e, List.reverse_reverse]

theorem trim_eq_self {t : Text} (hhead : t.head?.all (!isBlank ·) = true)
    (hlast : t.getLast?.all (!isBlank ·) = true) : Text.trim t = t := by
  have e := @trim_append [] t [] (fun _ h => absurd h List.not_mem_nil)
    (fun _ h => absurd h List.not_mem_nil) hhead hlast
  rwa [List.nil_append, List.append_nil] at e

theorem ends_of_not_isBlank {t : Text} (h : ∀ c ∈ t, isBlank c = false) :
    t.head?.all (!isBlank ·) = true ∧ t.getLast?.all (!isBlank ·) = true := by
  have hall : ∀ o : Option Char, (∀ c ∈ o, c ∈ t) → o.all (!isBlank ·) = true := fun o ho => by
    cases o with
    | none => rfl
    | some c => exact Bool.not_eq_true' (isBlank c) ▸ h c (ho c rfl)
  exact ⟨hall _ fun c hc => List.mem_of_mem_head? hc, hall _ fun c hc => List.mem_of_getLast? hc⟩

theorem trim_of_not_isBlank {t : Text} (h : ∀ c ∈ t, isBlank c = false) : Text.trim t = t :=
  trim_eq_self (ends_of_not_isBlank h).1 (ends_of_not_isBlank h).2

end Worksheet
