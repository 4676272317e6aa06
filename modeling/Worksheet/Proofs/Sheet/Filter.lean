import Mathlib.Data.List.Nodup
import Worksheet.Sheet.Filter

/-!
# The values below a header and the rows that show them

* `FirstSeen`          values of a list, each once, in the order in which they first occur;
* `firstSeen_eraseDups` so a list is left without its duplicates;
* `mem_takeWhile_range'` numbers counted up as long as all of them pass a test;
* `Sheet.Shows`        there is something to be seen at a position;
* `Sheet.Below`        the rows below a header down to the first at which nothing is to be seen;
* `Sheet.exists_below` such are the rows of a block;
* `Sheet.rows_parted_by_value`
                       the values below a header divide these rows among them.
-/

namespace Worksheet

/-! ## values in the order of their first occurrence -/

structure FirstSeen {α : Type} [BEq α] (l values : List α) : Prop where
  nodup : values.Nodup
  mem_iff : ∀ v, v ∈ values ↔ v ∈ l
  ordered : values.Pairwise fun v w => l.idxOf v < l.idxOf w

section
variable {α : Type} [BEq α] [LawfulBEq α]

/-- among the values that pass a test, none comes before another that did not do so before -/
theorem idxOf_lt_of_filter {p : α → Bool} {v w : α} (hv : p v = true) (hw : p w = true) {l : List α}
    (h : (l.filter p).idxOf v < (l.filter p).idxOf w) : l.idxOf v < l.idxOf w := by
  induction l with
  | nil => exact h
  | cons x l ih =>
    by_cases hxv : x = v
    · subst hxv
      have hne : x ≠ w := fun e => by
        rw [e] at h
        exact absurd h (Nat.lt_irrefl _)
      rw [List.idxOf_cons_self, List.idxOf_cons_ne _ hne]
      exact Nat.succ_pos _
    by_cases hxw : x = w
    · subst hxw
      rw [List.filter_cons_of_pos hw, List.idxOf_cons_self] at h
      exact absurd h (Nat.not_lt_zero _)
    rw [List.idxOf_cons_ne _ hxv, List.idxOf_cons_ne _ hxw, Nat.succ_lt_succ_iff]
    refine ih ?_
    by_cases hx : p x = true
    · rwa [List.filter_cons_of_pos hx, List.idxOf_cons_ne _ hxv, List.idxOf_cons_ne _ hxw,
        Nat.succ_lt_succ_iff] at h
    · rwa [List.filter_cons_of_neg hx] at h

theorem pairwise_eraseDups (l : List α) :
    l.eraseDups.Pairwise fun v w => l.idxOf v < l.idxOf w := by
  generalize hn : l.length = n
  induction n using Nat.strongRecOn generalizing l with
  | _ n ih =>
    cases l with
    | nil => exact .nil
    | cons x l =>
      have hlen : (l.filter fun v => !v == x).length < n := by
        have hle := List.length_filter_le (fun v => !v == x) l
        rw [List.length_cons] at hn
        omega
      have hother : ∀ v ∈ (l.filter fun v => !v == x).eraseDups, (!v == x) = true := fun v hv =>
        (List.mem_filter.mp (List.mem_eraseDups.mp hv)).2
      have hne : ∀ v ∈ (l.filter fun v => !v == x).eraseDups, x ≠ v := fun v hv e => by
        have h := hother v hv
        rw [e, beq_self_eq_true] at h
        cases h
      rw [List.eraseDups_cons]
      refine List.pairwise_cons.mpr ⟨fun v hv => ?_, ?_⟩
      · rw [List.idxOf_cons_self, List.idxOf_cons_ne _ (hne v hv)]
        exact Nat.succ_pos _
      · refine (ih _ hlen _ rfl).imp_of_mem fun {v w} hv hw h => ?_
        rw [List.idxOf_cons_ne _ (hne v hv), List.idxOf_cons_ne _ (hne w hw)]
        exact Nat.succ_lt_succ
          (idxOf_lt_of_filter (p := fun v => !v == x) (hother v hv) (hother w hw) h)

theorem firstSeen_eraseDups (l : List α) : FirstSeen l l.eraseDups where
  nodup := (pairwise_eraseDups l).imp fun h e => by
    rw [e] at h
    exact Nat.lt_irrefl _ h
  mem_iff _ := List.mem_eraseDups
  ordered := pairwise_eraseDups l

end

/-! ## counting up -/

theorem exists_takeWhile_range' (p : Nat → Bool) (a n : Nat) :
    ∃ m, (List.range' a n).takeWhile p = List.range' a m := by
  induction n generalizing a with
  | zero => exact ⟨0, rfl⟩
  | succ n ih =>
    obtain ⟨m, hm⟩ := ih (a + 1)
    rw [List.range'_succ, List.takeWhile_cons]
    split_ifs
    · exact ⟨m + 1, by rw [hm, List.range'_succ]⟩
    · exact ⟨0, rfl⟩

theorem mem_takeWhile_range' {p : Nat → Bool} {a n i : Nat} :
    i ∈ (List.range' a n).takeWhile p ↔ a ≤ i ∧ i < a + n ∧ ∀ j, a ≤ j → j ≤ i → p j = true := by
  induction n generalizing a with
  | zero =>
    refine iff_of_false List.not_mem_nil fun h => ?_
    omega
  | succ n ih =>
    rw [List.range'_succ, List.takeWhile_cons]
    by_cases ha : p a = true
    · rw [if_pos ha, List.mem_cons, ih]
      constructor
      · rintro (rfl | ⟨hle, hlt, hall⟩)
        · exact ⟨Nat.le_refl _, by omega, fun j hj hj' => Nat.le_antisymm hj hj' ▸ ha⟩
        · refine ⟨by omega, by omega, fun j hj hj' => ?_⟩
          rcases Nat.eq_or_lt_of_le hj with rfl | hlt
          · exact ha
          · exact hall j hlt hj'
      · rintro ⟨hle, hlt, hall⟩
        rcases Nat.eq_or_lt_of_le hle with rfl | hgt
        · exact .inl rfl
        · exact .inr ⟨hgt, by omega, fun j hj hj' => hall j (by omega) hj'⟩
    · rw [if_neg ha]
      exact iff_of_false List.not_mem_nil fun h => ha (h.2.2 a (Nat.le_refl a) h.1)

namespace Sheet

variable {s : Sheet} {header : Position}

/-! ## the rows below a header -/

def Shows (s : Sheet) (p : Position) : Prop := ∃ v, s.shownAt? p = some v ∧ v ≠ []

/-- what is to be seen in a row below a header -/
def shownBelow (s : Sheet) (header : Position) (row : Nat) : Text :=
  (s.shownAt? ⟨row, header.col⟩).getD []

theorem shownBelow_ne_nil_iff {row : Nat} :
    s.shownBelow header row ≠ [] ↔ s.Shows ⟨row, header.col⟩ := by
  rw [shownBelow, Shows]
  cases s.shownAt? ⟨row, header.col⟩ with
  | none => exact iff_of_false (fun h => h rfl) fun ⟨v, h, _⟩ => by cases h
  | some v => exact ⟨fun h => ⟨v, rfl, h⟩, fun ⟨w, hw, hne⟩ => Option.some.inj hw ▸ hne⟩

theorem row_lt_of_shows {p : Position} (h : s.Shows p) : p.row < s.rows := by
  obtain ⟨v, hv, -⟩ := h
  obtain ⟨c, hc, -⟩ := Option.map_eq_some_iff.mp hv
  obtain ⟨id, hid, -⟩ := Option.bind_eq_some_iff.mp hc
  obtain ⟨ids, hids, -⟩ := Option.bind_eq_some_iff.mp hid
  exact (List.getElem?_eq_some_iff.mp hids).1

/-- Consecutive rows, the first right below the header.  A row belongs to them if there is something
to be seen in it and in all that lie between it and the header. -/
structure Below (s : Sheet) (header : Position) (B : List Nat) : Prop where
  consecutive : B = List.range' (header.row + 1) B.length
  mem_iff : ∀ row, row ∈ B ↔ s.contains header = true ∧ header.row < row ∧
    ∀ r, header.row < r → r ≤ row → s.Shows ⟨r, header.col⟩

theorem exists_below (s : Sheet) (header : Position) : ∃ B, s.Below header B ∧
    s.block header = B.map fun row => (row, s.shownBelow header row) := by
  by_cases hin : s.contains header = true
  · refine ⟨(List.range' (header.row + 1) (s.rows - (header.row + 1))).takeWhile fun row =>
      s.shownBelow header row ≠ [], ⟨?_, ?_⟩, ?_⟩
    · obtain ⟨m, hm⟩ := exists_takeWhile_range' (fun row => s.shownBelow header row ≠ [])
        (header.row + 1) (s.rows - (header.row + 1))
      rw [hm, List.length_range']
    · intro row
      simp only [mem_takeWhile_range', decide_eq_true_eq, shownBelow_ne_nil_iff]
      constructor
      · rintro ⟨hle, -, hall⟩
        exact ⟨hin, hle, hall⟩
      · rintro ⟨-, hlt, hall⟩
        have hrows : row < s.rows := row_lt_of_shows (hall row hlt (Nat.le_refl row))
        exact ⟨hlt, by omega, hall⟩
    · rw [block, if_pos hin, List.takeWhile_map]
      rfl
  · refine ⟨[], ⟨rfl, fun row => iff_of_false List.not_mem_nil fun h => hin h.1⟩, ?_⟩
    rw [block, if_neg hin]
    rfl

namespace Below
variable {B : List Nat} (h : s.Below header B)
include h

theorem pairwise_lt : B.Pairwise (· < ·) := h.consecutive ▸ List.pairwise_lt_range'

theorem shownAt?_eq_some_iff {row : Nat} (hrow : row ∈ B) (v : Text) :
    s.shownAt? ⟨row, header.col⟩ = some v ↔ s.shownBelow header row = v := by
  obtain ⟨-, hlt, hall⟩ := (h.mem_iff row).mp hrow
  obtain ⟨w, hw, -⟩ := hall row hlt (Nat.le_refl row)
  rw [shownBelow, hw]
  exact Option.some_inj

end Below

/-! ## values and rows -/

section
variable {B : List Nat} (hblock : s.block header = B.map fun row => (row, s.shownBelow header row))
include hblock

theorem filterValues_of_block :
    s.filterValues header = (B.map (s.shownBelow header)).eraseDups := by
  rw [filterValues, hblock, List.map_map]
  rfl

theorem filterRows_of_block (v : Text) :
    s.filterRows header v = B.filter fun row => s.shownBelow header row = v := by
  rw [filterRows, hblock, List.filter_map, List.map_map]
  exact List.map_id _

theorem mem_filterValues_of_block {v : Text} :
    v ∈ s.filterValues header ↔ ∃ row ∈ B, s.shownBelow header row = v := by
  rw [filterValues_of_block hblock, List.mem_eraseDups, List.mem_map]

theorem mem_filterRows_of_block {v : Text} {row : Nat} :
    row ∈ s.filterRows header v ↔ row ∈ B ∧ s.shownBelow header row = v := by
  rw [filterRows_of_block hblock, List.mem_filter, decide_eq_true_eq]

theorem filterRows_ne_nil_iff {v : Text} :
    s.filterRows header v ≠ [] ↔ v ∈ s.filterValues header := by
  rw [mem_filterValues_of_block hblock, ne_eq, List.eq_nil_iff_forall_not_mem, not_forall_not]
  exact exists_congr fun row => mem_filterRows_of_block hblock

theorem disjoint_filterRows {v w : Text} (hne : v ≠ w) :
    (s.filterRows header v).Disjoint (s.filterRows header w) := by
  intro row hv hw
  have hv' := ((mem_filterRows_of_block hblock).mp hv).2
  have hw' := ((mem_filterRows_of_block hblock).mp hw).2
  exact hne (hv'.symm.trans hw')

theorem mem_iff_exists_value {row : Nat} :
    row ∈ B ↔ ∃ v ∈ s.filterValues header, row ∈ s.filterRows header v := by
  constructor
  · intro hrow
    exact ⟨_, (mem_filterValues_of_block hblock).mpr ⟨row, hrow, rfl⟩,
      (mem_filterRows_of_block hblock).mpr ⟨hrow, rfl⟩⟩
  · rintro ⟨v, -, hv⟩
    exact ((mem_filterRows_of_block hblock).mp hv).1

end

/-- Of the rows below a header down to the first at which nothing is to be seen, the values are listed
in the order in which they are first met, and each value has the rows that show it.  Every one of
these rows has exactly one value. -/
theorem rows_parted_by_value (s : Sheet) (header : Position) : ∃ B, s.Below header B ∧
    FirstSeen (B.map (s.shownBelow header)) (s.filterValues header) ∧
    (∀ v, (s.filterRows header v).Pairwise (· < ·) ∧
      (s.filterRows header v ≠ [] ↔ v ∈ s.filterValues header) ∧
      ∀ row, row ∈ s.filterRows header v ↔
        row ∈ B ∧ s.shownAt? ⟨row, header.col⟩ = some v) ∧
    (∀ v w, v ≠ w → (s.filterRows header v).Disjoint (s.filterRows header w)) ∧
    ∀ row, row ∈ B ↔ ∃ v ∈ s.filterValues header, row ∈ s.filterRows header v := by
  obtain ⟨B, hB, hblock⟩ := exists_below s header
  refine ⟨B, hB, filterValues_of_block hblock ▸ firstSeen_eraseDups _,
    fun v => ⟨?_, filterRows_ne_nil_iff hblock, fun row => ?_⟩,
    fun v w hne => disjoint_filterRows hblock hne, fun row => mem_iff_exists_value hblock⟩
  · rw [filterRows_of_block hblock]
    exact hB.pairwise_lt.filter _
  · rw [mem_filterRows_of_block hblock]
    exact and_congr_right fun hrow => (hB.shownAt?_eq_some_iff hrow v).symm

end Sheet

end Worksheet
