import Worksheet.Proofs.Formula.Ranges

/-!
# The rectangle between two corners

* `Position.Opposite`  corners of the same rectangle that lie opposite to each other;
* `Position.rect_eq_iff` these, and no others, have the same rectangle;
* `Word64.upTo`        the words from one to another, of which `Word64.map_toNat_upTo` says that none is
                       left out and none comes twice;
* `Position.walk`      the positions whose rows and columns are counted in words;
* `Position.rect_walked_through`
                       a rectangle has each of its positions once, in row-major order.

Rows and columns are counted in words of 64 bits.  The last word has no successor, so the walk must
end at the last row or column and not behind it.
-/

namespace Worksheet

/-! ## words -/

namespace Word64

/-- no word is added to that is not below another -/
def upTo (low high : UInt64) : List UInt64 :=
  if low < high then low :: upTo (low + 1) high
  else if low = high then [low] else []
termination_by high.toNat - low.toNat
decreasing_by
  rename_i h
  have hlt := UInt64.lt_iff_toNat_lt.mp h
  have hhigh := high.toNat_lt
  rw [UInt64.toNat_add]
  show high.toNat - (low.toNat + 1) % 2 ^ 64 < _
  omega

theorem toNat_add_one {low high : UInt64} (h : low < high) : (low + 1).toNat = low.toNat + 1 := by
  have hlt := UInt64.lt_iff_toNat_lt.mp h
  have hhigh := high.toNat_lt
  rw [UInt64.toNat_add]
  show (low.toNat + 1) % 2 ^ 64 = _
  omega

theorem map_toNat_upTo (low high : UInt64) :
    (upTo low high).map UInt64.toNat = List.range' low.toNat (high.toNat + 1 - low.toNat) := by
  fun_induction upTo low high with
  | case1 low h ih =>
    have hlt := UInt64.lt_iff_toNat_lt.mp h
    rw [List.map_cons, ih, toNat_add_one h,
      show high.toNat + 1 - low.toNat = high.toNat + 1 - (low.toNat + 1) + 1 by omega,
      List.range'_succ]
  | case2 h =>
    rw [show high.toNat + 1 - high.toNat = 1 by omega]
    rfl
  | case3 low h hne =>
    have hge := UInt64.not_lt.mp h
    have hle := UInt64.le_iff_toNat_le.mp hge
    have hne' := mt UInt64.toNat_inj.mp hne
    rw [show high.toNat + 1 - low.toNat = 0 by omega]
    rfl

theorem toNat_min (a b : UInt64) : (min a b).toNat = min a.toNat b.toNat := by
  show (if a ≤ b then a else b).toNat = _
  by_cases h : a ≤ b
  · have hle := UInt64.le_iff_toNat_le.mp h
    rw [if_pos h, Nat.min_eq_left hle]
  · have hle := mt UInt64.le_iff_toNat_le.mpr h
    rw [if_neg h, Nat.min_eq_right (Nat.le_of_not_le hle)]

theorem toNat_max (a b : UInt64) : (max a b).toNat = max a.toNat b.toNat := by
  show (if a ≤ b then b else a).toNat = _
  by_cases h : a ≤ b
  · have hle := UInt64.le_iff_toNat_le.mp h
    rw [if_pos h, Nat.max_eq_right hle]
  · have hle := mt UInt64.le_iff_toNat_le.mpr h
    rw [if_neg h, Nat.max_eq_left (Nat.le_of_not_le hle)]

end Word64

namespace Position

/-! ## corners -/

/-- `c` and `d` lie opposite to each other in the rectangle with the corners `a` and `b` -/
structure Opposite (a b c d : Position) : Prop where
  rows : c.row = a.row ∧ d.row = b.row ∨ c.row = b.row ∧ d.row = a.row
  cols : c.col = a.col ∧ d.col = b.col ∨ c.col = b.col ∧ d.col = a.col

theorem between_congr {a b c d : Nat} (h : c = a ∧ d = b ∨ c = b ∧ d = a) :
    between c d = between a b := by
  rcases h with ⟨rfl, rfl⟩ | ⟨rfl, rfl⟩
  · rfl
  · exact between_comm c d

theorem eq_of_min_max {a b c d : Nat} (hmin : min c d = min a b) (hmax : max c d = max a b) :
    c = a ∧ d = b ∨ c = b ∧ d = a := by
  omega

theorem first_mem_rect (a b : Position) : ⟨min a.row b.row, min a.col b.col⟩ ∈ rect a b :=
  mem_rect.mpr ⟨⟨Nat.le_refl _, min_le_max⟩, Nat.le_refl _, min_le_max⟩

theorem last_mem_rect (a b : Position) : ⟨max a.row b.row, max a.col b.col⟩ ∈ rect a b :=
  mem_rect.mpr ⟨⟨min_le_max, Nat.le_refl _⟩, min_le_max, Nat.le_refl _⟩

theorem rect_eq_iff {a b c d : Position} : rect c d = rect a b ↔ Opposite a b c d := by
  constructor
  · intro h
    -- the first and the last position of each rectangle lie in the other
    have hfirst := mem_rect.mp (h.symm ▸ first_mem_rect a b)
    have hlast := mem_rect.mp (h.symm ▸ last_mem_rect a b)
    have hfirst' := mem_rect.mp (h ▸ first_mem_rect c d)
    have hlast' := mem_rect.mp (h ▸ last_mem_rect c d)
    exact
      { rows := eq_of_min_max (Nat.le_antisymm hfirst.1.1 hfirst'.1.1)
          (Nat.le_antisymm hlast'.1.2 hlast.1.2)
        cols := eq_of_min_max (Nat.le_antisymm hfirst.2.1 hfirst'.2.1)
          (Nat.le_antisymm hlast'.2.2 hlast.2.2) }
  · intro h
    rw [rect, rect, between_congr h.rows, between_congr h.cols]

/-! ## counted in words -/

def ofWords (row col : UInt64) : Position := ⟨row.toNat, col.toNat⟩

/-- row by row, and each row from its first column to its last -/
def walk (row col row' col' : UInt64) : List Position :=
  (Word64.upTo (min row row') (max row row')).flatMap fun r =>
    (Word64.upTo (min col col') (max col col')).map fun c => ofWords r c

theorem map_toNat_upTo_between (a b : UInt64) :
    (Word64.upTo (min a b) (max a b)).map UInt64.toNat = between a.toNat b.toNat := by
  rw [Word64.map_toNat_upTo, Word64.toNat_min, Word64.toNat_max, List.range'_eq_map_range]
  rfl

theorem walk_eq (row col row' col' : UInt64) :
    walk row col row' col' = rect (ofWords row col) (ofWords row' col') := by
  show _ = (between row.toNat row'.toNat).flatMap fun r =>
    (between col.toNat col'.toNat).map fun c => (⟨r, c⟩ : Position)
  rw [← map_toNat_upTo_between, ← map_toNat_upTo_between, List.flatMap_map]
  simp only [List.map_map]
  rfl

/-- A rectangle has the positions between its corners, each once and in row-major order, and it does
not matter by which two opposite corners it is given.  It can be walked through in words, also up to the
last of them. -/
theorem rect_walked_through (a b : Position) :
    (rect a b).Pairwise (· < ·) ∧
    (∀ p, p ∈ rect a b ↔ p.within a b = true) ∧
    (∀ c d, rect c d = rect a b ↔ Opposite a b c d) ∧
    ∀ row col row' col' : UInt64,
      walk row col row' col' = rect (ofWords row col) (ofWords row' col') :=
  ⟨pairwise_rect a b, fun _ => within_iff.symm, fun _ _ => rect_eq_iff, walk_eq⟩

/-- the other diagonal of the square in the last corner of all -/
example : rect ⟨maxCount, maxCount - 1⟩ ⟨maxCount - 1, maxCount⟩
    = [⟨maxCount - 1, maxCount - 1⟩, ⟨maxCount - 1, maxCount⟩, ⟨maxCount, maxCount - 1⟩,
      ⟨maxCount, maxCount⟩] := by
  decide

end Position

end Worksheet
