import Worksheet.Text.Basic

/-!
# Positions

* `Position`           a row and a column, both counted from zero;
* `Position.lt`        the row-major order;
* `Position.within`    membership in the rectangle spanned by two corners, given in any order;
* `Position.rect`      the positions of that rectangle, in row-major order.
-/

namespace Worksheet

structure Position where
  row : Nat
  col : Nat
  deriving DecidableEq, Repr, Inhabited

namespace Position

/-! ## row-major order -/

protected def lt (p q : Position) : Prop := p.row < q.row ∨ p.row = q.row ∧ p.col < q.col

instance : LT Position := ⟨Position.lt⟩

theorem lt_def {p q : Position} : p < q ↔ p.row < q.row ∨ p.row = q.row ∧ p.col < q.col := Iff.rfl

instance (p q : Position) : Decidable (p < q) :=
  inferInstanceAs (Decidable (p.row < q.row ∨ p.row = q.row ∧ p.col < q.col))

theorem lt_irrefl (p : Position) : ¬p < p := by
  rw [lt_def]; omega

theorem lt_trans {p q r : Position} (h : p < q) (h' : q < r) : p < r := by
  rw [lt_def] at *; omega

theorem lt_or_eq_or_gt (p q : Position) : p < q ∨ p = q ∨ q < p := by
  obtain ⟨r, c⟩ := p
  obtain ⟨r', c'⟩ := q
  simp only [lt_def, Position.mk.injEq]
  omega

/-! ## rectangles -/

/-- the interval between two numbers given in any order -/
def between (a b : Nat) : List Nat := (List.range (max a b + 1 - min a b)).map (min a b + ·)

theorem mem_between {a b n : Nat} : n ∈ between a b ↔ min a b ≤ n ∧ n ≤ max a b := by
  simp only [between, List.mem_map, List.mem_range]
  constructor
  · rintro ⟨i, hi, rfl⟩; omega
  · intro h; exact ⟨n - min a b, by omega, by omega⟩

def within (p a b : Position) : Bool :=
  min a.row b.row ≤ p.row && p.row ≤ max a.row b.row
    && min a.col b.col ≤ p.col && p.col ≤ max a.col b.col

def rect (a b : Position) : List Position :=
  (between a.row b.row).flatMap fun row => (between a.col b.col).map fun col => ⟨row, col⟩

end Position

end Worksheet
