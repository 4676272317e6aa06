import Worksheet.Position.Basic

/-!
# Labels

A position is written as column letters followed by a row number: `A1`, `b2`, `AA10`.

* `Column.ofLetters?`  the column that letters of either case stand for;
* `Column.letters`     the capital letters of a column;
* `Position.label`     the label of a position;
* `Position.ofLabel?`  the position that a label stands for.

Columns are numbered in bijective base 26: the letters `A` to `Z` are the digits 1 to 26, there is
no digit zero, and every column has exactly one spelling up to case.  Leading zeros of the row
number are read and not written.
-/

namespace Worksheet

/-! ## column letters -/

namespace Column

/-- the digit of a letter, 1 to 26 -/
def digit (c : Char) : Nat := c.toUpper.toNat - 64

/-- the value of a run of letters in bijective base 26 -/
def value (t : Text) : Nat := t.foldl (fun n c => 26 * n + digit c) 0

/-- the column of a non-empty run of letters whose value does not exceed `maxCount` -/
def ofLetters? (t : Text) : Option Nat :=
  if t ≠ [] ∧ t.all Char.isAlpha ∧ value t ≤ maxCount then some (value t - 1) else none

/-- the letters with a given value -/
def spell (n : Nat) : Text :=
  if n = 0 then [] else spell ((n - 1) / 26) ++ [Char.ofNat (65 + (n - 1) % 26)]
termination_by n
decreasing_by omega

def letters (col : Nat) : Text := spell (col + 1)

end Column

/-! ## labels of positions -/

namespace Position

def label (p : Position) : Text := Column.letters p.col ++ Nat.toDigits 10 (p.row + 1)

/-- letters, then digits, and nothing else; row numbers start at one -/
def ofLabel? (t : Text) : Option Position :=
  match Column.ofLetters? (t.takeWhile Char.isAlpha), Text.digits? (t.dropWhile Char.isAlpha) with
  | some col, some (row + 1) => some ⟨row, col⟩
  | _, _ => none

end Position

end Worksheet
