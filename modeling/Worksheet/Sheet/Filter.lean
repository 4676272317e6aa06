import Worksheet.Sheet.Basic

/-!
# The block of values below a header

* `Sheet.block`        the rows below a header down to the first that shows nothing, with what they
                       show;
* `Sheet.filterValues` the values of the block, each once;
* `Sheet.filterRows`   the rows of the block that show a given value.
-/

namespace Worksheet

namespace Sheet

/-- a header outside of the sheet has nothing below it -/
def block (s : Sheet) (header : Position) : List (Nat × Text) :=
  if s.contains header then
    ((List.range' (header.row + 1) (s.rows - (header.row + 1))).map fun row =>
      (row, (s.shownAt? ⟨row, header.col⟩).getD [])).takeWhile fun (_, v) => v ≠ []
  else []

def filterValues (s : Sheet) (header : Position) : List Text :=
  ((s.block header).map Prod.snd).eraseDups

def filterRows (s : Sheet) (header : Position) (v : Text) : List Nat :=
  ((s.block header).filter fun (_, w) => w = v).map Prod.fst

end Sheet

end Worksheet
