import Worksheet.Formula.Evaluation
import Worksheet.Formula.Relabel

/-!
# Cells

* `Cell`               content as it was written, what it shows, its color, the values it reads
                       and the cells that read it;
* `Cell.attach`, `Cell.detach`
                       another cell begins or ceases to read this one;
* `Cell.receive`       a cell that this one reads has a new value;
* `Cell.follow`        a cell that this one reads has moved;
* `Cell.invalidate`    a cell that this one reads is gone.

A cell never looks into other cells: what it shows is computed from its content and its snapshot.
-/

namespace Worksheet

/-- a cell keeps its number while it moves -/
abbrev CellId := Nat

structure Cell where
  position : Position
  raw : Text
  shown : Text
  color : Text
  snapshot : Snapshot
  observers : List CellId
  deriving DecidableEq, Repr

namespace Cell

def blank (position : Position) (color : Text) : Cell := ⟨position, [], [], color, ∅, []⟩

def isFormula (c : Cell) : Bool := (Text.trimStart c.raw).head? == some '='

/-! ## readers -/

/-- a cell that already reads this one keeps its place in the order -/
def attach (c : Cell) (id : CellId) : Cell :=
  if id ∈ c.observers then c else { c with observers := c.observers ++ [id] }

def detach (c : Cell) (id : CellId) : Cell :=
  { c with observers := c.observers.filter (· ≠ id) }

/-! ## content -/

def evaluate (c : Cell) : Cell := { c with shown := Worksheet.evaluate c.raw c.snapshot }

def receive (c : Cell) (source : Position) (v : Text) : Cell :=
  { c with snapshot := c.snapshot.insert source v }.evaluate

def follow (c : Cell) (old new : Position) : Cell :=
  { c with raw := relabel old new c.raw, snapshot := c.snapshot.move old new }.evaluate

def invalidate (c : Cell) : Cell :=
  { c with raw := Fault.invalidReference.text, snapshot := ∅ }.evaluate

end Cell

end Worksheet
