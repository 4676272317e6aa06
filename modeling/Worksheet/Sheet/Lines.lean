import Worksheet.Sheet.Propagation

/-!
# Rows and columns put in and taken out

* `Axis`               rows or columns;
* `LineError`          a row or a column that there is not;
* `Sheet.line`         the cells of one row or column;
* `Sheet.relocate`     a cell moves, and the formulas that read it follow;
* `Sheet.insertLine`   an empty line before a given one, or after the last;
* `Sheet.deleteLine`   a line taken out.

Cells keep their numbers while they move.  They move one after the other, on insertion from the far
end towards the new line, on deletion from the old line to the far end, so that no label is ever
rewritten to one that has yet to be rewritten itself.

Lines are counted here by numbers without a bound.  A word of 64 bits can follow such a count up to
`maxCount`, so no word counts the line that is put in beyond it.
-/

namespace Worksheet

/-! ## axes -/

inductive Axis where
  | row
  | column
  deriving DecidableEq, Repr

/-- an index beyond the lines of a sheet, with their number -/
inductive LineError where
  | rowOutOfRange (index rows : Nat)
  | columnOutOfRange (index cols : Nat)
  deriving DecidableEq, Repr

namespace LineError

def message : LineError → String
  | rowOutOfRange index rows => s!"Row {index} is out of range (sheet has {rows} rows)"
  | columnOutOfRange index cols => s!"Column {index} is out of range (sheet has {cols} columns)"

end LineError

namespace Axis

/-- the coordinate along an axis -/
def coord : Axis → Position → Nat
  | row, p => p.row
  | column, p => p.col

def withCoord : Axis → Position → Nat → Position
  | row, p, n => { p with row := n }
  | column, p, n => { p with col := n }

theorem coord_withCoord (a : Axis) (p : Position) (n : Nat) : a.coord (a.withCoord p n) = n := by
  cases a <;> rfl

/-- the number of lines of a sheet -/
def count : Axis → Sheet → Nat
  | row, s => s.rows
  | column, s => s.cols

/-- the positions of a line of a sheet -/
def positions : Axis → Sheet → Nat → List Position
  | row, s, index => (List.range s.cols).map fun col => ⟨index, col⟩
  | column, s, index => (List.range s.rows).map fun row => ⟨row, index⟩

def outOfRange : Axis → Sheet → Nat → LineError
  | row, s, index => .rowOutOfRange index s.rows
  | column, s, index => .columnOutOfRange index s.cols

end Axis

namespace Sheet

/-! ## moving cells -/

def line (s : Sheet) (axis : Axis) (index : Nat) : List (Position × CellId) :=
  s.places.filter fun (p, _) => axis.coord p = index

/-- the lines from `index` on -/
def linesFrom (s : Sheet) (axis : Axis) (index : Nat) : List (List (Position × CellId)) :=
  (List.range' index (axis.count s - index)).map (s.line axis)

def relocate (s : Sheet) (id : CellId) (new : Position) : Sheet :=
  match s.cell? id with
  | none => s
  | some c =>
    (c.observers.foldl (fun s reader => s.modify reader (·.follow c.position new)) s).modify id
      fun c => { c with position := new }

/-- each of the cells moves along the axis to a place computed from its own -/
def shift (s : Sheet) (axis : Axis) (f : Nat → Nat) (cells : List (Position × CellId)) : Sheet :=
  cells.foldl (fun s (p, id) => s.relocate id (axis.withCoord p (f (axis.coord p)))) s

/-! ## insertion -/

/-- empty cells take the place of a line whose cells have moved away -/
def openLine (s : Sheet) (axis : Axis) (index : Nat) : Sheet :=
  let (s', ids) := s.allocAll (axis.positions s index)
  match axis with
  | .row => { s' with grid := s'.grid.insertIdx index ids }
  | .column =>
    { s' with
      grid := List.zipWith (fun row id => row.insertIdx index id) s'.grid ids
      width := s'.width + 1 }

/-- is a line between two corners, or in line with one? -/
def spans (axis : Axis) (index : Nat) (a b : Position) : Bool :=
  min (axis.coord a) (axis.coord b) ≤ index && index ≤ max (axis.coord a) (axis.coord b)

/-- the cells of a new line that lie in the ranges of a formula, each once -/
def newTargets (s : Sheet) (axis : Axis) (index : Nat) (id : CellId) (raw : Text) :
    List Position :=
  ((Call.all .strict raw).flatMap fun c =>
    match c.corners? with
    | some (a, b) =>
      if spans axis index a b then
        (Position.rect a b).filter fun p =>
          axis.coord p = index && s.contains p && s.idAt? p ≠ some id
      else []
    | none => []).eraseDups

/-- a formula that reads nothing is not extended -/
def extension (s : Sheet) (axis : Axis) (index : Nat) (id : CellId) :
    Option (CellId × List Position) := do
  let c ← s.cell? id
  if c.snapshot.isEmpty then none
  else
    let added := s.newTargets axis index id c.raw
    if added = [] then none else some (id, added)

/-- a formula reads more cells than before -/
def extend (s : Sheet) (id : CellId) (added : List Position) : Sheet :=
  let seeded := s.seed added
  ((s.attachAll id added).modify id fun c =>
    { c with snapshot := c.snapshot.extend seeded }.evaluate).notify id

/-- the formulas to extend are all found before the first is extended -/
def extendRanges (s : Sheet) (axis : Axis) (index : Nat) : Sheet :=
  (s.places.filterMap fun (_, id) => s.extension axis index id).foldl
    (fun s (id, added) => s.extend id added) s

def insertLine (s : Sheet) (axis : Axis) (index : Nat) : Except LineError Sheet :=
  if axis.count s < index then .error (axis.outOfRange s index)
  else
    let moved := (s.linesFrom axis index).reverse.flatten
    .ok (((s.shift axis (· + 1) moved).openLine axis index).extendRanges axis index)

/-! ## deletion -/

def closeLine (s : Sheet) (axis : Axis) (index : Nat) : Sheet :=
  match axis with
  | .row => { s with grid := s.grid.eraseIdx index }
  | .column =>
    { s with grid := s.grid.map fun row => row.eraseIdx index, width := s.width - 1 }

/-- a cell is given up; its readers come behind those already collected -/
def discard (s : Sheet) (orphans : List CellId) (id : CellId) : Sheet × List CellId :=
  let s := s.detachAll id
  (s.retire id, orphans ++ (s.cell? id).elim [] Cell.observers)

def deleteLine (s : Sheet) (axis : Axis) (index : Nat) : Except LineError Sheet :=
  if axis.count s ≤ index then .error (axis.outOfRange s index)
  else
    let removed := (s.line axis index).map Prod.snd
    let moved := (s.linesFrom axis (index + 1)).flatten
    let s := (s.shift axis (· - 1) moved).closeLine axis index
    let (s, orphans) := removed.foldl (fun (s, orphans) id => s.discard orphans id) (s, [])
    .ok (s.invalidateAll orphans)

end Sheet

end Worksheet
