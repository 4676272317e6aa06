import Worksheet.Cell

/-!
# Sheets

* `Sheet`              a grid of cell numbers, and the cells they stand for;
* `Sheet.blank`        a sheet of empty cells;
* `Sheet.idAt?`, `Sheet.cell?`, `Sheet.cellAt?`
                       the number of the cell at a position, the cell with a number, and the cell
                       at a position;
* `Sheet.places`       every position of the grid with the number there, in row-major order;
* `Sheet.modify`       a sheet with one cell changed;
* `Sheet.alloc`, `Sheet.retire`
                       a new cell, and a cell given up.

Readers are recorded by number, so a cell can move without its readers being told.  The numbers of
cells that are gone are given out again, the last one first.
-/

namespace Worksheet

structure Sheet where
  /-- the cells by their numbers; a number without a cell is vacant -/
  slots : Array (Option Cell)
  /-- the vacant numbers, the next one to be given out first -/
  vacant : List CellId
  /-- the numbers of the cells of each row -/
  grid : List (List CellId)
  /-- the number of columns, which a sheet has even if it has no rows -/
  width : Nat
  /-- the color of new cells -/
  defaultColor : Text
  deriving DecidableEq, Repr

namespace Sheet

/-! ## size and contents -/

def rows (s : Sheet) : Nat := s.grid.length
def cols (s : Sheet) : Nat := s.width

def contains (s : Sheet) (p : Position) : Bool := p.row < s.rows && p.col < s.cols

def idAt? (s : Sheet) (p : Position) : Option CellId := do
  let row ← s.grid[p.row]?
  row[p.col]?

def cell? (s : Sheet) (id : CellId) : Option Cell := s.slots[id]?.join

def cellAt? (s : Sheet) (p : Position) : Option Cell := (s.idAt? p).bind s.cell?

def places (s : Sheet) : List (Position × CellId) :=
  s.grid.zipIdx.flatMap fun (ids, row) => ids.zipIdx.map fun (id, col) => (⟨row, col⟩, id)

theorem mem_places {s : Sheet} {p : Position} {id : CellId} :
    (p, id) ∈ s.places ↔ s.idAt? p = some id := by
  obtain ⟨row, col⟩ := p
  simp only [places, idAt?, List.mem_flatMap, List.mem_map, Prod.exists,
    List.mk_mem_zipIdx_iff_getElem?, Prod.mk.injEq, Position.mk.injEq]
  constructor
  · rintro ⟨ids, r, hr, i, c, hc, ⟨rfl, rfl⟩, rfl⟩
    rw [hr]; exact hc
  · intro h
    obtain ⟨ids, hids, hid⟩ := Option.bind_eq_some_iff.mp h
    exact ⟨ids, row, hids, id, col, hid, ⟨rfl, rfl⟩, rfl⟩

/-! ## what is shown of a cell -/

def rawAt? (s : Sheet) (p : Position) : Option Text := (s.cellAt? p).map Cell.raw
def shownAt? (s : Sheet) (p : Position) : Option Text := (s.cellAt? p).map Cell.shown
def colorAt? (s : Sheet) (p : Position) : Option Text := (s.cellAt? p).map Cell.color

/-- the positions that the cell at `p` reads -/
def readsAt (s : Sheet) (p : Position) : List Position :=
  (s.cellAt? p).elim [] fun c => c.snapshot.keys

/-- the positions of the cells that read a cell, in the order in which they began to -/
def positionsOf (s : Sheet) (ids : List CellId) : List Position :=
  ids.filterMap fun id => (s.cell? id).map Cell.position

def observersAt (s : Sheet) (p : Position) : List Position :=
  (s.cellAt? p).elim [] fun c => s.positionsOf c.observers

/-- the contents of all cells, row by row -/
def rawRows (s : Sheet) : List (List Text) :=
  s.grid.map fun ids => ids.map fun id => (s.cell? id).elim [] Cell.raw

/-! ## building and changing sheets -/

def blank (width height : Nat) (color : Text) : Sheet where
  slots := ((List.range height).flatMap fun row =>
    (List.range width).map fun col => some (Cell.blank ⟨row, col⟩ color)).toArray
  vacant := []
  grid := (List.range height).map fun row => (List.range width).map fun col => row * width + col
  width := width
  defaultColor := color

def modify (s : Sheet) (id : CellId) (f : Cell → Cell) : Sheet :=
  { s with slots := s.slots.modify id (Option.map f) }

/-- a number for an empty cell at `p`, which the grid does not hold yet -/
def alloc (s : Sheet) (p : Position) : Sheet × CellId :=
  let cell := some (Cell.blank p s.defaultColor)
  match s.vacant with
  | id :: vacant => ({ s with slots := s.slots.setIfInBounds id cell, vacant := vacant }, id)
  | [] => ({ s with slots := s.slots.push cell }, s.slots.size)

def allocAll (s : Sheet) : List Position → Sheet × List CellId
  | [] => (s, [])
  | p :: ps =>
    let (s, id) := s.alloc p
    let (s, ids) := s.allocAll ps
    (s, id :: ids)

def retire (s : Sheet) (id : CellId) : Sheet :=
  match s.cell? id with
  | some _ => { s with slots := s.slots.setIfInBounds id none, vacant := id :: s.vacant }
  | none => s

theorem idAt?_modify (s : Sheet) (id : CellId) (f : Cell → Cell) (p : Position) :
    (s.modify id f).idAt? p = s.idAt? p := rfl

end Sheet

end Worksheet
