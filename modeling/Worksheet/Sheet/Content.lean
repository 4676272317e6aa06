import Worksheet.ReadGraph
import Worksheet.Sheet.Propagation

/-!
# Writing content

* `Sheet.readGraph`    which positions the cell at each position reads;
* `Sheet.targets`      the positions that content at a given place would read, if it may;
* `Sheet.set`          content is written to a cell.

A write has one of three outcomes.  Content with a call that may not be wired is stored, reads
nothing and shows the fault.  Content that would close a cycle is not stored: the cell only shows
the fault.  Any other content is stored, wired and evaluated.  A new value is passed on to the
readers of the cell in the first and the last case.
-/

namespace Worksheet

namespace Sheet

/-! ## the graph of a sheet -/

theorem readsAt_eq_nil {s : Sheet} {p : Position} (h : p ∉ s.places.map Prod.fst) :
    s.readsAt p = [] := by
  cases hid : s.idAt? p with
  | none => rw [readsAt, cellAt?, hid]; rfl
  | some id => exact absurd (List.mem_map.mpr ⟨(p, id), mem_places.mpr hid, rfl⟩) h

def readGraph (s : Sheet) : ReadGraph where
  reads := s.readsAt
  readers := s.places.map Prod.fst
  reads_eq_nil _ h := readsAt_eq_nil h

/-! ## writing -/

/-- the positions named by the strict calls, each once, in the order in which they are named; the
first call that may not be wired decides the fault -/
def targets (s : Sheet) (origin : Position) (content : Text) : Except Fault (List Position) :=
  ((Call.all .strict content).mapM fun (c : Call) => c.targets origin s.rows s.cols).map fun ps =>
    ps.flatten.eraseDups

/-- would a cell at `origin` read itself, directly or through others? -/
def closesCycle (s : Sheet) (origin : Position) (targets : List Position) : Bool :=
  targets.any fun target => (s.readGraph.findCycle origin target).isSome

/-- content that reads nothing and shows a fault -/
def reject (s : Sheet) (id : CellId) (content : Text) (f : Fault) : Sheet :=
  (s.detachAll id).modify id fun c => { c with raw := content, shown := f.text }

/-- content that reads `targets` -/
def rewire (s : Sheet) (id : CellId) (content : Text) (targets : List Position) : Sheet :=
  let s := s.detachAll id
  (s.attachAll id targets).modify id fun c =>
    { c with raw := content, snapshot := s.seed targets }.evaluate

/-- a position outside of the sheet is left alone -/
def set (s : Sheet) (origin : Position) (content : Text) : Sheet :=
  match s.idAt? origin with
  | none => s
  | some id =>
    match s.targets origin content with
    | .error f => (s.reject id content f).notify id
    | .ok targets =>
      if s.closesCycle origin targets then
        s.modify id fun c => { c with shown := Fault.circularReference.text }
      else (s.rewire id content targets).notify id

def clear (s : Sheet) (p : Position) : Sheet := s.set p []

def recolor (s : Sheet) (p : Position) (color : Text) : Sheet :=
  match s.idAt? p with
  | some id => s.modify id fun c => { c with color := color }
  | none => s

end Sheet

end Worksheet
