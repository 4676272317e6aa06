import Worksheet.Sheet.Basic

/-!
# Values and the loss of values on their way to the readers

* `Sheet.notify`       the value of a cell reaches all cells that read it, and theirs, depth first;
* `Sheet.detachAll`    a cell reads nothing any more;
* `Sheet.attachAll`    a cell begins to read the cells at given positions;
* `Sheet.seed`         the values now shown at given positions;
* `Sheet.invalidateAll` cells that read something that is gone, and all that read them, lose their
                       content.
-/

namespace Worksheet

namespace Sheet

/-! ## values -/

/-- each reader takes the value and passes its own on before the next reader is reached -/
def push : Nat → Sheet → CellId → Sheet
  | 0, s, _ => s
  | depth + 1, s, id =>
    match s.cell? id with
    | none => s
    | some c =>
      c.observers.foldl
        (fun s reader => push depth (s.modify reader (·.receive c.position c.shown)) reader) s

/-- No cell reads itself, directly or through others, so that a chain of readers has no more
members than there are cells. -/
def notify (s : Sheet) (id : CellId) : Sheet := push s.slots.size s id

/-! ## reading and ceasing to read -/

def detachFrom (s : Sheet) (p : Position) (reader : CellId) : Sheet :=
  match s.idAt? p with
  | some id => s.modify id (·.detach reader)
  | none => s

def detachAll (s : Sheet) (id : CellId) : Sheet :=
  match s.cell? id with
  | some c =>
    c.snapshot.keys.foldl (fun s p => s.detachFrom p id)
      (s.modify id fun c => { c with snapshot := ∅ })
  | none => s

def attachTo (s : Sheet) (p : Position) (reader : CellId) : Sheet :=
  match s.idAt? p with
  | some id => s.modify id (·.attach reader)
  | none => s

def attachAll (s : Sheet) (id : CellId) (targets : List Position) : Sheet :=
  targets.foldl (fun s p => s.attachTo p id) s

def seed (s : Sheet) (targets : List Position) : Snapshot :=
  .ofList (targets.filterMap fun p => (s.shownAt? p).map fun v => (p, v))

/-! ## loss of content -/

/-- `work` holds the numbers still to be looked at; those in `seen` have been -/
def invalidateFrom : Nat → List CellId → List CellId → Sheet → Sheet
  | 0, _, _, s => s
  | _ + 1, _, [], s => s
  | steps + 1, seen, id :: work, s =>
    if id ∈ seen then invalidateFrom steps seen work s
    else
      let s := s.detachAll id
      match s.cell? id with
      | some c =>
        invalidateFrom steps (id :: seen) (c.observers.reverse ++ work) (s.modify id Cell.invalidate)
      | none => invalidateFrom steps (id :: seen) work s

/-- how many entries the lists of readers have together -/
def observerCount (s : Sheet) : Nat :=
  (s.slots.toList.map fun slot => slot.elim 0 fun c => c.observers.length).foldr (· + ·) 0

/-- The last number of `start` is looked at first.  The readers of a cell are put on the work list
once at most, which bounds the steps. -/
def invalidateAll (s : Sheet) (start : List CellId) : Sheet :=
  invalidateFrom (start.length + s.observerCount) [] start.reverse s

end Sheet

end Worksheet
