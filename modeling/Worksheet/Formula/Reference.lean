import Worksheet.Formula.Call
import Worksheet.Formula.Fault
import Worksheet.Position.Label

/-!
# The cells that a call names

* `Shape`              one label, a list `A1, B2, C3`, or a range `A1:B3`;
* `Call.parts`         the texts of the arguments;
* `Call.corners?`      the two corners of a range;
* `Call.positions?`    the positions named, wherever they lie;
* `Call.targets`       the positions named, if a formula at a given place may read them all.
-/

namespace Worksheet

inductive Shape where
  | single
  | list
  | range
  deriving DecidableEq, Repr

namespace Call

/-- a body with both a colon and a comma counts as one label -/
def shape (c : Call) : Shape :=
  match c.body.contains ':', c.body.contains ',' with
  | true, false => .range
  | false, true => .list
  | _, _ => .single

def parts (c : Call) : List Text :=
  match c.shape with
  | .range => (c.body.splitOn ':').map Text.trim
  | .list => (c.body.splitOn ',').map Text.trim
  | .single => [Text.trim c.body]

def corners? (c : Call) : Option (Position × Position) :=
  match c.shape, c.parts with
  | .range, [a, b] => do return (← Position.ofLabel? a, ← Position.ofLabel? b)
  | _, _ => none

def positions? (c : Call) : Option (List Position) :=
  match c.shape with
  | .range => c.corners?.map fun (a, b) => Position.rect a b
  | _ => c.parts.mapM Position.ofLabel?

/-! ## validation -/

/-- the fault of a call that may not be wired -/
def refusal (c : Call) : Fault :=
  match c.shape with
  | .single => .invalidPosition
  | _ => .invalidPositions

/-- a label that stands for a cell of a sheet of `rows` by `cols` other than `origin` -/
def target? (origin : Position) (rows cols : Nat) (part : Text) : Option Position :=
  (Position.ofLabel? part).filter fun p => p.row < rows ∧ p.col < cols ∧ p ≠ origin

/-- Every part has to be a label inside the sheet and not the formula's own.  Of a range these are
the two corners, and the rectangle is not looked at. -/
def targets (c : Call) (origin : Position) (rows cols : Nat) : Except Fault (List Position) :=
  match c.shape, c.parts.mapM (target? origin rows cols) with
  | .range, some [a, b] => .ok (Position.rect a b)
  | .range, _ => .error c.refusal
  | _, some ps => .ok ps
  | _, none => .error c.refusal

end Call

end Worksheet
