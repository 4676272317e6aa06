import Worksheet.Formula.Expression
import Worksheet.Formula.Reference
import Worksheet.Snapshot

/-!
# The value of content

* `Call.values`        the values that a call finds in a snapshot;
* `Call.result`        what stands for a call: the value read, a sum, a mean, or the call itself;
* `substitute`         a formula with every call replaced;
* `evaluate`           what content shows: a formula its value, anything else its own text.

A range looks only at positions that the snapshot has, so its size is bounded by what the cell
reads, however far apart its corners lie.
-/

namespace Worksheet

/-! ## values of calls -/

/-- a value as a call finds it: nothing counts as zero -/
def Snapshot.valueAt (s : Snapshot) (p : Position) : Text :=
  match s.get? p with
  | none | some [] => ['0']
  | some v => v

namespace Call

/-- arguments that are not labels have no values -/
def readPositions (c : Call) (s : Snapshot) : List Position :=
  match c.shape with
  | .range =>
    match c.corners? with
    | some (a, b) => s.keys.filter fun p => p.within a b
    | none => []
  | _ => c.positions?.getD []

def values (c : Call) (s : Snapshot) : List Text := (c.readPositions s).map s.valueAt

end Call

/-- the sum of values that are all numbers, from the left -/
def sum? (vs : List Text) : Option Float :=
  vs.foldlM (fun acc v => (number? v).map (acc + ·)) 0

/-- the text that stands for a call of a function on values, if it is replaced at all -/
def Function.apply (f : Function) (vs : List Text) : Except Fault (Option Text) :=
  match f with
  | .ref =>
    match vs with
    | [v] => .ok (some v)
    | _ => .ok none
  | .sum =>
    match sum? vs with
    | some x => .ok (some (Number.format x))
    | none => .error .sumOfText
  | .avg =>
    match sum? vs with
    | some x => .ok (some (Number.format (x / Float.ofNat vs.length)))
    | none => .error .averageOfText

def Call.result (c : Call) (s : Snapshot) : Except Fault Text :=
  match c.function? with
  | none => .error .invalidFunction
  | some f => (f.apply (c.values s)).map fun t => t.getD c.text

/-! ## values of formulas -/

/-- the text that stands for a stretch of a formula -/
def replacement (s : Snapshot) : Stretch Call → Except Fault Text
  | .plain c => .ok [c]
  | .found call => call.result s

/-- the first call without a value decides the fault -/
def substitute (t : Text) (s : Snapshot) : Except Fault Text :=
  ((Call.scan .lenient t).mapM (replacement s)).map List.flatten

def formulaValue (t : Text) (s : Snapshot) : Except Fault Text := do
  let t ← substitute t s
  Expression.value (Text.stripFirst '=' t)

def evaluate (raw : Text) (s : Snapshot) : Text :=
  let t := Text.trim raw
  if t.head? = some '=' then Fault.shown (formulaValue t s) else t

end Worksheet
