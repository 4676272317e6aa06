import Worksheet.Command.Parser
import Worksheet.Sheet.Content
import Worksheet.Sheet.Filter

/-!
# Commands carried out

* `Edit`               what works on a sheet in place;
* `Edit.on`            what comes of it, and the sheet that it leaves;
* `Edit.insertLine`, `Edit.deleteLine`
                       a line put in and taken out, one step after the other;
* `Command.execute`    the lines that a command prints;
* `runLine`            a line read and carried out;
* `session`            lines carried out one after the other, whether they fail or not;
* `script`             lines carried out up to the first that fails.

An error does not take back what has been changed before it.
-/

namespace Worksheet

/-! ## in place -/

abbrev Edit (ε : Type) := ExceptT ε (StateM Sheet)

namespace Edit

variable {ε α : Type}

def on (e : Edit ε α) (s : Sheet) : Except ε α × Sheet := Id.run ((ExceptT.run e).run s)

def insertLine (axis : Axis) (index : Nat) : Edit LineError Unit := do
  let s ← get
  if axis.count s < index then throw (axis.outOfRange s index)
  modify fun s => s.shift axis (· + 1) (s.linesFrom axis index).reverse.flatten
  modify fun s => s.openLine axis index
  modify fun s => s.extendRanges axis index

/-- a cell is given up; its readers come behind those already collected -/
def discard (orphans : List CellId) (id : CellId) : Edit ε (List CellId) :=
  modifyGet fun s => (s.discard orphans id).swap

def deleteLine (axis : Axis) (index : Nat) : Edit LineError Unit := do
  let s ← get
  if axis.count s ≤ index then throw (axis.outOfRange s index)
  modify fun s => s.shift axis (· - 1) (s.linesFrom axis (index + 1)).flatten
  modify fun s => s.closeLine axis index
  let orphans ← ((s.line axis index).map Prod.snd).foldlM discard []
  modify fun s => s.invalidateAll orphans

end Edit

/-! ## one command -/

/-- a position outside of the sheet is an error -/
def inside (p : Position) : Edit CommandError Unit := do
  if !(← get).contains p then throw (.outOfBounds p)

/-- the cell at a position is changed -/
def edited (p : Position) (f : Sheet → Sheet) : Edit CommandError (List Text) := do
  inside p
  modify f
  return []

/-- what is found below a position is printed -/
def listed (p : Position) (read : Sheet → List Text) : Edit CommandError (List Text) := do
  inside p
  return read (← get)

/-- a property of the cell at a position is printed -/
def printed (p : Position) (read : Sheet → Option Text) : Edit CommandError (List Text) := do
  match read (← get) with
  | some t => return [t]
  | none => throw (.outOfBounds p)

/-- the lines of the sheet are changed -/
def resized (e : Edit LineError Unit) : Edit CommandError (List Text) := do
  e.adapt .line
  return []

/-- what the whole sheet has to say is printed -/
def answered (read : Sheet → List Text) : Edit CommandError (List Text) := do
  return read (← get)

def Function.summary (f : Function) : Text := (f.name ++ " - " ++ f.description).toList

def Sheet.sizeText (s : Sheet) : Text :=
  Nat.toDigits 10 s.rows ++ 'x' :: Nat.toDigits 10 s.cols

def Command.execute : Command → Edit CommandError (List Text)
  | .set p content => edited p fun s => s.set p content
  | .clear p => edited p fun s => s.clear p
  | .get p => printed p fun s => s.shownAt? p
  | .raw p => printed p fun s => s.rawAt? p
  | .color p none => printed p fun s => s.colorAt? p
  | .color p (some new) => edited p fun s => s.recolor p new
  | .insertRow index => resized (Edit.insertLine .row index)
  | .deleteRow index => resized (Edit.deleteLine .row index)
  | .insertColumn index => resized (Edit.insertLine .column index)
  | .deleteColumn index => resized (Edit.deleteLine .column index)
  | .filter p none => listed p fun s => s.filterValues p
  | .filter p (some value) =>
    listed p fun s => (s.filterRows p value).map fun row => Position.label ⟨row, p.col⟩
  | .matrix => answered fun s => s.rawRows.map fun row => ['\t'].intercalate row
  | .functions => answered fun _ => Function.all.map Function.summary
  | .size => answered fun s => [s.sizeText]

def runLine (line : Text) : Edit CommandError (List Text) := do
  let c ← liftExcept (Command.parse line)
  c.execute

/-! ## many lines -/

/-- what each line prints, or its error, and the sheet in the end -/
def session (s : Sheet) : List Text → List (Except CommandError (List Text)) × Sheet
  | [] => ([], s)
  | line :: lines =>
    let (out, s) := (runLine line).on s
    let (outs, s) := session s lines
    (out :: outs, s)

/-- what is printed, and the line that failed with its error, if one did -/
def script (s : Sheet) : List Text → List Text × Option (Text × CommandError)
  | [] => ([], none)
  | line :: lines =>
    match (runLine line).on s with
    | (.ok out, s) =>
      let (outs, failure) := script s lines
      (out ++ outs, failure)
    | (.error e, _) => ([], some (line, e))

end Worksheet
