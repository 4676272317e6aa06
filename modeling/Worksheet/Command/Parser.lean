import Worksheet.Command.Basic

/-!
# Command lines

A line is a verb, a space and the arguments, with blanks allowed around the line and around the
arguments.

* `splitLabel`         the first word of the arguments, and the rest of them without blanks around;
* `Command.parse`      the command that a line stands for.
-/

namespace Worksheet

/-! ## arguments -/

def splitLabel (arguments : Text) : Text × Text :=
  match Text.cut ' ' arguments with
  | (label, some rest) => (label, Text.trim rest)
  | (label, none) => (label, [])

def nonEmpty (t : Text) : Option Text := if t = [] then none else some t

def label (verb : Verb) (t : Text) : Except CommandError Position :=
  if t = [] then .error (.missingArgument verb .label)
  else (Position.ofLabel? t).elim (.error (.invalidLabel t)) .ok

/-- a label and nothing after it -/
def onlyLabel (verb : Verb) (arguments : Text) : Except CommandError Position :=
  match splitLabel arguments with
  | (t, []) => label verb t
  | (_, rest) => .error (.unexpectedArgument verb rest)

/-- the index of a row, whose number is counted from one -/
def rowIndex (verb : Verb) (t : Text) : Except CommandError Nat :=
  if t = [] then .error (.missingArgument verb .row)
  else match Text.count? t with
    | some (n + 1) => .ok n
    | _ => .error (.invalidRow t)

def columnIndex (verb : Verb) (t : Text) : Except CommandError Nat :=
  if t = [] then .error (.missingArgument verb .column)
  else (Column.ofLetters? t).elim (.error (.invalidColumn t)) .ok

def noArguments (verb : Verb) (arguments : Text) (c : Command) : Except CommandError Command :=
  if arguments = [] then .ok c else .error (.unexpectedArgument verb arguments)

/-! ## lines -/

/-- the command of a verb with its arguments -/
def Command.ofArguments (verb : Verb) (arguments : Text) : Except CommandError Command :=
  match verb with
  | .set => do
    let (t, content) := splitLabel arguments
    return .set (← label verb t) content
  | .clear => .clear <$> onlyLabel verb arguments
  | .get => .get <$> onlyLabel verb arguments
  | .raw => .raw <$> onlyLabel verb arguments
  | .color => do
    let (t, new) := splitLabel arguments
    return .color (← label verb t) (nonEmpty new)
  | .insertRow => .insertRow <$> rowIndex verb arguments
  | .deleteRow => .deleteRow <$> rowIndex verb arguments
  | .insertColumn => .insertColumn <$> columnIndex verb arguments
  | .deleteColumn => .deleteColumn <$> columnIndex verb arguments
  | .filter => do
    let (t, value) := splitLabel arguments
    return .filter (← label verb t) (nonEmpty value)
  | .matrix => noArguments verb arguments .matrix
  | .functions => noArguments verb arguments .functions
  | .size => noArguments verb arguments .size

def Command.parse (line : Text) : Except CommandError Command :=
  let (name, rest) := Text.cut ' ' (Text.trim line)
  match Verb.ofName? name with
  | some verb => Command.ofArguments verb (Text.trim (rest.getD []))
  | none => .error (.unknownCommand name)

end Worksheet
