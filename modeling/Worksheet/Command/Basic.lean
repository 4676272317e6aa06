import Worksheet.Sheet.Lines

/-!
# Commands

* `Verb`               the first word of a command line;
* `Command`            a command with its arguments;
* `CommandError`       why a line is not a command, or a command cannot be carried out;
* `CommandError.message` what is printed for it.
-/

namespace Worksheet

/-! ## verbs -/

inductive Verb where
  | set
  | clear
  | get
  | raw
  | color
  | insertRow
  | deleteRow
  | insertColumn
  | deleteColumn
  | filter
  | matrix
  | functions
  | size
  deriving DecidableEq, Repr

namespace Verb

def name : Verb → String
  | set => "set"
  | clear => "clear"
  | get => "get"
  | raw => "raw"
  | color => "color"
  | insertRow => "insert-row"
  | deleteRow => "delete-row"
  | insertColumn => "insert-col"
  | deleteColumn => "delete-col"
  | filter => "filter"
  | matrix => "matrix"
  | functions => "functions"
  | size => "size"

def all : List Verb :=
  [set, clear, get, raw, color, insertRow, deleteRow, insertColumn, deleteColumn, filter, matrix,
    functions, size]

theorem mem_all (v : Verb) : v ∈ all := by cases v <;> decide

def ofName? (t : Text) : Option Verb := all.find? fun v => v.name.toList = t

end Verb

/-! ## commands -/

/-- rows and columns are counted from zero here, and from one in a command line -/
inductive Command where
  | set (p : Position) (content : Text)
  | clear (p : Position)
  | get (p : Position)
  | raw (p : Position)
  | color (p : Position) (new : Option Text)
  | insertRow (index : Nat)
  | deleteRow (index : Nat)
  | insertColumn (index : Nat)
  | deleteColumn (index : Nat)
  | filter (p : Position) (value : Option Text)
  | matrix
  | functions
  | size
  deriving DecidableEq, Repr

/-! ## errors -/

/-- what may be missing from a command line -/
inductive Argument where
  | label
  | row
  | column
  deriving DecidableEq, Repr

def Argument.description : Argument → String
  | label => "a cell label"
  | row => "a row number"
  | column => "column letters"

inductive CommandError where
  | unknownCommand (verb : Text)
  | missingArgument (verb : Verb) (what : Argument)
  | unexpectedArgument (verb : Verb) (argument : Text)
  | invalidLabel (label : Text)
  | outOfBounds (p : Position)
  | invalidRow (number : Text)
  | invalidColumn (letters : Text)
  | line (e : LineError)
  deriving DecidableEq, Repr

def CommandError.message : CommandError → Text
  | unknownCommand verb => "Unknown command: ".toList ++ verb
  | missingArgument verb what => (verb.name ++ " requires " ++ what.description).toList
  | unexpectedArgument verb argument =>
    ("Unexpected argument to " ++ verb.name ++ ": ").toList ++ argument
  | invalidLabel label => "Invalid cell label: ".toList ++ label
  | outOfBounds p => "Cell ".toList ++ p.label ++ " is outside the sheet".toList
  | invalidRow number => "Invalid row number: ".toList ++ number
  | invalidColumn letters => "Invalid column letters: ".toList ++ letters
  | line e => e.message.toList

end Worksheet
