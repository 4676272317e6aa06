import Worksheet.Text.Basic

/-!
# Options of the program

* `Flag`               the options that take a value;
* `Options`            what the options ask for;
* `Invocation`         a request for help, or options to run with;
* `UsageError`         why arguments cannot be understood, and `UsageError.message`;
* `Invocation.parse`   arguments read from left to right, up to the first request for help or the
                       first error.
-/

namespace Worksheet

/-! ## flags -/

inductive Flag where
  | command
  | config
  | rows
  | cols
  deriving DecidableEq, Repr

namespace Flag

def name : Flag → String
  | command => "--command"
  | config => "--config"
  | rows => "--rows"
  | cols => "--cols"

def shortName? : Flag → Option String
  | command => some "-c"
  | _ => none

/-- what has to follow a flag -/
def value : Flag → String
  | command => "a command"
  | config => "a file path"
  | rows => "a number"
  | cols => "a number"

def all : List Flag := [command, config, rows, cols]

def ofArgument? (t : Text) : Option Flag :=
  all.find? fun f => f.name.toList = t ∨ f.shortName?.map String.toList = some t

theorem ofArgument?_name (f : Flag) : ofArgument? f.name.toList = some f := by cases f <;> decide

end Flag

def asksForHelp (t : Text) : Bool := t == "-h".toList || t == "--help".toList

/-! ## errors -/

inductive UsageError where
  | missingValue (f : Flag)
  | notANumber (f : Flag) (value : Text)
  | unknownOption (argument : Text)
  deriving DecidableEq, Repr

def UsageError.message : UsageError → Text
  | missingValue f => (f.name ++ " requires " ++ f.value).toList
  | notANumber f value => (f.name ++ " expects a number, got ").toList ++ value
  | unknownOption argument => "Unknown option: ".toList ++ argument

/-! ## options -/

structure Options where
  /-- the commands to carry out, in their order -/
  commands : List Text
  /-- the path of a file with settings -/
  config : Option Text
  rows : Option Nat
  cols : Option Nat
  deriving DecidableEq, Repr

def Options.empty : Options := ⟨[], none, none, none⟩

def Flag.count (f : Flag) (value : Text) : Except UsageError Nat :=
  (Text.count? value).elim (.error (.notANumber f value)) .ok

/-- of several values for one flag the last one holds, but commands add up -/
def Options.add (o : Options) (value : Text) : Flag → Except UsageError Options
  | .command => .ok { o with commands := o.commands ++ [value] }
  | .config => .ok { o with config := some value }
  | .rows => (Flag.rows.count value).map fun n => { o with rows := some n }
  | .cols => (Flag.cols.count value).map fun n => { o with cols := some n }

inductive Invocation where
  | help
  | run (o : Options)
  deriving DecidableEq, Repr

namespace Invocation

def parseFrom (o : Options) : List Text → Except UsageError Invocation
  | [] => .ok (.run o)
  | argument :: arguments =>
    if asksForHelp argument then .ok .help
    else
      match Flag.ofArgument? argument, arguments with
      | none, _ => .error (.unknownOption argument)
      | some f, [] => .error (.missingValue f)
      | some f, value :: arguments => (o.add value f).bind fun o => parseFrom o arguments

def parse (arguments : List Text) : Except UsageError Invocation := parseFrom .empty arguments

end Invocation

end Worksheet
