import Worksheet.Command.Execution
import Worksheet.Program.Options
import Worksheet.Settings

/-!
# A run of the program

* `usage`              what is printed when help is asked for;
* `Outcome`            what a run prints, and its exit code;
* `scriptLines`        the commands in an input, one per line, without blank lines and comments;
* `Options.run`        a new sheet, and the commands carried out on it up to the first that fails;
* `program`            a run with its arguments, the source of its settings and its input.
-/

namespace Worksheet

/-! ## what is printed -/

def unlines (ts : List Text) : Text := ts.flatMap fun t => t ++ ['\n']

def usageLines : List String := [
  "Usage: cellgrid [OPTIONS]",
  "",
  "Runs sheet commands given with -c, or one per line from stdin.",
  "",
  "Options:",
  "  -c, --command <CMD>       Run a command (can be repeated)",
  "  --config <FILE>           Load sheet settings from TOML file",
  "  --rows <N>                Number of rows (overrides config)",
  "  --cols <N>                Number of columns (overrides config)",
  "  -h, --help                Print help",
  "",
  "Commands:",
  "  set <CELL> <content>      Write content, e.g. set B1 = SUM(A1:A3)",
  "  clear <CELL>              Empty a cell",
  "  get <CELL>                Print the evaluated value",
  "  raw <CELL>                Print the raw content",
  "  color <CELL> [<hex>]      Print or set the color",
  "  insert-row <N>            Insert an empty row above row N",
  "  delete-row <N>            Delete row N",
  "  insert-col <COL>          Insert an empty column left of COL",
  "  delete-col <COL>          Delete column COL",
  "  filter <CELL> [<value>]   List values under a header, or matching cells",
  "  matrix                    Print all raw content, tab separated",
  "  functions                 List built-in functions",
  "  size                      Print ROWSxCOLS"]

def usage : Text := unlines (usageLines.map String.toList)

structure Outcome where
  stdout : Text
  stderr : Text
  code : UInt32
  deriving DecidableEq, Repr

def errorLine (message : Text) : Text := unlines ["Error: ".toList ++ message]

def warningLines (messages : List Text) : Text :=
  unlines (messages.map fun m => "Warning: ".toList ++ m)

/-- an unknown option is answered with the usage as well -/
def UsageError.outcome (e : UsageError) : Outcome :=
  match e with
  | unknownOption _ => ⟨[], errorLine e.message ++ usage, 1⟩
  | _ => ⟨[], errorLine e.message, 1⟩

/-! ## commands from an input -/

def scriptLines (input : Text) : List Text :=
  ((input.splitOn '\n').map Text.trim).filter fun line => line ≠ [] ∧ line.head? ≠ some '#'

/-- The input is read only if there are no commands among the options; `none` stands for an input
that is not UTF-8. -/
def Options.script? (o : Options) (input : Option Text) : Option (List Text) :=
  if o.commands = [] then input.map scriptLines else some o.commands

/-! ## runs -/

def Options.settings (o : Options) (s : Settings) : Settings :=
  { s with width := o.cols.getD s.width, height := o.rows.getD s.height }

def Settings.sheet (s : Settings) : Sheet := Sheet.blank s.width s.height s.color

/-- the outcome of commands on a new sheet -/
def Settings.run (s : Settings) (warnings : Text) (lines : List Text) : Outcome :=
  match script s.sheet lines with
  | (out, none) => ⟨unlines out, warnings, 0⟩
  | (out, some (line, e)) =>
    ⟨unlines out, warnings ++ errorLine (line ++ ": ".toList ++ e.message), 1⟩

def unreadableInput : Text :=
  "Failed to read commands from stdin: stream did not contain valid UTF-8".toList

def Options.run (o : Options) (source : Option SettingsSource) (input : Option Text) : Outcome :=
  let (settings, warnings) := source.elim (.standard, []) Settings.load
  match o.script? input with
  | none => ⟨[], warningLines warnings ++ errorLine unreadableInput, 1⟩
  | some lines => (o.settings settings).run (warningLines warnings) lines

def program (arguments : List Text) (source : Option SettingsSource) (input : Option Text) :
    Outcome :=
  match Invocation.parse arguments with
  | .error e => e.outcome
  | .ok .help => ⟨[], usage, 0⟩
  | .ok (.run o) => o.run source input

end Worksheet
