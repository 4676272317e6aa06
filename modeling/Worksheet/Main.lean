import Worksheet.Program.Run

/-!
# The program

Reads what a run needs, and prints its outcome.
-/

namespace Worksheet

/-! ## files -/

/-- the path of the user's own settings, in the directory for configuration -/
def userSettingsPath? : IO (Option String) := do
  let directory ← match ← IO.getEnv "XDG_CONFIG_HOME" with
    | some d => if d.startsWith "/" then pure (some d) else homeDirectory
    | none => homeDirectory
  return directory.map fun d => d ++ "/cellgrid/config.toml"
where
  homeDirectory : IO (Option String) := do
    match ← IO.getEnv "HOME" with
    | some d => return if d.isEmpty then none else some (d ++ "/.config")
    | none => return none

def settingsFile (path : String) : IO SettingsFile := do
  match ← (IO.FS.readBinFile path).toBaseIO with
  | .ok bytes => return .contents bytes
  | .error (.noFileOrDirectory ..) => return .missing
  | .error _ => return .unreadable

/-- the file that the options name, or else the user's own -/
def settingsSource (o : Options) : IO (Option SettingsSource) := do
  match o.config with
  | some path => return some ⟨path, ← settingsFile (String.ofList path), true⟩
  | none =>
    match ← userSettingsPath? with
    | some path => return some ⟨path.toList, ← settingsFile path, false⟩
    | none => return none

/-! ## a run -/

def input : IO (Option Text) := do
  let bytes ← (← IO.getStdin).readBinToEnd
  return (String.fromUTF8? bytes).map String.toList

end Worksheet

open Worksheet in
def main (arguments : List String) : IO UInt32 := do
  let arguments := arguments.map String.toList
  let outcome ← match Invocation.parse arguments with
    | .ok (.run o) => do
      let source ← settingsSource o
      let input ← if o.commands.isEmpty then input else pure none
      pure (program arguments source input)
    | _ => pure (program arguments none none)
  IO.print (String.ofList outcome.stdout)
  IO.eprint (String.ofList outcome.stderr)
  return outcome.code
