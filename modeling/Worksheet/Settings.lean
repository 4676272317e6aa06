import Worksheet.Toml.Document

/-!
# Settings of a new sheet

* `Settings`           how many rows and columns a new sheet has, and the color of its cells;
* `Settings.ofEntries?` the settings that a TOML document gives; what it does not mention stays
                       as in `Settings.standard`;
* `SettingsFile`       what stands at the path of a file;
* `SettingsFile.read`  the settings of a file, or what is wrong with it;
* `Settings.load`      the settings to start with, and the warnings; a file with anything wrong in
                       it is not used at all.
-/

namespace Worksheet

/-! ## settings -/

structure Settings where
  width : Nat
  height : Nat
  color : Text
  deriving DecidableEq, Repr

namespace Settings

def standard : Settings := ⟨30, 30, "#FFFFFF".toList⟩

/-- a number of rows or columns -/
def count? : Toml.Value → Option Nat
  | .integer (.ofNat n) => some n
  | _ => none

def color? : Toml.Value → Option Text
  | .string t => some t
  | _ => none

/-- the value of a key, if what stands there is of the right kind -/
def entry? {α : Type} (es : Toml.Entries) (key : String) (kind : Toml.Value → Option α)
    (default : α) : Option α :=
  (es.get? key.toList).elim (some default) kind

/-- keys of other names are passed over -/
def ofEntries? (es : Toml.Entries) : Option Settings := do
  let width ← entry? es "width" count? standard.width
  let height ← entry? es "height" count? standard.height
  let color ← entry? es "default_color" color? standard.color
  return ⟨width, height, color⟩

end Settings

/-! ## files -/

inductive SettingsFile where
  | missing
  | unreadable
  | contents (bytes : ByteArray)

inductive SettingsError where
  | notFound
  | tooLarge (bytes : Nat)
  | unreadable
  | malformed
  deriving DecidableEq, Repr

def SettingsError.message (path : Text) : SettingsError → Text
  | notFound => "Config file not found: ".toList ++ path
  | tooLarge bytes =>
    "Refusing to read ".toList ++ path ++ ": file too large (".toList ++ Nat.toDigits 10 bytes
      ++ " bytes)".toList
  | unreadable => "Failed to read ".toList ++ path
  | malformed => "Failed to parse ".toList ++ path

/-- larger files are not looked into -/
def SettingsFile.maxBytes : Nat := 64 * 1024

def SettingsFile.read : SettingsFile → Except SettingsError Settings
  | missing => .error .notFound
  | unreadable => .error .unreadable
  | contents bytes =>
    if maxBytes < bytes.size then .error (.tooLarge bytes.size)
    else match String.fromUTF8? bytes with
      | none => .error .unreadable
      | some s => ((Toml.parse? s.toList).bind Settings.ofEntries?).elim (.error .malformed) .ok

/-! ## where to start -/

/-- Where settings are looked for: in a file that was asked for, or in the user's own file, which
need not exist. -/
structure SettingsSource where
  path : Text
  file : SettingsFile
  required : Bool

def Settings.load (source : SettingsSource) : Settings × List Text :=
  match source.file.read with
  | .ok settings => (settings, [])
  | .error e =>
    (standard,
      if e = .notFound ∧ ¬ source.required then [] else [e.message source.path])

end Worksheet
