import Worksheet.Text.Basic

/-!
# Tables of a TOML document

* `Toml.Value`         what a key can stand for;
* `Toml.Origin`        how a table came about, which decides what may still be added to it;
* `Toml.within`        a change made in the table at a path of keys, with the tables on the way;
* `Toml.define`        a key with its value, put into the table at a dotted path;
* `Toml.openTable`, `Toml.openElement`
                       the table, or the next table of an array, that a header announces.
-/

namespace Worksheet.Toml

/-! ## values -/

inductive Origin where
  /-- announced by a header of its own, or the root -/
  | header
  /-- only the beginning of a longer header so far -/
  | path
  /-- the beginning of a dotted key -/
  | dotted
  deriving DecidableEq, Repr

inductive Value where
  | string (t : Text)
  | integer (n : Int)
  | float (x : Float)
  | boolean (b : Bool)
  | moment (t : Text)
  | array (items : List Value)
  /-- a table written in one line, complete as it stands -/
  | inlineTable (entries : List (Text × Value))
  | table (origin : Origin) (entries : List (Text × Value))
  /-- tables with one header, the latest last -/
  | tables (items : List (List (Text × Value)))

abbrev Entries := List (Text × Value)

namespace Entries

def get? (es : Entries) (key : Text) : Option Value := (es.find? fun e => e.1 = key).map Prod.snd

/-- the value of a key that there is, replaced -/
def replace (es : Entries) (key : Text) (v : Value) : Entries :=
  es.map fun e => if e.1 = key then (key, v) else e

end Entries

/-! ## changes in a table further down -/

/-- A path leads through tables, and through the last table of an array; tables that are not there
are made.  A dotted path does not lead through a table that has a header. -/
def within (dotted : Bool) (change : Origin → Entries → Option Entries) :
    Origin → List Text → Entries → Option Entries
  | origin, [], es => change origin es
  | _, key :: path, es =>
    match es.get? key with
    | none =>
      let origin := if dotted then .dotted else .path
      (within dotted change origin path []).map fun sub => es ++ [(key, .table origin sub)]
    | some (.table origin sub) =>
      if dotted ∧ origin = .header then none
      else
        (within dotted change origin path sub).map fun sub => es.replace key (.table origin sub)
    | some (.tables items) => do
      let last ← items.getLast?
      let last ← within dotted change .header path last
      return es.replace key (.tables (items.dropLast ++ [last]))
    | some _ => none

/-- a key has one value, and a dotted key does not reach into a table with a header -/
def define (path : List Text) (key : Text) (v : Value) (es : Entries) : Option Entries :=
  within true (fun origin es =>
    if (path ≠ [] ∧ origin ≠ .dotted) ∨ (es.get? key).isSome then none
    else some (es ++ [(key, v)])) .header path es

/-! ## headers -/

/-- only a table that has been no more than a part of longer headers can be announced -/
def openTable (path : List Text) (key : Text) (es : Entries) : Option Entries :=
  within false (fun _ es =>
    match es.get? key with
    | none => some (es ++ [(key, .table .header [])])
    | some (.table .path sub) => some (es.replace key (.table .header sub))
    | some _ => none) .header path es

def openElement (path : List Text) (key : Text) (es : Entries) : Option Entries :=
  within false (fun _ es =>
    match es.get? key with
    | none => some (es ++ [(key, .tables [[]])])
    | some (.tables items) => some (es.replace key (.tables (items ++ [[]])))
    | some _ => none) .header path es

/-- a key with its value, put into the table of the current header -/
def defineUnder (header path : List Text) (key : Text) (v : Value) (es : Entries) :
    Option Entries :=
  within false (fun _ es => define path key v es) .header header es

end Worksheet.Toml
