import Worksheet.Toml.Quoted
import Worksheet.Toml.Table

/-!
# TOML documents

* `Toml.key`           a dotted path of keys;
* `Toml.value`         a value, with limited nesting;
* `Toml.Document`      the entries read so far, and the header that further ones belong to;
* `Toml.parse?`        the entries of a whole document.

Arrays and tables within values may be nested 79 deep, and a path has 79 keys at most.
-/

namespace Worksheet.Toml

/-! ## keys -/

def isBare (c : Char) : Bool := c.isAlphanum || c == '-' || c == '_'

def simpleKey : Reader Text
  | '"' :: t => basic t
  | '\'' :: t => literal t
  | t =>
    let body := t.takeWhile isBare
    if body = [] then none else some (body, t.dropWhile isBare)

def keyFrom : Nat → Reader (List Text)
  | 0, _ => none
  | n + 1, t => do
    let (k, t) ← simpleKey (skipSpace t)
    match skipSpace t with
    | '.' :: t => (keyFrom n t).map fun (ks, t) => (k :: ks, t)
    | t => some ([k], t)

/-- the keys before the last one, and the last one -/
def key (t : Text) : Option ((List Text × Text) × Text) :=
  (keyFrom 79 t).map fun (ks, t) => ((ks.dropLast, ks.getLastD []), t)

/-! ## values -/

/-- the elements of an array after its opening bracket or a comma -/
def elements (element : Reader Value) : Nat → Reader (List Value)
  | 0, _ => none
  | n + 1, t => do
    match ← trivia? t with
    | ']' :: t => some ([], t)
    | t =>
      let (v, t) ← element t
      match ← trivia? t with
      | ',' :: t => (elements element n t).map fun (vs, t) => (v :: vs, t)
      | ']' :: t => some ([v], t)
      | _ => none

/-- the entries of a table in one line, of which there is one at least -/
def pairs (element : Reader Value) : Nat → Entries → Reader Entries
  | 0, _, _ => none
  | n + 1, es, t => do
    let ((path, k), t) ← key t
    let (v, t) ← element (skipSpace (← char '=' t))
    let es ← define path k v es
    match skipSpace t with
    | ',' :: t => pairs element n es t
    | '}' :: t => some (es, t)
    | _ => none

/-- a moment starts with a digit, as a number does -/
def scalar (t : Text) : Option (Value × Text) :=
  match t with
  | 't' :: 'r' :: 'u' :: 'e' :: t => some (.boolean true, t)
  | 'f' :: 'a' :: 'l' :: 's' :: 'e' :: t => some (.boolean false, t)
  | '"' :: _ | '\'' :: _ => (quoted t).map fun (s, t) => (.string s, t)
  | _ =>
    (((moment t).map fun (s, t) => (Value.moment s, t)).or
      ((float t).map fun (x, t) => (.float x, t))).or
      ((integer t).map fun (n, t) => (.integer n, t))

/-- a value in which arrays and tables are nested `depth` deep at most -/
def value : Nat → Reader Value
  | depth + 1, '[' :: t =>
    (elements (value depth) (t.length + 1) t).map fun (vs, t) => (.array vs, t)
  | depth + 1, '\x7b' :: t =>
    match skipSpace t with
    | '}' :: t => some (.inlineTable [], t)
    | t => (pairs (value depth) (t.length + 1) [] t).map fun (es, t) => (.inlineTable es, t)
  | _, t => scalar t

/-! ## lines -/

structure Document where
  entries : Entries
  header : List Text

namespace Document

def empty : Document := ⟨[], []⟩

/-- one entry, up to the end of its line -/
def entry (d : Document) (t : Text) : Option (Document × Text) := do
  let ((path, k), t) ← key t
  let (v, t) ← value 79 (skipSpace (← char '=' t))
  let t ← endOfLine? t
  return ({ d with entries := ← defineUnder d.header path k v d.entries }, t)

/-- a header after its first bracket, up to the end of its line -/
def headerLine (d : Document) : Text → Option (Document × Text)
  | '[' :: t => do
    let ((path, k), t) ← key t
    let t ← endOfLine? (← char ']' (← char ']' t))
    return (⟨← openElement path k d.entries, path ++ [k]⟩, t)
  | t => do
    let ((path, k), t) ← key t
    let t ← endOfLine? (← char ']' t)
    return (⟨← openTable path k d.entries, path ++ [k]⟩, t)

/-- every line takes a character, so the length of the text bounds the steps -/
def linesFrom : Nat → Document → Text → Option Document
  | 0, d, t => if skipSpace t = [] then some d else none
  | n + 1, d, t =>
    match skipSpace t with
    | [] => some d
    | '\n' :: t => linesFrom n d t
    | '#' :: t => (endOfLine? ('#' :: t)).bind (linesFrom n d)
    | '[' :: t => (d.headerLine t).bind fun (d, t) => linesFrom n d t
    | t => (d.entry t).bind fun (d, t) => linesFrom n d t

end Document

/-- a byte order mark at the start is passed over -/
def parse? (t : Text) : Option Entries :=
  let t := unixLines (Text.stripFirst '\ufeff' t)
  (Document.linesFrom t.length .empty t).map Document.entries

end Worksheet.Toml
