import Worksheet.Toml.Number

/-!
# Strings in TOML

* `Toml.basic`         the rest of a string after `"`, with escapes;
* `Toml.literal`       the rest of a string after an apostrophe, without;
* `Toml.multiBasic`, `Toml.multiLiteral`
                       the rest of a string after three of either, over several lines;
* `Toml.quoted`        a string of any kind.

A string of several lines may end with one or two further quotes of its own before the closing
three, and a line break directly after the opening is dropped.
-/

namespace Worksheet.Toml

/-! ## escapes -/

def simpleEscape? : Char → Option Char
  | 'b' => some '\x08'
  | 't' => some '\t'
  | 'n' => some '\n'
  | 'f' => some '\x0c'
  | 'r' => some '\r'
  | '"' => some '"'
  | '\\' => some '\\'
  | _ => none

/-- the character whose code point is written with `n` hexadecimal digits -/
def codePoint (n : Nat) (t : Text) : Option (Char × Text) :=
  let digits := t.take n
  let v := valueOf 16 digits
  if digits.length = n ∧ digits.all (isDigitOf 16) ∧ v.isValidChar then
    some (Char.ofNat v, t.drop n)
  else none

/-- the character of an escape, after the backslash -/
def escape : Reader Char
  | 'u' :: t => codePoint 4 t
  | 'U' :: t => codePoint 8 t
  | c :: t => (simpleEscape? c).map fun c => (c, t)
  | [] => none

/-- one more character in front of a string -/
def prepend (c : Char) (r : Option (Text × Text)) : Option (Text × Text) :=
  r.map fun (s, t) => (c :: s, t)

/-! ## one line -/

/-- every step takes a character, so the length of the text bounds the steps -/
def basicFrom : Nat → Reader Text
  | 0, _ => none
  | _ + 1, '"' :: t => some ([], t)
  | n + 1, '\\' :: t => (escape t).bind fun (c, t) => prepend c (basicFrom n t)
  | n + 1, c :: t => if isPrintable c then prepend c (basicFrom n t) else none
  | _ + 1, [] => none

def basic (t : Text) : Option (Text × Text) := basicFrom t.length t

def literal (t : Text) : Option (Text × Text) :=
  let body := t.takeWhile fun c => isPrintable c && c != '\''
  (char '\'' (t.drop body.length)).map fun rest => (body, rest)

/-! ## several lines -/

/-- the blanks and line breaks after a backslash at the end of a line -/
def continuation? (t : Text) : Option Text :=
  (char '\n' (skipSpace t)).map fun t => t.dropWhile fun c => isSpace c || c == '\n'

/-- the end of a string of several lines: three quotes, after up to two that belong to it -/
def closing? (q : Char) (t : Text) : Option (Text × Text) :=
  let run := (t.takeWhile (· == q)).length
  if run < 3 then none
  else
    let own := min (run - 3) 2
    some (List.replicate own q, t.drop (own + 3))

def multiBasicFrom : Nat → Reader Text
  | 0, _ => none
  | _ + 1, [] => none
  | n + 1, '"' :: t =>
    match closing? '"' ('"' :: t) with
    | some r => some r
    | none => prepend '"' (multiBasicFrom n t)
  | n + 1, '\\' :: t =>
    match continuation? t with
    | some t => multiBasicFrom n t
    | none => (escape t).bind fun (c, t) => prepend c (multiBasicFrom n t)
  | n + 1, '\n' :: t => prepend '\n' (multiBasicFrom n t)
  | n + 1, c :: t => if isPrintable c then prepend c (multiBasicFrom n t) else none

def multiLiteralFrom : Nat → Reader Text
  | 0, _ => none
  | _ + 1, [] => none
  | n + 1, '\'' :: t =>
    match closing? '\'' ('\'' :: t) with
    | some r => some r
    | none => prepend '\'' (multiLiteralFrom n t)
  | n + 1, '\n' :: t => prepend '\n' (multiLiteralFrom n t)
  | n + 1, c :: t => if isPrintable c then prepend c (multiLiteralFrom n t) else none

def multiLine (body : Nat → Reader Text) (t : Text) : Option (Text × Text) :=
  let t := (char '\n' t).getD t
  body t.length t

/-! ## strings of any kind -/

def quoted : Reader Text
  | '"' :: '"' :: '"' :: t => multiLine multiBasicFrom t
  | '\'' :: '\'' :: '\'' :: t => multiLine multiLiteralFrom t
  | '"' :: t => basic t
  | '\'' :: t => literal t
  | _ => none

end Worksheet.Toml
