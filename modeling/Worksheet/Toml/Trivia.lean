import Worksheet.Text.Basic

/-!
# Between the tokens of a TOML document

* `Toml.Reader`        takes something from the front of a text and leaves the rest;
* `Toml.isPrintable`   the characters that may stand in a comment or a string;
* `Toml.unixLines`     a text with `LF` for every `CR LF`, the two line breaks of a document;
* `Toml.endOfLine?`    blanks, a comment and the end of a line or of the document;
* `Toml.trivia?`       any number of blanks, comments and line breaks.
-/

namespace Worksheet.Toml

abbrev Reader (α : Type) := Text → Option (α × Text)

/-- a tab, and all characters that are no control characters of ASCII -/
def isPrintable (c : Char) : Bool := c == '\t' || (0x20 ≤ c.toNat && c.toNat != 0x7F)

def isSpace (c : Char) : Bool := c == ' ' || c == '\t'

def skipSpace (t : Text) : Text := t.dropWhile isSpace

/-- a `CR` alone stays, and is no part of any token -/
def unixLines : Text → Text
  | '\r' :: '\n' :: t => '\n' :: unixLines t
  | c :: t => c :: unixLines t
  | [] => []

def char (c : Char) : Text → Option Text
  | [] => none
  | d :: t => if d = c then some t else none

/-! ## the end of a line -/

def skipComment : Text → Text
  | '#' :: t => t.dropWhile isPrintable
  | t => t

def endOfLine? (t : Text) : Option Text :=
  match skipComment (skipSpace t) with
  | [] => some []
  | t => char '\n' t

/-! ## several lines -/

/-- a comment has to end with its line here -/
def triviaFrom : (comment : Bool) → Text → Option Text
  | true, [] => none
  | false, [] => some []
  | _, '\n' :: t => triviaFrom false t
  | true, c :: t => if isPrintable c then triviaFrom true t else none
  | false, '#' :: t => triviaFrom true t
  | false, c :: t => if isSpace c then triviaFrom false t else some (c :: t)

def trivia? (t : Text) : Option Text := triviaFrom false t

end Worksheet.Toml
