import Worksheet.Text.Stretch

/-!
# Calls

A call is three letters, an opening bracket, a body and a closing bracket: `SUM(A1:B3)`.

* `Function`           what a call computes;
* `Function.ofHead?`   the function with a given name, in capitals;
* `Mode`               which texts are calls: strictly, a head of capitals and a body that runs up
                       to the first closing bracket; leniently, a head of letters and a body of
                       letters, digits, commas, colons, spaces and plus signs;
* `Call.scan`          the calls of a text, leftmost first, among the characters outside of them;
* `Call.spans`         where in the text each call stands.

The strict calls of a formula decide which cells it reads, the lenient ones are replaced by their
values.
-/

namespace Worksheet

/-! ## functions -/

inductive Function where
  | ref
  | sum
  | avg
  deriving DecidableEq, Repr

namespace Function

def name : Function → String
  | ref => "REF"
  | sum => "SUM"
  | avg => "AVG"

def description : Function → String
  | ref => "Value of a single referenced cell"
  | sum => "Sum of numeric values in a cell, list or range"
  | avg => "Average of numeric values in a cell, list or range"

def all : List Function := [ref, sum, avg]

theorem mem_all (f : Function) : f ∈ all := by cases f <;> decide

def ofHead? (head : Text) : Option Function := all.find? fun f => f.name.toList = head

end Function

/-! ## what is a call -/

inductive Mode where
  | strict
  | lenient
  deriving DecidableEq, Repr

namespace Mode

def acceptsHead : Mode → Char → Bool
  | strict, c => c.isUpper
  | lenient, c => c.isAlpha

def acceptsBody : Mode → Char → Bool
  | strict, c => c != ')'
  | lenient, c => c.isAlphanum || c == ',' || c == ':' || c == ' ' || c == '+'

end Mode

structure Call where
  head : Text
  body : Text
  deriving DecidableEq, Repr

namespace Call

def text (c : Call) : Text := c.head ++ '(' :: c.body ++ [')']

def function? (c : Call) : Option Function := Function.ofHead? c.head

/-- the call at the start of a text, with its length -/
def atStart? (mode : Mode) (_ : Option Char) : Text → Option (Call × Nat)
  | a :: b :: c :: '(' :: t =>
    if mode.acceptsHead a ∧ mode.acceptsHead b ∧ mode.acceptsHead c then
      let body := t.takeWhile mode.acceptsBody
      match t.dropWhile mode.acceptsBody with
      | ')' :: _ => some (⟨[a, b, c], body⟩, body.length + 5)
      | _ => none
    else none
  | _ => none

/-! ## the calls of a text -/

def scan (mode : Mode) (t : Text) : List (Stretch Call) := stretches (atStart? mode) t

def all (mode : Mode) (t : Text) : List Call := (scan mode t).filterMap Stretch.found?

/-- the text of a stretch -/
def source : Stretch Call → Text
  | .plain c => [c]
  | .found call => call.text

/-- the calls among stretches that begin at the byte `start`, each with its first byte and the
first byte after it -/
def spansFrom : Nat → List (Stretch Call) → List (Call × Nat × Nat)
  | _, [] => []
  | start, .plain c :: rest => spansFrom (start + c.utf8Size) rest
  | start, .found call :: rest =>
    let stop := start + Text.byteLength call.text
    (call, start, stop) :: spansFrom stop rest

def spans (mode : Mode) (t : Text) : List (Call × Nat × Nat) := spansFrom 0 (scan mode t)

end Call

end Worksheet
