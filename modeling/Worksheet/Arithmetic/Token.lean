import Worksheet.Number.Decimal
import Worksheet.Text.Stretch

/-!
# Tokens of arithmetic

* `Token`              a number, an operator sign or a bracket;
* `isOperator`         the characters that are tokens by themselves;
* `numeral?`           the number that a text starts with;
* `tokenize`           the tokens of a text.

Between tokens only a space, a tab, a line feed and a carriage return may stand.  A numeral is a
maximal run of digits and points; an `e` belongs to it only if a digit follows directly, so the
signs of a text are always operators.
-/

namespace Worksheet

/-! ## tokens -/

/-- the two kinds of brackets, `( )` and `[ ]` -/
inductive Bracket where
  | round
  | square
  deriving DecidableEq, Repr

inductive Token where
  | number (x : Float)
  | plus
  | minus
  | star
  | slash
  | caret
  | opening (b : Bracket)
  | closing (b : Bracket)
  deriving DecidableEq, Repr

def Token.ofOperator? : Char → Option Token
  | '+' => some .plus
  | '-' => some .minus
  | '*' => some .star
  | '/' => some .slash
  | '^' => some .caret
  | '(' => some (.opening .round)
  | ')' => some (.closing .round)
  | '[' => some (.opening .square)
  | ']' => some (.closing .square)
  | _ => none

def isOperator (c : Char) : Bool := (Token.ofOperator? c).isSome

/-! ## numerals -/

/-- an `e` with the digits after it, if there are any -/
def numeralTail : Text → Text
  | c :: t =>
    let digits := t.takeWhile Char.isDigit
    if (c = 'e' ∨ c = 'E') ∧ digits ≠ [] then c :: digits else []
  | [] => []

/-- the numeral at the start of a text, with its length -/
def numeral? (_ : Option Char) (t : Text) : Option (Text × Nat) :=
  let isBody := fun c : Char => c.isDigit || c == '.'
  let body := t.takeWhile isBody
  if body = [] then none
  else
    let lexeme := body ++ numeralTail (t.dropWhile isBody)
    some (lexeme, lexeme.length)

/-! ## the tokens of a text -/

/-- a numeral with two points, or with no digit, is not a number -/
def Token.ofStretch? : Stretch Text → Option (List Token)
  | .found lexeme => (Decimal.parse? lexeme).map fun d => [.number d.toFloat]
  | .plain c =>
    if c = ' ' ∨ c = '\t' ∨ c = '\n' ∨ c = '\r' then some []
    else (Token.ofOperator? c).map fun t => [t]

def tokenize (t : Text) : Option (List Token) :=
  ((stretches numeral? t).mapM Token.ofStretch?).map List.flatten

end Worksheet
