import Worksheet.Arithmetic.Parser
import Worksheet.Formula.Fault
import Worksheet.Number.Display

/-!
# Expressions without calls

What remains of a formula once every call has been replaced by its value is split at the operator
characters.  If every piece is a number it is arithmetic, if no piece is one it is text, and a
mixture of the two has no value.

* `number?`            the number that a value or a piece stands for: a blank one is zero;
* `Expression.classify` the kind of an expression;
* `Expression.arithmetic` the value of an arithmetic expression, rounded to three places;
* `Expression.concatenate` the text of a text expression: `+` joins its segments;
* `Expression.value`   the value of an expression.
-/

namespace Worksheet

def number? (t : Text) : Option Float :=
  match Text.trim t with
  | [] => some 0
  | c :: rest => (Decimal.parse? (c :: rest)).map Decimal.toFloat

namespace Expression

inductive Kind where
  | arithmetic
  | text
  | mixed
  deriving DecidableEq, Repr

def pieces (t : Text) : List Text := t.splitOnP isOperator

def classify (t : Text) : Kind :=
  if (pieces t).all fun p => (number? p).isSome then .arithmetic
  else if (pieces t).all fun p => (number? p).isNone then .text
  else .mixed

/-! ## arithmetic -/

/-- the number that a text which is arithmetic stands for, before rounding -/
def result? (t : Text) : Option Float := ((tokenize t).bind Arith.parse?).map Arith.eval

def arithmetic (t : Text) : Except Fault Text :=
  match result? t with
  | none => .error .invalidExpression
  | some x =>
    let rounded := Number.thousandths x
    match Binary.ofFloat rounded with
    | .infinite _ => .error .divideByZero
    | .nan => .error .zeroByZero
    | .finite .. => .ok (Number.format rounded)

/-! ## text -/

/-- a segment without blanks at its ends, and then without a quote at each end -/
def unquote (t : Text) : Text := Text.stripLast '"' (Text.stripFirst '"' (Text.trim t))

/-- a text with no `+` in it is kept as it is, quotes and all -/
def concatenate (t : Text) : Text :=
  match t.splitOn '+' with
  | [_] => t
  | segments => segments.flatMap unquote

/-! ## values -/

/-- the value of the text after the `=` of a formula -/
def value (body : Text) : Except Fault Text :=
  let t := Text.trim body
  if t = [] then .error .noFunction
  else match classify t with
    | .arithmetic => arithmetic t
    | .text => .ok (concatenate t)
    | .mixed => .error .typeMismatch

end Expression

end Worksheet
