import Worksheet.Text.Basic

/-!
# What a cell shows instead of a value

* `Fault`              the reasons why content has no value;
* `Fault.text`         the text that is shown for each.
-/

namespace Worksheet

inductive Fault where
  | invalidPosition
  | invalidPositions
  | circularReference
  | invalidReference
  | sumOfText
  | averageOfText
  | divideByZero
  | zeroByZero
  | typeMismatch
  | noFunction
  | invalidFunction
  | invalidExpression
  deriving DecidableEq, Repr

namespace Fault

def message : Fault → String
  | invalidPosition => "ERROR: invalid cell position"
  | invalidPositions => "ERROR: invalid cell positions"
  | circularReference => "ERROR: circular reference failed to set content"
  | invalidReference => "ERROR: invalid reference."
  | sumOfText => "ERROR: SUM cannot perform on non-numbers"
  | averageOfText => "ERROR: AVG cannot perform on non-numbers"
  | divideByZero => "ERROR: Divide By Zero"
  | zeroByZero => "ERROR: Zero divided By Zero"
  | typeMismatch => "ERROR: Type mismatch"
  | noFunction => "ERROR: No function given after ="
  | invalidFunction => "ERROR: Invalid function."
  | invalidExpression => "ERROR: Invalid expression"

def text (f : Fault) : Text := f.message.toList

/-- the text that a result is shown as -/
def shown : Except Fault Text → Text
  | .ok t => t
  | .error f => f.text

theorem shown_ok (t : Text) : shown (.ok t) = t := rfl
theorem shown_error (f : Fault) : shown (.error f) = f.text := rfl

end Fault

end Worksheet
