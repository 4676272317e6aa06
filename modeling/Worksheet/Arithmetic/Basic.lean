/-!
# Arithmetic expressions

* `Arith`              the tree of an arithmetic expression over doubles;
* `Arith.eval`         its value.
-/

namespace Worksheet

inductive Arith where
  | number (x : Float)
  | neg (a : Arith)
  | add (a b : Arith)
  | sub (a b : Arith)
  | mul (a b : Arith)
  | div (a b : Arith)
  | pow (a b : Arith)
  deriving DecidableEq, Repr

def Arith.eval : Arith → Float
  | .number x => x
  | .neg a => -a.eval
  | .add a b => a.eval + b.eval
  | .sub a b => a.eval - b.eval
  | .mul a b => a.eval * b.eval
  | .div a b => a.eval / b.eval
  | .pow a b => a.eval.pow b.eval

end Worksheet
