import Worksheet.Position.Label
import Worksheet.Text.Stretch

/-!
# Labels that move

* `labelAt?`           is the label of a position written at this place, standing alone?
* `relabel`            a text with the label of one position replaced by that of another.

A label stands alone if no letter comes before it and no digit after it, so that `A1` is not part of
`AA1` or `A10`.  Letters are compared without regard to case, and the new label has capitals.
-/

namespace Worksheet

def labelAt? (p : Position) (before : Option Char) (t : Text) : Option (Unit × Nat) :=
  let n := p.label.length
  if (t.take n).map Char.toUpper = p.label ∧ before.all (!·.isAlpha)
      ∧ (t.drop n).head?.all (!·.isDigit) then
    some ((), n)
  else none

def relabel (old new : Position) (t : Text) : Text :=
  (stretches (labelAt? old) t).flatMap fun
    | .plain c => [c]
    | .found () => new.label

end Worksheet
