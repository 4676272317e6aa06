import Worksheet.Text.Basic

/-!
# Occurrences in a text, leftmost first and without overlaps

* `Stretch`            one character left as it is, or one occurrence that was recognised;
* `stretches`          a text cut into stretches: at every place not yet covered an occurrence is
                       taken if there is one, otherwise a single character is passed over;
* `Stretch.found?`     the occurrence of a stretch.

The test for an occurrence sees the character before it and tells how many characters the
occurrence has.  An occurrence covers the characters it has, so the walk is along the text itself.
-/

namespace Worksheet

inductive Stretch (α : Type) where
  | plain (c : Char)
  | found (a : α)
  deriving DecidableEq, Repr

def Stretch.found? {α : Type} : Stretch α → Option α
  | .plain _ => none
  | .found a => some a

section
variable {α : Type} (occurs : Option Char → Text → Option (α × Nat))

/-- the stretches of a text whose first `covered` characters belong to an earlier occurrence -/
def stretchesFrom : Option Char → Nat → Text → List (Stretch α)
  | _, _, [] => []
  | _, covered + 1, c :: t => stretchesFrom (some c) covered t
  | before, 0, c :: t =>
    match occurs before (c :: t) with
    | some (a, length) => .found a :: stretchesFrom (some c) (length - 1) t
    | none => .plain c :: stretchesFrom (some c) 0 t

def stretches (t : Text) : List (Stretch α) := stretchesFrom occurs none 0 t

end

end Worksheet
