/-!
# The exact value of a double

* `Binary`             a double taken apart: not a number, infinite, or `± mant * 2 ^ exp`;
* `Binary.ofFloat`     the parts of a double, read off its bits;
* `floor`              the greatest integral double that is not above a double.
-/

namespace Worksheet

/-! ## parts -/

inductive Binary where
  | nan
  | infinite (negative : Bool)
  | finite (negative : Bool) (mant : Nat) (exp : Int)
  deriving DecidableEq, Repr

namespace Binary

/-- subnormal numbers have the exponent of the smallest normal ones and no leading bit -/
def ofBits (bits : Nat) : Binary :=
  let negative := bits / Nat.pow 2 63 % 2 == 1
  let field : Nat := bits / Nat.pow 2 52 % Nat.pow 2 11
  let fraction : Nat := bits % Nat.pow 2 52
  if field = 2047 then
    if fraction = 0 then .infinite negative else .nan
  else if field = 0 then .finite negative fraction (-1074)
  else .finite negative (Nat.pow 2 52 + fraction) (field - 1075)

def ofFloat (x : Float) : Binary := ofBits x.toBits.toNat

end Binary

/-! ## rounding down -/

/-- an integral double, and one that is not a finite number, is its own floor -/
def floor (x : Float) : Float :=
  match Binary.ofFloat x with
  | .finite negative mant exp =>
    let unit := Nat.pow 2 (-exp).toNat
    if mant % unit = 0 then x
    else if negative then -Float.ofNat (mant / unit + 1)
    else Float.ofNat (mant / unit)
  | _ => x

end Worksheet
