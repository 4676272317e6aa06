import Worksheet.Number.Binary

/-!
# The shortest decimal that reads back

* `RoundingInterval`   the reals that round to one positive double, over a common denominator;
* `order`              the power of ten of the leading digit of the double;
* `candidate?`         the decimal with a given number of digits that lies in the interval;
* `shortest`           the decimal with the fewest digits that lies in the interval, and of those
                       the nearest to the double.

A grid of decimals that has a point in the interval has one of the two neighbours of the double
there, so only these two are looked at.  If both are equally near, the greater one is taken.
-/

namespace Worksheet

/-! ## rounding intervals -/

/-- the double is `mid / den`, and the reals between `low / den` and `high / den` round to it,
the two ends included if `closed` -/
structure RoundingInterval where
  low : Nat
  mid : Nat
  high : Nat
  den : Nat
  closed : Bool
  deriving DecidableEq, Repr

namespace RoundingInterval

/-- The interval reaches half way to the neighbours of `mant * 2 ^ exp`.  Below a power of two
the neighbour is nearer by half, except at the smallest normal number.  Ties in rounding go to the
even mantissa, so the ends belong to the interval of an even one. -/
def ofParts (mant : Nat) (exp : Int) : RoundingInterval :=
  let scale := Nat.pow 2 (exp - 2).toNat
  let below := if mant = Nat.pow 2 52 ∧ exp ≠ -1074 then 1 else 2
  { low := (4 * mant - below) * scale
    mid := 4 * mant * scale
    high := (4 * mant + 2) * scale
    den := Nat.pow 2 (2 - exp).toNat
    closed := mant % 2 == 0 }

/-- no double is below `10 ^ (-400)`, so the quotient is not zero -/
def order (r : RoundingInterval) : Int :=
  (Nat.toDigits 10 (r.mid * Nat.pow 10 400 / r.den)).length - 401

/-- does `n * 10 ^ exp` lie in the interval? -/
def contains (r : RoundingInterval) (n : Nat) (exp : Int) : Bool :=
  let x := n * Nat.pow 10 exp.toNat * r.den
  let low := r.low * Nat.pow 10 (-exp).toNat
  let high := r.high * Nat.pow 10 (-exp).toNat
  if r.closed then low ≤ x && x ≤ high else low < x && x < high

/-- the neighbours of the double on the grid of the multiples of `10 ^ exp`: the lower one, and
whether the double is at least as near to the upper one -/
def neighbour (r : RoundingInterval) (exp : Int) : Nat × Bool :=
  let num := r.mid * Nat.pow 10 (-exp).toNat
  let den := r.den * Nat.pow 10 exp.toNat
  (num / den, den ≤ 2 * (num % den))

def candidate? (r : RoundingInterval) (digits : Nat) : Option (Nat × Int) :=
  let exp := r.order - (digits - 1 : Nat)
  let (n, up) := r.neighbour exp
  match r.contains n exp, r.contains (n + 1) exp with
  | true, true => some (if up then n + 1 else n, exp)
  | true, false => some (n, exp)
  | false, true => some (n + 1, exp)
  | false, false => none

end RoundingInterval

/-! ## the shortest decimal -/

/-- Seventeen digits always suffice for a double. -/
def shortest (mant : Nat) (exp : Int) : Nat × Int :=
  let r := RoundingInterval.ofParts mant exp
  ((List.range 17).findSome? fun i => r.candidate? (i + 1)).getD (0, 0)

end Worksheet
