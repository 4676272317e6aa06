import Worksheet.Text.Basic

/-!
# Decimal numbers as they are typed

* `Decimal`            `± digits * 10 ^ exp`;
* `Decimal.parse?`     reads a sign, digits with at most one point, and an exponent;
* `Decimal.toFloat`    the nearest double.

A decimal needs a digit before its exponent, on either side of the point, and an exponent needs
a digit too: `5.`, `.5` and `+1.5e-3` are decimals, `.`, `1e` and `1e+` are not.
-/

namespace Worksheet

structure Decimal where
  negative : Bool
  digits : Nat
  exp : Int
  deriving DecidableEq, Repr

namespace Decimal

/-! ## reading -/

/-- a leading sign, and the text after it -/
def sign : Text → Bool × Text
  | '-' :: t => (true, t)
  | '+' :: t => (false, t)
  | t => (false, t)

/-- the exponent part of a decimal: nothing, or `e` with a signed run of digits -/
def exponent? : Text → Option Int
  | [] => some 0
  | c :: t =>
    let (negative, digits) := sign t
    if (c = 'e' ∨ c = 'E') ∧ digits ≠ [] ∧ digits.all Char.isDigit then
      let n := Nat.ofDigitChars 10 digits 0
      some (if negative then -n else n)
    else none

/-- the digits after a leading point, and the text after them -/
def fraction : Text → Text × Text
  | '.' :: t => (t.takeWhile Char.isDigit, t.dropWhile Char.isDigit)
  | t => ([], t)

def parse? (t : Text) : Option Decimal :=
  let (negative, t) := sign t
  let whole := t.takeWhile Char.isDigit
  let (places, t) := fraction (t.dropWhile Char.isDigit)
  if whole = [] ∧ places = [] then none
  else (exponent? t).map fun e => ⟨negative, Nat.ofDigitChars 10 (whole ++ places) 0, e - places.length⟩

/-! ## the nearest double -/

/-- Every non-zero decimal of at least `10 ^ 400` is nearest to infinity, and every one below
`10 ^ (-400)` to zero, so that no power of ten beyond is ever computed. -/
def magnitude (d : Decimal) : Float :=
  let order := (Nat.toDigits 10 d.digits).length + d.exp
  if d.digits = 0 ∨ order < -400 then 0
  else if 400 < order then 1 / 0
  else Float.ofScientific d.digits (d.exp < 0) d.exp.natAbs

def toFloat (d : Decimal) : Float := if d.negative then -d.magnitude else d.magnitude

end Decimal

end Worksheet
