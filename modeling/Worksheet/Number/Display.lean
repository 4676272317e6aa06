import Worksheet.Text.Basic
import Worksheet.Number.Shortest

/-!
# Numbers as they are shown

* `Layout`             where positional notation ends;
* `Layout.render`      the text of a decimal, digits and exponent;
* `Number.layout`      the layout of every number that a sheet shows;
* `Number.format`      the text of a double;
* `Number.thousandths` a double rounded to three places, halves upward.
-/

namespace Worksheet

/-! ## layout -/

/-- a number whose leading digit stands at `10 ^ e` is positional if `least ≤ e < bound` -/
structure Layout where
  least : Int
  bound : Int
  deriving DecidableEq, Repr

namespace Layout

/-- digits with the point behind the digit of `10 ^ 0`, where `lead` is the power of ten of the
first digit -/
def positional (digits : Text) (lead : Int) : Text :=
  let whole := (lead + 1).toNat
  if lead < 0 then '0' :: '.' :: List.replicate (-lead - 1).toNat '0' ++ digits
  else if digits.length ≤ whole then digits ++ List.replicate (whole - digits.length) '0'
  else digits.take whole ++ '.' :: digits.drop whole

/-- one digit, a point if there are more, and an exponent that always has its sign -/
def scientific (digits : Text) (lead : Int) : Text :=
  let mantissa := match digits with
    | c :: d :: rest => c :: '.' :: d :: rest
    | short => short
  mantissa ++ 'e' :: (if lead < 0 then '-' else '+') :: Nat.toDigits 10 lead.natAbs

/-- the text of `n * 10 ^ exp` for a positive `n`; zeros at the end of `n` are not kept -/
def render (l : Layout) (n : Nat) (exp : Int) : Text :=
  let all := Nat.toDigits 10 n
  let lead := exp + all.length - 1
  let digits := (all.reverse.dropWhile (· == '0')).reverse
  if l.least ≤ lead ∧ lead < l.bound then positional digits lead else scientific digits lead

end Layout

/-! ## numbers -/

namespace Number

/-- Numbers from `0.000001` up to, but not including, `1e+21` are positional. -/
def layout : Layout := ⟨-6, 21⟩

/-- a minus sign for the negative numbers; zero has none -/
def signed (negative : Bool) (t : Text) : Text := if negative then '-' :: t else t

def format (x : Float) : Text :=
  match Binary.ofFloat x with
  | .nan => "NaN".toList
  | .infinite negative => signed negative "Infinity".toList
  | .finite negative mant exp =>
    if mant = 0 then ['0']
    else
      let (n, e) := shortest mant exp
      signed negative (layout.render n e)

def thousandths (x : Float) : Float := floor (x * 1000 + 0.5) / 1000

end Number

end Worksheet
