import Worksheet.Number.Binary
import Worksheet.Number.Decimal
import Worksheet.Toml.Trivia

/-!
# Numbers and moments in TOML

* `Toml.digitRun`      digits with single underscores between them;
* `Toml.integer`       a decimal, hexadecimal, octal or binary number of 64 bits;
* `Toml.float`         a number with a fraction or an exponent, or a special one;
* `Toml.moment`        a date, a time, or both.
-/

namespace Worksheet.Toml

/-! ## digits -/

/-- an underscore counts only if a digit follows -/
def digitRunRest (isDigit : Char → Bool) : Text → Text × Text
  | '_' :: d :: t =>
    if isDigit d then
      let (digits, rest) := digitRunRest isDigit t
      (d :: digits, rest)
    else ([], '_' :: d :: t)
  | d :: t =>
    if isDigit d then
      let (digits, rest) := digitRunRest isDigit t
      (d :: digits, rest)
    else ([], d :: t)
  | [] => ([], [])

/-- at least one digit, and a digit first -/
def digitRun (isDigit : Char → Bool) : Reader Text
  | d :: t => if isDigit d then some (digitRunRest isDigit (d :: t)) else none
  | [] => none

def sign : Text → Text × Text
  | '+' :: t => (['+'], t)
  | '-' :: t => (['-'], t)
  | t => ([], t)

/-- the whole part of a number: a zero, or digits of which the first is none -/
def wholePart : Reader Text
  | '0' :: t => some (['0'], t)
  | t => digitRun Char.isDigit t

/-! ## integers -/

def hexDigit? (c : Char) : Option Nat :=
  if c.isDigit then some (c.toNat - 48)
  else if 'a' ≤ c ∧ c ≤ 'f' then some (c.toNat - 87)
  else if 'A' ≤ c ∧ c ≤ 'F' then some (c.toNat - 55)
  else none

def isDigitOf (base : Nat) (c : Char) : Bool := (hexDigit? c).any fun d => d < base

def valueOf (base : Nat) (digits : Text) : Nat :=
  digits.foldl (fun n c => base * n + (hexDigit? c).getD 0) 0

def int64? (n : Int) : Option Int :=
  if -Int.pow 2 63 ≤ n ∧ n < Int.pow 2 63 then some n else none

/-- a number in another base has no sign -/
def based (base : Nat) : Reader Int := fun t => do
  let (digits, t) ← digitRun (isDigitOf base) t
  return (← int64? (valueOf base digits), t)

def integer : Reader Int
  | '0' :: 'x' :: t => based 16 t
  | '0' :: 'o' :: t => based 8 t
  | '0' :: 'b' :: t => based 2 t
  | t => do
    let (s, t) := sign t
    let (digits, t) ← wholePart t
    let n : Int := valueOf 10 digits
    return (← int64? (if s = ['-'] then -n else n), t)

/-! ## floating point numbers -/

def exponentPart : Reader Text
  | e :: t =>
    if e = 'e' ∨ e = 'E' then
      let (s, t) := sign t
      (digitRun Char.isDigit t).map fun (digits, t) => ('e' :: s ++ digits, t)
    else none
  | [] => none

def fractionPart : Reader Text
  | '.' :: t => (digitRun Char.isDigit t).map fun (digits, t) => ('.' :: digits, t)
  | _ => none

/-- a fraction, an exponent, or both -/
def floatTail (t : Text) : Option (Text × Text) :=
  match fractionPart t with
  | none => exponentPart t
  | some (places, t) =>
    match exponentPart t with
    | some (e, t) => some (places ++ e, t)
    | none => some (places, t)

def special : Reader Float
  | 'i' :: 'n' :: 'f' :: t => some (1 / 0, t)
  | 'n' :: 'a' :: 'n' :: t => some (0 / 0, t)
  | _ => none

/-- a number too great for a double is refused, one too small for a negative one is not -/
def float (t : Text) : Option (Float × Text) :=
  let (s, t) := sign t
  match wholePart t with
  | none => (special t).map fun (x, t) => (if s = ['-'] then -x else x, t)
  | some (whole, t) => do
    let (tail, t) ← floatTail t
    let x := (← Decimal.parse? (s ++ whole ++ tail)).toFloat
    if Binary.ofFloat x = .infinite false then none else some (x, t)

/-! ## dates and times -/

/-- exactly `n` digits -/
def fixed (n : Nat) (t : Text) : Option (Nat × Text) :=
  let digits := t.take n
  if digits.length = n ∧ digits.all Char.isDigit then
    some (Nat.ofDigitChars 10 digits 0, t.drop n)
  else none

def fixedIn (n low high : Nat) (t : Text) : Option (Nat × Text) :=
  (fixed n t).filter fun (v, _) => low ≤ v ∧ v ≤ high

def isLeap (year : Nat) : Bool := year % 4 == 0 && (year % 100 != 0 || year % 400 == 0)

def daysIn (year month : Nat) : Nat :=
  if month = 2 then if isLeap year then 29 else 28
  else if month = 4 ∨ month = 6 ∨ month = 9 ∨ month = 11 then 30
  else 31

/-- the text after a date -/
def date? (t : Text) : Option Text := do
  let (year, t) ← fixed 4 t
  let (month, t) ← fixedIn 2 1 12 (← char '-' t)
  let (_, t) ← fixedIn 2 1 (daysIn year month) (← char '-' t)
  return t

/-- the text after the fraction of a second -/
def subseconds : Text → Text
  | '.' :: d :: t => if d.isDigit then t.dropWhile Char.isDigit else '.' :: d :: t
  | t => t

/-- the text after a time of day; a minute may have a leap second -/
def time? (t : Text) : Option Text := do
  let (_, t) ← fixedIn 2 0 23 t
  let (_, t) ← fixedIn 2 0 59 (← char ':' t)
  let (_, t) ← fixedIn 2 0 60 (← char ':' t)
  return subseconds t

/-- the text after the offset of a time, if there is one -/
def offset (t : Text) : Text :=
  match t with
  | 'Z' :: t => t
  | 'z' :: t => t
  | c :: rest =>
    if c = '+' ∨ c = '-' then
      (do
        let (_, rest) ← fixedIn 2 0 23 rest
        let (_, rest) ← fixedIn 2 0 59 (← char ':' rest)
        return rest).getD t
    else t
  | [] => []

/-- the text after the time that follows a date, if one does -/
def timeOfDate : Text → Text
  | c :: t =>
    if c = 'T' ∨ c = 't' ∨ c = ' ' then ((time? t).map offset).getD (c :: t) else c :: t
  | [] => []

/-- a moment is kept as it is written -/
def moment (t : Text) : Option (Text × Text) := do
  let rest ← ((date? t).map timeOfDate).or (time? t)
  return (t.take (t.length - rest.length), rest)

end Worksheet.Toml
