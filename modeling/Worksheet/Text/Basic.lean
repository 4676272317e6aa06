/-!
# Text

Everything a cell holds or shows is a list of characters.

* `Text`               a list of characters;
* `isBlank`            the characters with the Unicode property White_Space;
* `Text.trim`          a text without the blanks at its two ends;
* `Text.cut`           a text divided at the first occurrence of a character;
* `Text.byteLength`    the length in UTF-8 bytes, the unit of the spans of calls;
* `Text.count?`        an unsigned decimal number below `2 ^ 64`, with an optional plus sign.
-/

namespace Worksheet

abbrev Text := List Char

/-- the numbers that rows, columns and counts can take end here -/
def maxCount : Nat := Nat.pow 2 64 - 1

/-! ## blanks -/

/-- the code points of the Unicode property White_Space -/
def isBlank (c : Char) : Bool :=
  let n := c.toNat
  (9 ≤ n && n ≤ 13) || n == 0x20 || n == 0x85 || n == 0xA0 || n == 0x1680
    || (0x2000 ≤ n && n ≤ 0x200A) || n == 0x2028 || n == 0x2029 || n == 0x202F || n == 0x205F
    || n == 0x3000

namespace Text

def trimStart (t : Text) : Text := t.dropWhile isBlank
def trimEnd (t : Text) : Text := (t.reverse.dropWhile isBlank).reverse
def trim (t : Text) : Text := trimEnd (trimStart t)

/-! ## parts of a text -/

/-- the text before the first `c` and the text after it, if there is a `c` -/
def cut (c : Char) (t : Text) : Text × Option Text :=
  match t.span (· != c) with
  | (before, []) => (before, none)
  | (before, _ :: after) => (before, some after)

/-- a text without one leading `c` -/
def stripFirst (c : Char) : Text → Text
  | [] => []
  | d :: t => if d = c then t else d :: t

/-- a text without one final `c` -/
def stripLast (c : Char) (t : Text) : Text := (stripFirst c t.reverse).reverse

/-! ## lengths -/

def byteLength (t : Text) : Nat := (t.map Char.utf8Size).foldr (· + ·) 0

theorem byteLength_nil : byteLength [] = 0 := rfl
theorem byteLength_cons (c : Char) (t : Text) :
    byteLength (c :: t) = c.utf8Size + byteLength t := rfl
theorem byteLength_append (s t : Text) : byteLength (s ++ t) = byteLength s + byteLength t := by
  induction s with
  | nil => rw [List.nil_append, byteLength_nil, Nat.zero_add]
  | cons c s ih => rw [List.cons_append, byteLength_cons, byteLength_cons, ih, Nat.add_assoc]

/-! ## counts -/

/-- a non-empty run of digits whose value does not exceed `maxCount` -/
def digits? (t : Text) : Option Nat :=
  if t ≠ [] ∧ t.all Char.isDigit ∧ Nat.ofDigitChars 10 t 0 ≤ maxCount then
    some (Nat.ofDigitChars 10 t 0)
  else none

/-- a number as it is typed where a count is expected: a plus sign is allowed -/
def count? (t : Text) : Option Nat := digits? (stripFirst '+' t)

end Text

end Worksheet
