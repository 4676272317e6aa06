import Worksheet.Arithmetic.Basic
import Worksheet.Arithmetic.Token

/-!
# From tokens to arithmetic expressions

    sum     := product (('+' | '-') product)*
    product := signed (('*' | '/') signed | signed)*
    signed  := ('-' | '+') signed | power
    power   := atom ('^' signed)?
    atom    := number | '(' sum ')' | '[' sum ']'

A product without a sign between its factors is read only where the next token is a number or an
opening bracket.  Sums and products are grouped from the left, powers from the right, and the
exponent of a power may have signs of its own.

* `Arith.Parsed`       an expression read from the front of a token list, and the tokens after it;
* `Arith.sum`, `Arith.product`, `Arith.signed`, `Arith.power`, `Arith.atom`
                       each reads one phrase from the front of a token list;
* `Arith.parse?`       the expression that a whole token list stands for.

A phrase takes one token at least, and where it starts with another phrase that is of a lower kind.
-/

namespace Worksheet

namespace Arith

/-- what has been read, and the tokens after it, which are fewer than `bound` -/
structure Parsed (bound : Nat) where
  tree : Arith
  rest : List Token
  rest_lt : rest.length < bound

mutual

def sum (ts : List Token) : Option (Parsed ts.length) :=
  (product ts).bind fun a =>
    have := a.rest_lt
    sumTail a
termination_by 5 * ts.length + 4

/-- the further terms of a sum of which some have been read -/
def sumTail {n : Nat} (a : Parsed n) : Option (Parsed n) :=
  match a with
  | ⟨a, .plus :: ts, h⟩ =>
    (product ts).bind fun b =>
      have := b.rest_lt
      sumTail ⟨.add a b.tree, b.rest, Nat.lt_trans this (Nat.lt_of_succ_lt h)⟩
  | ⟨a, .minus :: ts, h⟩ =>
    (product ts).bind fun b =>
      have := b.rest_lt
      sumTail ⟨.sub a b.tree, b.rest, Nat.lt_trans this (Nat.lt_of_succ_lt h)⟩
  | a => some a
termination_by 5 * a.rest.length + 4

def product (ts : List Token) : Option (Parsed ts.length) :=
  (signed ts).bind fun a =>
    have := a.rest_lt
    productTail a
termination_by 5 * ts.length + 3

/-- the further factors of a product of which some have been read -/
def productTail {n : Nat} (a : Parsed n) : Option (Parsed n) :=
  match a with
  | ⟨a, .star :: ts, h⟩ =>
    (signed ts).bind fun b =>
      have := b.rest_lt
      productTail ⟨.mul a b.tree, b.rest, Nat.lt_trans this (Nat.lt_of_succ_lt h)⟩
  | ⟨a, .slash :: ts, h⟩ =>
    (signed ts).bind fun b =>
      have := b.rest_lt
      productTail ⟨.div a b.tree, b.rest, Nat.lt_trans this (Nat.lt_of_succ_lt h)⟩
  | ⟨a, .number x :: ts, h⟩ =>
    (signed (.number x :: ts)).bind fun b =>
      have := Nat.le_of_lt_succ b.rest_lt
      productTail ⟨.mul a b.tree, b.rest, Nat.lt_trans b.rest_lt h⟩
  | ⟨a, .opening k :: ts, h⟩ =>
    (signed (.opening k :: ts)).bind fun b =>
      have := Nat.le_of_lt_succ b.rest_lt
      productTail ⟨.mul a b.tree, b.rest, Nat.lt_trans b.rest_lt h⟩
  | a => some a
termination_by 5 * a.rest.length + 3

def signed (ts : List Token) : Option (Parsed ts.length) :=
  match ts with
  | .minus :: ts => (signed ts).map fun a => ⟨.neg a.tree, a.rest, Nat.lt_succ_of_lt a.rest_lt⟩
  | .plus :: ts => (signed ts).map fun a => ⟨a.tree, a.rest, Nat.lt_succ_of_lt a.rest_lt⟩
  | ts => power ts
termination_by 5 * ts.length + 2

def power (ts : List Token) : Option (Parsed ts.length) :=
  (atom ts).bind fun
    | ⟨a, .caret :: us, h⟩ =>
      have := Nat.lt_of_succ_lt h
      (signed us).map fun b => ⟨.pow a b.tree, b.rest, Nat.lt_trans b.rest_lt this⟩
    | a => some a
termination_by 5 * ts.length + 1

def atom (ts : List Token) : Option (Parsed ts.length) :=
  match ts with
  | .opening k :: ts =>
    (sum ts).bind fun
      | ⟨a, .closing k' :: us, h⟩ =>
        if k' = k then some ⟨a, us, Nat.lt_succ_of_lt (Nat.lt_of_succ_lt h)⟩ else none
      | _ => none
  | .number x :: ts => some ⟨.number x, ts, Nat.lt_succ_self _⟩
  | _ => none
termination_by 5 * ts.length

end

def parse? (ts : List Token) : Option Arith :=
  match sum ts with
  | some ⟨a, [], _⟩ => some a
  | _ => none

end Arith

end Worksheet
