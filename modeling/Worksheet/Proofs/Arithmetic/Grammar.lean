import Worksheet.Arithmetic.Basic
import Worksheet.Arithmetic.Token

/-!
# Derivations of arithmetic

    sum     := product (('+' | '-') product)*
    product := signed (('*' | '/') signed | signed)*
    signed  := ('-' | '+') signed | power
    power   := atom ('^' signed)?
    atom    := number | '(' sum ')' | '[' sum ']'

A product without a sign between its factors stands only before a number or an opening bracket.

* `Grammar.Sum`, `Grammar.Product`, `Grammar.Signed`, `Grammar.Power`, `Grammar.Atom`
                       the derivations of each kind of phrase;
* `Grammar.Sum.tokens` the tokens that are derived;
* `Grammar.Sum.tree`   the expression that they stand for, in which sums and products are grouped from
                       the left and powers from the right;
* `Grammar.Sum.value`  the number that they come to;
* `Grammar.Sum.eval_tree` it is the value of the expression;
* `Grammar.Signed.opens_iff` the signed phrases that start with a number or an opening bracket;
* `Grammar.EndsAt`     a token that does not go on with a phrase;
* `Grammar.Sum.unique` tokens have one derivation at most.
-/

namespace Worksheet

namespace Grammar

/-! ## signs -/

/-- a sign between terms, or before a signed phrase -/
inductive Sign where
  | plus
  | minus

namespace Sign

def token : Sign → Token
  | plus => .plus
  | minus => .minus

def join : Sign → Arith → Arith → Arith
  | plus => .add
  | minus => .sub

def apply : Sign → Arith → Arith
  | plus, a => a
  | minus, a => .neg a

theorem token_injective {s t : Sign} (h : s.token = t.token) : s = t := by
  cases s <;> cases t <;> cases h <;> rfl

end Sign

/-- a sign between factors -/
inductive Scale where
  | times
  | per

namespace Scale

def token : Scale → Token
  | times => .star
  | per => .slash

def join : Scale → Arith → Arith → Arith
  | times => .mul
  | per => .div

theorem token_injective {s t : Scale} (h : s.token = t.token) : s = t := by
  cases s <;> cases t <;> cases h <;> rfl

end Scale

/-! ## derivations -/

mutual

inductive Sum where
  | mk (first : Product) (more : Terms)

inductive Terms where
  | nil
  | cons (s : Sign) (b : Product) (more : Terms)

inductive Product where
  | mk (first : Signed) (more : Factors)

/-- a factor without a sign before it starts with a number or an opening bracket: it is a power -/
inductive Factors where
  | nil
  | cons (s : Scale) (b : Signed) (more : Factors)
  | beside (b : Power) (more : Factors)

inductive Signed where
  | signed (s : Sign) (a : Signed)
  | unsigned (a : Power)

inductive Power where
  | atom (a : Atom)
  | pow (a : Atom) (e : Signed)

inductive Atom where
  | number (x : Float)
  | bracketed (k : Bracket) (a : Sum)

end

/-! ## what is derived -/

mutual

def Sum.tokens : Sum → List Token
  | .mk a more => a.tokens ++ more.tokens

def Terms.tokens : Terms → List Token
  | .nil => []
  | .cons s b more => s.token :: (b.tokens ++ more.tokens)

def Product.tokens : Product → List Token
  | .mk a more => a.tokens ++ more.tokens

def Factors.tokens : Factors → List Token
  | .nil => []
  | .cons s b more => s.token :: (b.tokens ++ more.tokens)
  | .beside b more => b.tokens ++ more.tokens

def Signed.tokens : Signed → List Token
  | .signed s a => s.token :: a.tokens
  | .unsigned a => a.tokens

def Power.tokens : Power → List Token
  | .atom a => a.tokens
  | .pow a e => a.tokens ++ .caret :: e.tokens

def Atom.tokens : Atom → List Token
  | .number x => [.number x]
  | .bracketed k a => .opening k :: (a.tokens ++ [.closing k])

end

mutual

def Sum.tree : Sum → Arith
  | .mk a more => more.tree a.tree

/-- each term is joined to all that is on its left -/
def Terms.tree : Terms → Arith → Arith
  | .nil, a => a
  | .cons s b more, a => more.tree (s.join a b.tree)

def Product.tree : Product → Arith
  | .mk a more => more.tree a.tree

/-- each factor is joined to all that is on its left -/
def Factors.tree : Factors → Arith → Arith
  | .nil, a => a
  | .cons s b more, a => more.tree (s.join a b.tree)
  | .beside b more, a => more.tree (.mul a b.tree)

def Signed.tree : Signed → Arith
  | .signed s a => s.apply a.tree
  | .unsigned a => a.tree

def Power.tree : Power → Arith
  | .atom a => a.tree
  | .pow a e => .pow a.tree e.tree

def Atom.tree : Atom → Arith
  | .number x => .number x
  | .bracketed _ a => a.tree

end

/-! ## what it is worth -/

mutual

def Sum.value : Sum → Float
  | .mk a more => more.value a.value

/-- the terms from the left to the right, behind what comes to the number given -/
def Terms.value : Terms → Float → Float
  | .nil, x => x
  | .cons .plus b more, x => more.value (x + b.value)
  | .cons .minus b more, x => more.value (x - b.value)

def Product.value : Product → Float
  | .mk a more => more.value a.value

/-- the factors from the left to the right, behind what comes to the number given -/
def Factors.value : Factors → Float → Float
  | .nil, x => x
  | .cons .times b more, x => more.value (x * b.value)
  | .cons .per b more, x => more.value (x / b.value)
  | .beside b more, x => more.value (x * b.value)

def Signed.value : Signed → Float
  | .signed .plus a => a.value
  | .signed .minus a => -a.value
  | .unsigned a => a.value

/-- an exponent is worked out before it is used -/
def Power.value : Power → Float
  | .atom a => a.value
  | .pow a e => a.value.pow e.value

def Atom.value : Atom → Float
  | .number x => x
  | .bracketed _ a => a.value

end

mutual

theorem Sum.eval_tree (d : Sum) : d.tree.eval = d.value := by
  obtain ⟨a, more⟩ := d
  rw [Sum.tree, more.eval_tree, a.eval_tree, Sum.value]
termination_by structural d

theorem Terms.eval_tree (d : Terms) (a : Arith) : (d.tree a).eval = d.value a.eval := by
  cases d with
  | nil => rfl
  | cons s b more =>
    rw [Terms.tree, more.eval_tree]
    cases s <;> rw [Terms.value, ← b.eval_tree] <;> rfl
termination_by structural d

theorem Product.eval_tree (d : Product) : d.tree.eval = d.value := by
  obtain ⟨a, more⟩ := d
  rw [Product.tree, more.eval_tree, a.eval_tree, Product.value]
termination_by structural d

theorem Factors.eval_tree (d : Factors) (a : Arith) : (d.tree a).eval = d.value a.eval := by
  cases d with
  | nil => rfl
  | cons s b more =>
    rw [Factors.tree, more.eval_tree]
    cases s <;> rw [Factors.value, ← b.eval_tree] <;> rfl
  | beside b more =>
    rw [Factors.tree, more.eval_tree, Factors.value, ← b.eval_tree]
    rfl
termination_by structural d

theorem Signed.eval_tree (d : Signed) : d.tree.eval = d.value := by
  cases d with
  | signed s a => cases s <;> rw [Signed.value, ← a.eval_tree] <;> rfl
  | unsigned a => exact a.eval_tree
termination_by structural d

theorem Power.eval_tree (d : Power) : d.tree.eval = d.value := by
  cases d with
  | atom a => exact a.eval_tree
  | pow a e =>
    rw [Power.value, ← a.eval_tree, ← e.eval_tree]
    rfl
termination_by structural d

theorem Atom.eval_tree (d : Atom) : d.tree.eval = d.value := by
  cases d with
  | number x => rfl
  | bracketed k a => exact a.eval_tree
termination_by structural d

end

/-! ## where phrases start -/

/-- a number or an opening bracket -/
def Opens : Token → Prop
  | .number _ => True
  | .opening _ => True
  | _ => False

theorem Sign.not_opens (s : Sign) : ¬Opens s.token := by cases s <;> exact id
theorem Scale.not_opens (s : Scale) : ¬Opens s.token := by cases s <;> exact id

theorem Atom.exists_cons (a : Atom) : ∃ t ts, a.tokens = t :: ts ∧ Opens t := by
  cases a with
  | number x => exact ⟨_, _, rfl, trivial⟩
  | bracketed k a => exact ⟨_, _, rfl, trivial⟩

theorem Power.exists_cons (a : Power) : ∃ t ts, a.tokens = t :: ts ∧ Opens t := by
  cases a with
  | atom a => exact a.exists_cons
  | pow a e =>
    obtain ⟨t, ts, hts, ht⟩ := a.exists_cons
    exact ⟨t, ts ++ .caret :: e.tokens, by rw [Power.tokens, hts, List.cons_append], ht⟩

theorem Power.opens_of_append {a : Power} {t : Token} {ts us : List Token}
    (h : a.tokens ++ us = t :: ts) : Opens t := by
  obtain ⟨t', ts', hts, ht⟩ := a.exists_cons
  rw [hts, List.cons_append] at h
  exact (List.cons.inj h).1 ▸ ht

theorem Signed.opens_iff (a : Signed) :
    (∃ t ∈ a.tokens.head?, Opens t) ↔ ∃ b : Power, a = .unsigned b := by
  cases a with
  | signed s a =>
    refine iff_of_false ?_ fun ⟨_, h⟩ => by cases h
    rintro ⟨t, ht, hopens⟩
    exact s.not_opens ((Option.some.inj ht).symm ▸ hopens)
  | unsigned b =>
    obtain ⟨t, ts, hts, ht⟩ := b.exists_cons
    exact iff_of_true ⟨t, by rw [Signed.tokens, hts]; rfl, ht⟩ ⟨b, rfl⟩

/-! ## where phrases end -/

/-- how loosely a token joins what is on its left: in a power, a product or a sum, or not at all -/
def looseness : Token → Nat
  | .caret => 1
  | .star => 2
  | .slash => 2
  | .number _ => 2
  | .opening _ => 2
  | .plus => 3
  | .minus => 3
  | .closing _ => 4

theorem Sign.looseness_token (s : Sign) : looseness s.token = 3 := by cases s <;> rfl
theorem Scale.looseness_token (s : Scale) : looseness s.token = 2 := by cases s <;> rfl

theorem Opens.looseness_eq {t : Token} (h : Opens t) : looseness t = 2 := by
  cases t with
  | number x => rfl
  | opening k => rfl
  | _ => cases h

/-- the first of the tokens is too loose to go on with a power (1), a product (2) or a sum (3) -/
def EndsAt (n : Nat) (ts : List Token) : Prop := ∀ t ∈ ts.head?, n < looseness t

theorem endsAt_nil (n : Nat) : EndsAt n [] := fun _ h => by cases h

theorem endsAt_cons {n : Nat} {t : Token} {ts : List Token} :
    EndsAt n (t :: ts) ↔ n < looseness t :=
  ⟨fun h => h t rfl, fun h _ ht => by cases ht; exact h⟩

/-- a closing bracket ends a phrase of any kind -/
theorem endsAt_closing (k : Bracket) (ts : List Token) : EndsAt 3 (.closing k :: ts) :=
  endsAt_cons.mpr (Nat.lt_succ_self 3)

theorem EndsAt.ne_cons {n : Nat} {t : Token} {ts us : List Token} (h : EndsAt n ts)
    (ht : looseness t ≤ n) : ts ≠ t :: us := by
  rintro rfl
  exact Nat.not_lt_of_le ht (endsAt_cons.mp h)

theorem EndsAt.mono {m n : Nat} {ts : List Token} (h : EndsAt n ts) (hle : m ≤ n) : EndsAt m ts :=
  fun t ht => Nat.lt_of_le_of_lt hle (h t ht)

theorem Terms.endsAt (more : Terms) {rest : List Token} (h : EndsAt 3 rest) :
    EndsAt 2 (more.tokens ++ rest) := by
  cases more with
  | nil => exact h.mono (by decide)
  | cons s b more => exact endsAt_cons.mpr (by rw [s.looseness_token]; decide)

theorem Factors.endsAt (more : Factors) {rest : List Token} (h : EndsAt 2 rest) :
    EndsAt 1 (more.tokens ++ rest) := by
  cases more with
  | nil => exact h.mono (by decide)
  | cons s b more => exact endsAt_cons.mpr (by rw [s.looseness_token]; decide)
  | beside b more =>
    obtain ⟨t, ts, hts, ht⟩ := b.exists_cons
    rw [Factors.tokens, hts, List.cons_append, List.cons_append, endsAt_cons, ht.looseness_eq]
    decide

/-- where a sum ends there are no further terms -/
theorem Terms.eq_nil (more : Terms) {ts rest : List Token} (hts : EndsAt 3 ts)
    (h : more.tokens ++ rest = ts) : more = .nil := by
  cases more with
  | nil => rfl
  | cons s b more => exact absurd h.symm (hts.ne_cons (Nat.le_of_eq s.looseness_token))

/-- where a product ends there are no further factors -/
theorem Factors.eq_nil (more : Factors) {ts rest : List Token} (hts : EndsAt 2 ts)
    (h : more.tokens ++ rest = ts) : more = .nil := by
  cases more with
  | nil => rfl
  | cons s b more => exact absurd h.symm (hts.ne_cons (Nat.le_of_eq s.looseness_token))
  | beside b more =>
    obtain ⟨t, us, hus, ht⟩ := b.exists_cons
    rw [Factors.tokens, hus] at h
    exact absurd h.symm (hts.ne_cons (Nat.le_of_eq ht.looseness_eq))

/-! ## uniqueness -/

mutual

theorem Sum.unique (a b : Sum) {rest rest' : List Token} (hr : EndsAt 3 rest) (hr' : EndsAt 3 rest')
    (h : a.tokens ++ rest = b.tokens ++ rest') : a = b ∧ rest = rest' := by
  obtain ⟨a, more⟩ := a
  obtain ⟨b, more'⟩ := b
  simp only [Sum.tokens, List.append_assoc] at h
  obtain ⟨rfl, hmore⟩ := a.unique b (more.endsAt hr) (more'.endsAt hr') h
  obtain ⟨rfl, hrest⟩ := more.unique more' hr hr' hmore
  exact ⟨rfl, hrest⟩
termination_by structural a

theorem Terms.unique (a b : Terms) {rest rest' : List Token} (hr : EndsAt 3 rest)
    (hr' : EndsAt 3 rest') (h : a.tokens ++ rest = b.tokens ++ rest') : a = b ∧ rest = rest' := by
  cases a with
  | nil =>
    obtain rfl := b.eq_nil hr h.symm
    exact ⟨rfl, h⟩
  | cons s a more =>
    cases b with
    | nil => cases (Terms.cons s a more).eq_nil hr' h
    | cons s' b more' =>
      simp only [Terms.tokens, List.cons_append, List.append_assoc, List.cons.injEq] at h
      obtain rfl := Sign.token_injective h.1
      obtain ⟨rfl, hmore⟩ := a.unique b (more.endsAt hr) (more'.endsAt hr') h.2
      obtain ⟨rfl, hrest⟩ := more.unique more' hr hr' hmore
      exact ⟨rfl, hrest⟩
termination_by structural a

theorem Product.unique (a b : Product) {rest rest' : List Token} (hr : EndsAt 2 rest)
    (hr' : EndsAt 2 rest') (h : a.tokens ++ rest = b.tokens ++ rest') : a = b ∧ rest = rest' := by
  obtain ⟨a, more⟩ := a
  obtain ⟨b, more'⟩ := b
  simp only [Product.tokens, List.append_assoc] at h
  obtain ⟨rfl, hmore⟩ := a.unique b (more.endsAt hr) (more'.endsAt hr') h
  obtain ⟨rfl, hrest⟩ := more.unique more' hr hr' hmore
  exact ⟨rfl, hrest⟩
termination_by structural a

theorem Factors.unique (a b : Factors) {rest rest' : List Token} (hr : EndsAt 2 rest)
    (hr' : EndsAt 2 rest') (h : a.tokens ++ rest = b.tokens ++ rest') : a = b ∧ rest = rest' := by
  cases a with
  | nil =>
    obtain rfl := b.eq_nil hr h.symm
    exact ⟨rfl, h⟩
  | cons s a more =>
    cases b with
    | nil => cases (Factors.cons s a more).eq_nil hr' h
    | cons s' b more' =>
      simp only [Factors.tokens, List.cons_append, List.append_assoc, List.cons.injEq] at h
      obtain rfl := Scale.token_injective h.1
      obtain ⟨rfl, hmore⟩ := a.unique b (more.endsAt hr) (more'.endsAt hr') h.2
      obtain ⟨rfl, hrest⟩ := more.unique more' hr hr' hmore
      exact ⟨rfl, hrest⟩
    | beside b more' =>
      simp only [Factors.tokens, List.cons_append, List.append_assoc] at h
      exact absurd (Power.opens_of_append h.symm) s.not_opens
  | beside a more =>
    cases b with
    | nil => cases (Factors.beside a more).eq_nil hr' h
    | cons s b more' =>
      simp only [Factors.tokens, List.cons_append, List.append_assoc] at h
      exact absurd (Power.opens_of_append h) s.not_opens
    | beside b more' =>
      simp only [Factors.tokens, List.append_assoc] at h
      obtain ⟨rfl, hmore⟩ := a.unique b (more.endsAt hr) (more'.endsAt hr') h
      obtain ⟨rfl, hrest⟩ := more.unique more' hr hr' hmore
      exact ⟨rfl, hrest⟩
termination_by structural a

theorem Signed.unique (a b : Signed) {rest rest' : List Token} (hr : EndsAt 1 rest)
    (hr' : EndsAt 1 rest') (h : a.tokens ++ rest = b.tokens ++ rest') : a = b ∧ rest = rest' := by
  cases a with
  | signed s a =>
    cases b with
    | signed s' b =>
      simp only [Signed.tokens, List.cons_append, List.cons.injEq] at h
      obtain rfl := Sign.token_injective h.1
      obtain ⟨rfl, hrest⟩ := a.unique b hr hr' h.2
      exact ⟨rfl, hrest⟩
    | unsigned b => exact absurd (Power.opens_of_append h.symm) s.not_opens
  | unsigned a =>
    cases b with
    | signed s b => exact absurd (Power.opens_of_append h) s.not_opens
    | unsigned b =>
      obtain ⟨rfl, hrest⟩ := a.unique b hr hr' h
      exact ⟨rfl, hrest⟩
termination_by structural a

theorem Power.unique (a b : Power) {rest rest' : List Token} (hr : EndsAt 1 rest)
    (hr' : EndsAt 1 rest') (h : a.tokens ++ rest = b.tokens ++ rest') : a = b ∧ rest = rest' := by
  cases a with
  | atom a =>
    cases b with
    | atom b =>
      obtain ⟨rfl, hrest⟩ := a.unique b h
      exact ⟨rfl, hrest⟩
    | pow b e =>
      simp only [Power.tokens, List.cons_append, List.append_assoc] at h
      rw [(a.unique b h).2, endsAt_cons] at hr
      exact absurd hr (by decide)
  | pow a e =>
    cases b with
    | atom b =>
      simp only [Power.tokens, List.cons_append, List.append_assoc] at h
      rw [← (a.unique b h).2, endsAt_cons] at hr'
      exact absurd hr' (by decide)
    | pow b e' =>
      simp only [Power.tokens, List.cons_append, List.append_assoc] at h
      obtain ⟨rfl, he⟩ := a.unique b h
      obtain ⟨rfl, hrest⟩ := e.unique e' hr hr' (List.cons.inj he).2
      exact ⟨rfl, hrest⟩
termination_by structural a

theorem Atom.unique (a b : Atom) {rest rest' : List Token}
    (h : a.tokens ++ rest = b.tokens ++ rest') : a = b ∧ rest = rest' := by
  cases a with
  | number x =>
    cases b with
    | number y =>
      obtain ⟨hxy, hrest⟩ := List.cons.inj h
      exact ⟨congrArg _ (Token.number.inj hxy), hrest⟩
    | bracketed k b => cases (List.cons.inj h).1
  | bracketed k a =>
    cases b with
    | number y => cases (List.cons.inj h).1
    | bracketed k' b =>
      simp only [Atom.tokens, List.cons_append, List.append_assoc, List.cons.injEq,
        Token.opening.injEq, List.nil_append] at h
      obtain ⟨rfl, h⟩ := h
      obtain ⟨rfl, hrest⟩ := a.unique b (endsAt_closing k _) (endsAt_closing k _) h
      exact ⟨rfl, (List.cons.inj hrest).2⟩
termination_by structural a

end

/-- no tokens are derived in two ways -/
theorem Sum.tokens_injective {a b : Sum} (h : a.tokens = b.tokens) : a = b :=
  (a.unique b (endsAt_nil 3) (endsAt_nil 3) (congrArg (· ++ []) h)).1

end Grammar

end Worksheet
