import Worksheet.Proofs.Arithmetic.Parser

/-!
# A number in brackets

* `Grammar.Ends`       tokens of which the last ends a phrase;
* `Grammar.numeral`    a number with a sign in front of it, or without;
* `Grammar.Stands`     the tokens around a numeral leave its sign to it;
* `Grammar.split_of_append`
                       the numeral lies in one of two phrases that follow each other;
* `Grammar.Sum.exists_enclosed`
                       brackets around a numeral do not change the expression that is derived;
* `Arith.parse?_enclosed`
                       so they do not change what is read.

A sign that follows a number or a closing bracket joins two terms, and one in front of a power belongs
to the whole power.  Apart from that a numeral is one operand wherever it stands.
-/

namespace Worksheet

namespace Grammar

/-! ## the last token of a phrase -/

/-- a number or a closing bracket -/
def Closes : Token → Prop
  | .number _ => True
  | .closing _ => True
  | _ => False

theorem Sign.not_closes (s : Sign) : ¬Closes s.token := by cases s <;> exact id

/-- the last of the tokens ends a phrase -/
def Ends (ts : List Token) : Prop := ∃ us t, ts = us ++ [t] ∧ Closes t

theorem Ends.append {us : List Token} (h : Ends us) (ts : List Token) : Ends (ts ++ us) := by
  obtain ⟨vs, t, rfl, ht⟩ := h
  exact ⟨ts ++ vs, t, (List.append_assoc ..).symm, ht⟩

theorem Ends.closes {ts : List Token} {t : Token} (h : Ends (ts ++ [t])) : Closes t := by
  obtain ⟨us, u, e, hu⟩ := h
  obtain ⟨-, e⟩ := List.append_inj' e rfl
  exact (List.cons.inj e).1 ▸ hu

theorem Atom.ends (a : Atom) : Ends a.tokens := by
  cases a with
  | number x => exact ⟨[], _, rfl, trivial⟩
  | bracketed k a => exact ⟨.opening k :: a.tokens, _, rfl, trivial⟩

mutual

theorem Signed.ends (a : Signed) : Ends a.tokens := by
  cases a with
  | signed s a => exact a.ends.append [s.token]
  | unsigned a => exact a.ends
termination_by structural a

theorem Power.ends (a : Power) : Ends a.tokens := by
  cases a with
  | atom a => exact a.ends
  | pow a e => exact (e.ends.append [.caret]).append a.tokens
termination_by structural a

end

theorem Factors.ends_append (more : Factors) {ts : List Token} (h : Ends ts) :
    Ends (ts ++ more.tokens) := by
  cases more with
  | nil => rwa [Factors.tokens, List.append_nil]
  | cons s b more => exact ((more.ends_append b.ends).append [s.token]).append ts
  | beside b more => exact (more.ends_append b.ends).append ts
termination_by structural more

theorem Product.ends (a : Product) : Ends a.tokens := by
  obtain ⟨a, more⟩ := a
  exact more.ends_append a.ends

theorem Terms.ends_append (more : Terms) {ts : List Token} (h : Ends ts) :
    Ends (ts ++ more.tokens) := by
  cases more with
  | nil => rwa [Terms.tokens, List.append_nil]
  | cons s b more => exact ((more.ends_append b.ends).append [s.token]).append ts
termination_by structural more

theorem Sum.ends (a : Sum) : Ends a.tokens := by
  obtain ⟨a, more⟩ := a
  exact more.ends_append a.ends

/-! ## numerals -/

/-- a number, with a sign in front of it or without -/
def numeral : Option Sign → Float → Signed
  | none, x => .unsigned (.atom (.number x))
  | some s, x => .signed s (.unsigned (.atom (.number x)))

/-- a numeral in brackets -/
def enclosed (σ : Option Sign) (x : Float) : Atom :=
  .bracketed .round (.mk (.mk (numeral σ x) .nil) .nil)

theorem tokens_enclosed (σ : Option Sign) (x : Float) : (enclosed σ x).tokens
    = .opening .round :: ((numeral σ x).tokens ++ [.closing .round]) := by
  cases σ <;> rfl

/-- A sign does not follow what ends a phrase, and a minus sign is not in front of a power. -/
structure Stands (σ : Option Sign) (before after : List Token) : Prop where
  sign : σ ≠ none → ¬Ends before
  power : σ = some .minus → after.head? ≠ some .caret

section
variable {σ : Option Sign} {x : Float} {before after : List Token}

theorem Stands.of_append_left (ts : List Token) (h : Stands σ (ts ++ before) after) :
    Stands σ before after :=
  ⟨fun hσ hends => h.sign hσ (hends.append ts), h.power⟩

theorem Stands.of_append_right {ts : List Token} (h : Stands σ before (after ++ ts)) :
    Stands σ before after := by
  refine ⟨h.sign, fun hσ hcaret => h.power hσ ?_⟩
  rw [List.head?_append, hcaret]
  rfl

/-- a numeral starts with a sign or a number -/
theorem eq_of_cons_numeral {t : Token} {ts : List Token}
    (h : t :: ts = (numeral σ x).tokens ++ after) : t = .number x ∨ ∃ s : Sign, t = s.token := by
  cases σ with
  | none => exact .inl (List.cons.inj h).1
  | some s => exact .inr ⟨s, (List.cons.inj h).1⟩

theorem nil_ne_append_numeral : [] ≠ before ++ ((numeral σ x).tokens ++ after) := by
  intro h
  have hnil := (List.append_eq_nil_iff.mp (List.append_eq_nil_iff.mp h.symm).2).1
  cases σ <;> cases hnil

/-- A numeral lies in one of two phrases, of which a sign cannot join the second to the first. -/
theorem split_of_append {l r : List Token} (hl : Ends l)
    (h : l ++ r = before ++ ((numeral σ x).tokens ++ after)) (hs : Stands σ before after) :
    (∃ after', l = before ++ ((numeral σ x).tokens ++ after') ∧ after = after' ++ r ∧
      Stands σ before after') ∨
    ∃ before', before = l ++ before' ∧ r = before' ++ ((numeral σ x).tokens ++ after) ∧
      Stands σ before' after ∧ (σ ≠ none → before' ≠ []) := by
  rcases List.append_eq_append_iff.mp h with ⟨u, rfl, e⟩ | ⟨u, rfl, e⟩
  · refine .inr ⟨u, rfl, e, hs.of_append_left _, fun hσ hu => hs.sign hσ ?_⟩
    rwa [hu, List.append_nil]
  · cases u with
    | nil =>
      rw [List.append_nil] at hl
      refine .inr ⟨[], by rw [List.append_nil, List.append_nil], e.symm, ⟨fun hσ => ?_, hs.power⟩,
        fun hσ => ?_⟩ <;> exact absurd hl (hs.sign hσ)
    | cons t u =>
      cases σ with
      | none =>
        obtain ⟨rfl, rfl⟩ := List.cons.inj e
        exact .inl ⟨u, rfl, rfl, hs.of_append_right⟩
      | some s =>
        obtain ⟨rfl, e'⟩ := List.cons.inj e
        cases u with
        | nil => exact absurd hl.closes s.not_closes
        | cons t u =>
          obtain ⟨rfl, rfl⟩ := List.cons.inj e'
          exact .inl ⟨u, rfl, rfl, hs.of_append_right⟩

end

/-- what starts with a number is this number or a power of it -/
theorem Signed.of_cons_number {a : Signed} {x : Float} {after : List Token}
    (h : a.tokens = .number x :: after) :
    (a = .unsigned (.atom (.number x)) ∧ after = []) ∨
      ∃ e : Signed, a = .unsigned (.pow (.number x) e) ∧ after = .caret :: e.tokens := by
  obtain ⟨b, rfl⟩ := a.opens_iff.mp ⟨.number x, by rw [h]; rfl, trivial⟩
  cases b with
  | atom b =>
    cases b with
    | bracketed k b => cases (List.cons.inj h).1
    | number y =>
      obtain ⟨e, rfl⟩ := List.cons.inj h
      rw [Token.number.inj e]
      exact .inl ⟨rfl, rfl⟩
  | pow b e =>
    cases b with
    | bracketed k b => cases (List.cons.inj h).1
    | number y =>
      obtain ⟨hy, rfl⟩ := List.cons.inj h
      rw [Token.number.inj hy]
      exact .inr ⟨e, rfl, rfl⟩

/-! ## brackets around a numeral -/

section
variable {σ : Option Sign} {x : Float}

mutual

theorem Sum.exists_enclosed (d : Sum) {before after : List Token}
    (h : d.tokens = before ++ ((numeral σ x).tokens ++ after)) (hs : Stands σ before after) :
    ∃ d' : Sum, d'.tokens = before ++ ((enclosed σ x).tokens ++ after) ∧ d'.tree = d.tree := by
  obtain ⟨a, more⟩ := d
  rcases split_of_append a.ends h hs with ⟨after, ha, rfl, hs'⟩ | ⟨before, rfl, hmore, hs', hne'⟩
  · obtain ⟨a', ha', htree⟩ := a.exists_enclosed ha hs'
    refine ⟨.mk a' more, ?_, by rw [Sum.tree, htree, Sum.tree]⟩
    rw [Sum.tokens, ha', List.append_assoc, List.append_assoc]
  · obtain ⟨more', hmore', htree⟩ := more.exists_enclosed hmore hs' hne'
    refine ⟨.mk a more', ?_, by rw [Sum.tree, htree, Sum.tree]⟩
    rw [Sum.tokens, hmore', List.append_assoc]
termination_by structural d

theorem Terms.exists_enclosed (d : Terms) {before after : List Token}
    (h : d.tokens = before ++ ((numeral σ x).tokens ++ after)) (hs : Stands σ before after)
    (hne : σ ≠ none → before ≠ []) :
    ∃ d' : Terms, d'.tokens = before ++ ((enclosed σ x).tokens ++ after) ∧ d'.tree = d.tree := by
  cases d with
  | nil => exact absurd h nil_ne_append_numeral
  | cons s b more =>
    cases before with
    | nil =>
      cases σ with
      | none =>
        cases s <;> cases (List.cons.inj h).1
      | some s' => exact absurd rfl (hne (Option.some_ne_none s'))
    | cons t before =>
      obtain ⟨rfl, h'⟩ := List.cons.inj h
      rcases split_of_append b.ends h' (hs.of_append_left [s.token]) with
          ⟨after, hb, rfl, hs'⟩
        | ⟨before, rfl, hmore, hs', hne'⟩
      · obtain ⟨b', hb', htree⟩ := b.exists_enclosed hb hs'
        refine ⟨.cons s b' more, ?_, funext fun a => by rw [Terms.tree, htree, Terms.tree]⟩
        rw [Terms.tokens, hb', List.append_assoc, List.append_assoc, List.cons_append]
      · obtain ⟨more', hmore', htree⟩ := more.exists_enclosed hmore hs' hne'
        refine ⟨.cons s b more', ?_, funext fun a => by rw [Terms.tree, htree, Terms.tree]⟩
        rw [Terms.tokens, hmore', List.cons_append, List.append_assoc]
termination_by structural d

theorem Product.exists_enclosed (d : Product) {before after : List Token}
    (h : d.tokens = before ++ ((numeral σ x).tokens ++ after)) (hs : Stands σ before after) :
    ∃ d' : Product, d'.tokens = before ++ ((enclosed σ x).tokens ++ after) ∧ d'.tree = d.tree := by
  obtain ⟨a, more⟩ := d
  rcases split_of_append a.ends h hs with ⟨after, ha, rfl, hs'⟩ | ⟨before, rfl, hmore, hs', -⟩
  · obtain ⟨a', ha', htree⟩ := a.exists_enclosed ha hs'
    refine ⟨.mk a' more, ?_, by rw [Product.tree, htree, Product.tree]⟩
    rw [Product.tokens, ha', List.append_assoc, List.append_assoc]
  · obtain ⟨more', hmore', htree⟩ := more.exists_enclosed hmore hs'
    refine ⟨.mk a more', ?_, by rw [Product.tree, htree, Product.tree]⟩
    rw [Product.tokens, hmore', List.append_assoc]
termination_by structural d

theorem Factors.exists_enclosed (d : Factors) {before after : List Token}
    (h : d.tokens = before ++ ((numeral σ x).tokens ++ after)) (hs : Stands σ before after) :
    ∃ d' : Factors, d'.tokens = before ++ ((enclosed σ x).tokens ++ after) ∧ d'.tree = d.tree := by
  cases d with
  | nil => exact absurd h nil_ne_append_numeral
  | cons s b more =>
    cases before with
    | nil => cases s <;> rcases eq_of_cons_numeral h with e | ⟨⟨⟩, e⟩ <;> cases e
    | cons t before =>
      obtain ⟨rfl, h'⟩ := List.cons.inj h
      rcases split_of_append b.ends h' (hs.of_append_left [s.token]) with
          ⟨after, hb, rfl, hs'⟩
        | ⟨before, rfl, hmore, hs', -⟩
      · obtain ⟨b', hb', htree⟩ := b.exists_enclosed hb hs'
        refine ⟨.cons s b' more, ?_, funext fun a => by rw [Factors.tree, htree, Factors.tree]⟩
        rw [Factors.tokens, hb', List.append_assoc, List.append_assoc, List.cons_append]
      · obtain ⟨more', hmore', htree⟩ := more.exists_enclosed hmore hs'
        refine ⟨.cons s b more', ?_, funext fun a => by rw [Factors.tree, htree, Factors.tree]⟩
        rw [Factors.tokens, hmore', List.cons_append, List.append_assoc]
  | beside b more =>
    rcases split_of_append b.ends h hs with ⟨after, hb, rfl, hs'⟩ | ⟨before, rfl, hmore, hs', -⟩
    · obtain ⟨b', hb', htree⟩ := b.exists_enclosed hb hs'
      refine ⟨.beside b' more, ?_, funext fun a => by rw [Factors.tree, htree, Factors.tree]⟩
      rw [Factors.tokens, hb', List.append_assoc, List.append_assoc]
    · obtain ⟨more', hmore', htree⟩ := more.exists_enclosed hmore hs'
      refine ⟨.beside b more', ?_, funext fun a => by rw [Factors.tree, htree, Factors.tree]⟩
      rw [Factors.tokens, hmore', List.append_assoc]
termination_by structural d

theorem Signed.exists_enclosed (d : Signed) {before after : List Token}
    (h : d.tokens = before ++ ((numeral σ x).tokens ++ after)) (hs : Stands σ before after) :
    ∃ d' : Signed, d'.tokens = before ++ ((enclosed σ x).tokens ++ after) ∧ d'.tree = d.tree := by
  cases d with
  | signed s a =>
    cases before with
    | cons t before =>
      obtain ⟨rfl, h'⟩ := List.cons.inj h
      obtain ⟨a', ha', htree⟩ := a.exists_enclosed h' (hs.of_append_left [s.token])
      refine ⟨.signed s a', ?_, by rw [Signed.tree, htree, Signed.tree]⟩
      rw [Signed.tokens, ha', List.cons_append]
    | nil =>
      -- the sign is that of the numeral, and goes into the brackets with it
      cases σ with
      | none => cases s <;> cases (List.cons.inj h).1
      | some s' =>
        obtain ⟨e, h'⟩ := List.cons.inj h
        obtain rfl := Sign.token_injective e
        rcases Signed.of_cons_number h' with ⟨rfl, rfl⟩ | ⟨f, rfl, rfl⟩
        · exact ⟨.unsigned (.atom (enclosed (some s) x)), (List.append_nil _).symm, rfl⟩
        · cases s with
          | plus => exact ⟨.unsigned (.pow (enclosed (some .plus) x) f), rfl, rfl⟩
          | minus => exact absurd rfl (hs.power rfl)
  | unsigned a =>
    obtain ⟨a', ha', htree⟩ := a.exists_enclosed h hs
    exact ⟨.unsigned a', ha', htree⟩
termination_by structural d

theorem Power.exists_enclosed (d : Power) {before after : List Token}
    (h : d.tokens = before ++ ((numeral σ x).tokens ++ after)) (hs : Stands σ before after) :
    ∃ d' : Power, d'.tokens = before ++ ((enclosed σ x).tokens ++ after) ∧ d'.tree = d.tree := by
  cases d with
  | atom a =>
    obtain ⟨a', ha', htree⟩ := a.exists_enclosed h hs
    exact ⟨.atom a', ha', htree⟩
  | pow a e =>
    rcases split_of_append a.ends h hs with ⟨after, ha, rfl, hs'⟩ | ⟨before, rfl, he, hs', -⟩
    · obtain ⟨a', ha', htree⟩ := a.exists_enclosed ha hs'
      refine ⟨.pow a' e, ?_, by rw [Power.tree, htree, Power.tree]⟩
      rw [Power.tokens, ha', List.append_assoc, List.append_assoc]
    · cases before with
      | nil => rcases eq_of_cons_numeral he with he | ⟨⟨⟩, he⟩ <;> cases he
      | cons t before =>
        obtain ⟨rfl, he'⟩ := List.cons.inj he
        obtain ⟨e', he', htree⟩ := e.exists_enclosed he' (hs'.of_append_left [.caret])
        refine ⟨.pow a e', ?_, by rw [Power.tree, htree, Power.tree]⟩
        rw [Power.tokens, he', List.append_assoc, List.cons_append]
termination_by structural d

theorem Atom.exists_enclosed (d : Atom) {before after : List Token}
    (h : d.tokens = before ++ ((numeral σ x).tokens ++ after)) (hs : Stands σ before after) :
    ∃ d' : Atom, d'.tokens = before ++ ((enclosed σ x).tokens ++ after) ∧ d'.tree = d.tree := by
  cases d with
  | number y =>
    cases before with
    | cons t before => exact absurd (List.cons.inj h).2 nil_ne_append_numeral
    | nil =>
      cases σ with
      | none =>
        obtain ⟨e, rfl⟩ := List.cons.inj h
        rw [Token.number.inj e]
        exact ⟨enclosed none x, (List.append_nil _).symm, rfl⟩
      | some s => cases s <;> cases (List.cons.inj h).1
  | bracketed k a =>
    cases before with
    | nil => rcases eq_of_cons_numeral h with e | ⟨⟨⟩, e⟩ <;> cases e
    | cons t before =>
      obtain ⟨rfl, h'⟩ := List.cons.inj h
      rcases split_of_append a.ends h' (hs.of_append_left [.opening k]) with
          ⟨after, ha, rfl, hs'⟩
        | ⟨before, rfl, hclose, hs', -⟩
      · obtain ⟨a', ha', htree⟩ := a.exists_enclosed ha hs'
        refine ⟨.bracketed k a', ?_, htree⟩
        rw [Atom.tokens, ha', List.append_assoc, List.append_assoc, List.cons_append]
      · cases before with
        | nil => rcases eq_of_cons_numeral hclose with e | ⟨⟨⟩, e⟩ <;> cases e
        | cons t before => exact absurd (List.cons.inj hclose).2 nil_ne_append_numeral
termination_by structural d

end

end

end Grammar

open Grammar in
/-- brackets around a numeral that keeps its sign do not change the expression -/
theorem Arith.parse?_enclosed {σ : Option Sign} {x : Float} {before after : List Token}
    (hs : Stands σ before after) {a : Arith}
    (h : Arith.parse? (before ++ ((numeral σ x).tokens ++ after)) = some a) :
    Arith.parse? (before ++ (.opening .round :: ((numeral σ x).tokens ++ .closing .round :: after)))
      = some a := by
  obtain ⟨d, hd, rfl⟩ := Arith.parse?_eq_some_iff_derived.mp h
  obtain ⟨d', hd', htree⟩ := d.exists_enclosed hd hs
  refine Arith.parse?_eq_some_iff_derived.mpr ⟨d', hd'.trans ?_, htree⟩
  rw [tokens_enclosed, List.cons_append, List.append_assoc]
  rfl

end Worksheet
