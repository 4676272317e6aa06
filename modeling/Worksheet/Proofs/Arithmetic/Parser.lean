import Worksheet.Arithmetic.Parser
import Worksheet.Proofs.Arithmetic.Grammar

/-!
# The parser and the grammar

* `Arith.Reads`        what is read from the front of a token list, and what is left of it;
* `Grammar.Sum.reads`  derived tokens are read, up to where the phrase ends;
* `Arith.exists_of_sum` what is read has a derivation;
* `Arith.parsed_iff_derived`
                       a token list stands for an expression exactly if it is derived.
-/

namespace Worksheet

namespace Arith

open Grammar

/-- the expression has been read, and the tokens are left -/
def Reads {n : Nat} (r : Option (Parsed n)) (a : Arith) (rest : List Token) : Prop :=
  ∃ h, r = some ⟨a, rest, h⟩

/-! ## one step -/

section
variable {n : Nat} {a : Arith} {t : Token} {ts : List Token}

theorem sumTail_of_ne {p : Parsed n} (hp : ∀ (s : Sign) ts, p.rest ≠ s.token :: ts) :
    sumTail p = some p := by
  rw [sumTail]
  · rintro a ts h rfl
    exact hp .plus ts rfl
  · rintro a ts h rfl
    exact hp .minus ts rfl

theorem sumTail_sign (s : Sign) (h : (s.token :: ts).length < n) :
    sumTail ⟨a, s.token :: ts, h⟩ = (product ts).bind fun b =>
      sumTail ⟨s.join a b.tree, b.rest, Nat.lt_trans b.rest_lt (Nat.lt_of_succ_lt h)⟩ := by
  cases s <;> exact sumTail.eq_def _

theorem productTail_of_ne {p : Parsed n} (hp : ∀ (s : Scale) ts, p.rest ≠ s.token :: ts)
    (hp' : ∀ t ts, Opens t → p.rest ≠ t :: ts) : productTail p = some p := by
  rw [productTail]
  · rintro a ts h rfl
    exact hp .times ts rfl
  · rintro a ts h rfl
    exact hp .per ts rfl
  · rintro a x ts h rfl
    exact hp' (.number x) ts trivial rfl
  · rintro a k ts h rfl
    exact hp' (.opening k) ts trivial rfl

theorem productTail_scale (s : Scale) (h : (s.token :: ts).length < n) :
    productTail ⟨a, s.token :: ts, h⟩ = (signed ts).bind fun b =>
      productTail ⟨s.join a b.tree, b.rest, Nat.lt_trans b.rest_lt (Nat.lt_of_succ_lt h)⟩ := by
  cases s <;> exact productTail.eq_def _

theorem signed_sign (s : Sign) : signed (s.token :: ts) =
    (signed ts).map fun a => ⟨s.apply a.tree, a.rest, Nat.lt_succ_of_lt a.rest_lt⟩ := by
  cases s <;> exact signed.eq_def _

theorem signed_of_ne (hts : ∀ (s : Sign) us, ts ≠ s.token :: us) : signed ts = power ts := by
  rw [signed]
  · rintro us rfl
    exact hts .minus us rfl
  · rintro us rfl
    exact hts .plus us rfl

/-- a factor without a sign before it has none of its own either -/
theorem productTail_of_opens (ht : Opens t) (h : (t :: ts).length < n) :
    productTail ⟨a, t :: ts, h⟩ = (power (t :: ts)).bind fun b =>
      productTail ⟨.mul a b.tree, b.rest, Nat.lt_trans b.rest_lt h⟩ := by
  rw [← signed_of_ne fun s us hus => s.not_opens ((List.cons.inj hus).1 ▸ ht)]
  cases t with
  | number x => exact productTail.eq_def _
  | opening k => exact productTail.eq_def _
  | _ => cases ht

theorem power_of_ne {p : Parsed ts.length} (hts : atom ts = some p)
    (hp : ∀ us, p.rest ≠ .caret :: us) : power ts = some p := by
  obtain ⟨a, us, h⟩ := p
  rw [power, hts]
  cases us with
  | nil => rfl
  | cons t us =>
    cases t with
    | caret => exact absurd rfl (hp us)
    | _ => rfl

theorem power_caret {us : List Token} {h : (Token.caret :: us).length < ts.length}
    (hts : atom ts = some ⟨a, .caret :: us, h⟩) : power ts = (signed us).map fun b =>
      ⟨.pow a b.tree, b.rest, Nat.lt_trans b.rest_lt (Nat.lt_of_succ_lt h)⟩ := by
  rw [power, hts]
  rfl

theorem atom_bracketed {k : Bracket} {us : List Token}
    {h : (Token.closing k :: us).length < ts.length} (hts : sum ts = some ⟨a, .closing k :: us, h⟩) :
    atom (.opening k :: ts) = some ⟨a, us, Nat.lt_succ_of_lt (Nat.lt_of_succ_lt h)⟩ := by
  rw [atom, hts]
  exact if_pos rfl

end

end Arith

/-! ## derived tokens are read -/

namespace Grammar

open Arith

mutual

theorem Sum.reads (d : Sum) {ts rest : List Token} (hts : ts = d.tokens ++ rest)
    (hr : EndsAt 3 rest) : Reads (sum ts) d.tree rest := by
  obtain ⟨a, more⟩ := d
  obtain ⟨h, ha⟩ := a.reads (hts.trans (List.append_assoc ..)) (more.endsAt hr)
  rw [sum, ha]
  exact more.reads rfl hr
termination_by structural d

theorem Terms.reads (d : Terms) {n : Nat} {p : Parsed n} {rest : List Token}
    (hp : p.rest = d.tokens ++ rest) (hr : EndsAt 3 rest) :
    Reads (sumTail p) (d.tree p.tree) rest := by
  obtain ⟨a, ts, hlt⟩ := p
  cases d with
  | nil =>
    obtain rfl : ts = rest := hp
    exact ⟨hlt, sumTail_of_ne fun s us h => hr.ne_cons (Nat.le_of_eq s.looseness_token) h⟩
  | cons s b more =>
    obtain rfl : ts = s.token :: (b.tokens ++ more.tokens ++ rest) := hp
    obtain ⟨h, hb⟩ := b.reads (List.append_assoc ..) (more.endsAt hr)
    rw [sumTail_sign, hb]
    exact more.reads rfl hr
termination_by structural d

theorem Product.reads (d : Product) {ts rest : List Token} (hts : ts = d.tokens ++ rest)
    (hr : EndsAt 2 rest) : Reads (product ts) d.tree rest := by
  obtain ⟨a, more⟩ := d
  obtain ⟨h, ha⟩ := a.reads (hts.trans (List.append_assoc ..)) (more.endsAt hr)
  rw [product, ha]
  exact more.reads rfl hr
termination_by structural d

theorem Factors.reads (d : Factors) {n : Nat} {p : Parsed n} {rest : List Token}
    (hp : p.rest = d.tokens ++ rest) (hr : EndsAt 2 rest) :
    Reads (productTail p) (d.tree p.tree) rest := by
  obtain ⟨a, ts, hlt⟩ := p
  cases d with
  | nil =>
    obtain rfl : ts = rest := hp
    exact ⟨hlt, productTail_of_ne (fun s us h => hr.ne_cons (Nat.le_of_eq s.looseness_token) h)
      fun t us ht h => hr.ne_cons (Nat.le_of_eq ht.looseness_eq) h⟩
  | cons s b more =>
    obtain rfl : ts = s.token :: (b.tokens ++ more.tokens ++ rest) := hp
    obtain ⟨h, hb⟩ := b.reads (List.append_assoc ..) (more.endsAt hr)
    rw [productTail_scale, hb]
    exact more.reads rfl hr
  | beside b more =>
    obtain ⟨t, us, hus, ht⟩ := b.exists_cons
    obtain ⟨h, hb⟩ := b.reads (hp.trans (List.append_assoc ..)) (more.endsAt hr)
    obtain rfl : ts = t :: (us ++ more.tokens ++ rest) := by
      rw [show ts = _ from hp, Factors.tokens, hus, List.cons_append, List.cons_append]
    rw [productTail_of_opens ht, hb]
    exact more.reads rfl hr
termination_by structural d

theorem Signed.reads (d : Signed) {ts rest : List Token} (hts : ts = d.tokens ++ rest)
    (hr : EndsAt 1 rest) : Reads (signed ts) d.tree rest := by
  cases d with
  | signed s a =>
    obtain rfl : ts = s.token :: (a.tokens ++ rest) := hts
    obtain ⟨h, ha⟩ := a.reads rfl hr
    rw [signed_sign, ha]
    exact ⟨_, rfl⟩
  | unsigned a =>
    obtain ⟨h, ha⟩ := a.reads hts hr
    rw [signed_of_ne fun s us hus => s.not_opens (Power.opens_of_append (hts.symm.trans hus)), ha]
    exact ⟨h, rfl⟩
termination_by structural d

theorem Power.reads (d : Power) {ts rest : List Token} (hts : ts = d.tokens ++ rest)
    (hr : EndsAt 1 rest) : Reads (power ts) d.tree rest := by
  cases d with
  | atom a =>
    obtain ⟨h, ha⟩ := a.reads hts
    exact ⟨h, power_of_ne ha fun us h => hr.ne_cons (by decide : looseness .caret ≤ 1) h⟩
  | pow a e =>
    have hatom : ts = a.tokens ++ .caret :: (e.tokens ++ rest) := hts.trans (List.append_assoc ..)
    obtain ⟨h, ha⟩ := a.reads hatom
    obtain ⟨h', he⟩ := e.reads rfl hr
    rw [power_caret ha, he]
    exact ⟨_, rfl⟩
termination_by structural d

theorem Atom.reads (d : Atom) {ts rest : List Token} (hts : ts = d.tokens ++ rest) :
    Reads (atom ts) d.tree rest := by
  cases d with
  | number x =>
    obtain rfl : ts = .number x :: rest := hts
    rw [atom]
    exact ⟨_, rfl⟩
  | bracketed k a =>
    obtain rfl : ts = .opening k :: (a.tokens ++ [Token.closing k] ++ rest) := hts
    have hsum : a.tokens ++ [Token.closing k] ++ rest = a.tokens ++ .closing k :: rest :=
      List.append_assoc ..
    obtain ⟨h, ha⟩ := a.reads hsum (endsAt_closing k rest)
    exact ⟨_, atom_bracketed ha⟩
termination_by structural d

end

end Grammar

/-! ## what is read is derived -/

namespace Arith

open Grammar

/-! ### one step back -/

section
variable {n : Nat} {ts : List Token}

/-- further terms begin with a sign -/
theorem sumTail_eq_some {p q : Parsed n} (h : sumTail p = some q) :
    p = q ∨ ∃ (s : Sign) (ts : List Token) (hlt : (s.token :: ts).length < n) (b : Parsed ts.length),
      p = ⟨p.tree, s.token :: ts, hlt⟩ ∧ product ts = some b ∧
        sumTail ⟨s.join p.tree b.tree, b.rest, Nat.lt_trans b.rest_lt (Nat.lt_of_succ_lt hlt)⟩
          = some q := by
  by_cases hs : ∃ (s : Sign) (ts : List Token), p.rest = s.token :: ts
  · obtain ⟨a, us, hlt⟩ := p
    obtain ⟨s, ts, rfl⟩ : ∃ (s : Sign) (ts : List Token), us = s.token :: ts := hs
    rw [sumTail_sign] at h
    obtain ⟨b, hb, hq⟩ := Option.bind_eq_some_iff.mp h
    exact .inr ⟨s, ts, hlt, b, rfl, hb, hq⟩
  · rw [sumTail_of_ne fun s ts h => hs ⟨s, ts, h⟩] at h
    exact .inl (Option.some.inj h)

/-- further factors begin with a sign, or they are read from where they open -/
theorem productTail_eq_some {p q : Parsed n} (h : productTail p = some q) :
    p = q ∨ (∃ (s : Scale) (ts : List Token) (hlt : (s.token :: ts).length < n) (b : Parsed ts.length),
      p = ⟨p.tree, s.token :: ts, hlt⟩ ∧ signed ts = some b ∧
        productTail ⟨s.join p.tree b.tree, b.rest, Nat.lt_trans b.rest_lt (Nat.lt_of_succ_lt hlt)⟩
          = some q) ∨
      ∃ b : Parsed p.rest.length, power p.rest = some b ∧
        productTail ⟨.mul p.tree b.tree, b.rest, Nat.lt_trans b.rest_lt p.rest_lt⟩ = some q := by
  by_cases hs : ∃ (s : Scale) (ts : List Token), p.rest = s.token :: ts
  · obtain ⟨a, us, hlt⟩ := p
    obtain ⟨s, ts, rfl⟩ : ∃ (s : Scale) (ts : List Token), us = s.token :: ts := hs
    rw [productTail_scale] at h
    obtain ⟨b, hb, hq⟩ := Option.bind_eq_some_iff.mp h
    exact .inr (.inl ⟨s, ts, hlt, b, rfl, hb, hq⟩)
  by_cases ho : ∃ t ts, Opens t ∧ p.rest = t :: ts
  · obtain ⟨a, us, hlt⟩ := p
    obtain ⟨t, ts, ht, rfl⟩ : ∃ t ts, Opens t ∧ us = t :: ts := ho
    rw [productTail_of_opens ht] at h
    obtain ⟨b, hb, hq⟩ := Option.bind_eq_some_iff.mp h
    exact .inr (.inr ⟨b, hb, hq⟩)
  · rw [productTail_of_ne (fun s ts h => hs ⟨s, ts, h⟩) fun t ts ht h => ho ⟨t, ts, ht, h⟩] at h
    exact .inl (Option.some.inj h)

theorem signed_eq_some {p : Parsed ts.length} (h : signed ts = some p) :
    power ts = some p ∨ ∃ (s : Sign) (us : List Token) (b : Parsed us.length),
      ts = s.token :: us ∧ signed us = some b ∧ p.tree = s.apply b.tree ∧ p.rest = b.rest := by
  by_cases hs : ∃ (s : Sign) (us : List Token), ts = s.token :: us
  · obtain ⟨s, us, rfl⟩ := hs
    rw [signed_sign] at h
    obtain ⟨b, hb, rfl⟩ := Option.map_eq_some_iff.mp h
    exact .inr ⟨s, us, b, rfl, hb, rfl, rfl⟩
  · exact .inl ((signed_of_ne fun s us h => hs ⟨s, us, h⟩).symm.trans h)

theorem power_eq_some {p : Parsed ts.length} (h : power ts = some p) :
    atom ts = some p ∨ ∃ (a : Arith) (us : List Token) (hlt : (Token.caret :: us).length < ts.length)
      (b : Parsed us.length), atom ts = some ⟨a, .caret :: us, hlt⟩ ∧ signed us = some b ∧
        p.tree = .pow a b.tree ∧ p.rest = b.rest := by
  have hq : ∃ q, atom ts = some q := by
    rw [power] at h
    obtain ⟨q, hq, _⟩ := Option.bind_eq_some_iff.mp h
    exact ⟨q, hq⟩
  obtain ⟨q, hq⟩ := hq
  by_cases hc : ∃ us, q.rest = .caret :: us
  · obtain ⟨a, ts', hlt⟩ := q
    obtain ⟨us, rfl⟩ : ∃ us, ts' = .caret :: us := hc
    rw [power_caret hq] at h
    obtain ⟨b, hb, rfl⟩ := Option.map_eq_some_iff.mp h
    exact .inr ⟨a, us, hlt, b, hq, hb, rfl, rfl⟩
  · rw [power_of_ne hq fun us h => hc ⟨us, h⟩] at h
    exact .inl (hq.trans h)

/-- one bracket closes what the other opens -/
theorem atom_eq_some {p : Parsed ts.length} (h : atom ts = some p) :
    (∃ x, ts = .number x :: p.rest ∧ p.tree = .number x) ∨
      ∃ (k : Bracket) (us : List Token) (hlt : (Token.closing k :: p.rest).length < us.length),
        ts = .opening k :: us ∧ sum us = some ⟨p.tree, .closing k :: p.rest, hlt⟩ := by
  cases ts with
  | nil => simp [atom] at h
  | cons t us =>
    cases t with
    | number x =>
      rw [atom] at h
      cases h
      exact .inl ⟨x, rfl, rfl⟩
    | opening k =>
      rw [atom] at h
      obtain ⟨⟨a, vs, hlt⟩, hq, hp⟩ := Option.bind_eq_some_iff.mp h
      cases vs with
      | nil => cases hp
      | cons t vs =>
        cases t with
        | closing k' =>
          obtain ⟨rfl, hp⟩ := Option.ite_none_right_eq_some.mp hp
          cases hp
          exact .inr ⟨k', us, hlt, rfl, hq⟩
        | _ => cases hp
    | _ => simp [atom] at h

end

/-! ### all steps back -/

mutual

theorem exists_of_sum {ts : List Token} {p : Parsed ts.length} (h : sum ts = some p) :
    ∃ d : Sum, d.tokens ++ p.rest = ts ∧ d.tree = p.tree := by
  rw [sum] at h
  obtain ⟨q, hq, hp⟩ := Option.bind_eq_some_iff.mp h
  have := q.rest_lt
  obtain ⟨a, ha, htree⟩ := exists_of_product hq
  obtain ⟨more, hmore, htree'⟩ := exists_of_sumTail hp
  exact ⟨.mk a more, by rw [Sum.tokens, List.append_assoc, hmore, ha],
    by rw [Sum.tree, htree, htree']⟩
termination_by 5 * ts.length + 4

theorem exists_of_sumTail {n : Nat} {p q : Parsed n} (h : sumTail p = some q) :
    ∃ d : Terms, d.tokens ++ q.rest = p.rest ∧ d.tree p.tree = q.tree := by
  obtain rfl | ⟨s, ts, hlt, b, hp, hb, hq⟩ := sumTail_eq_some h
  · exact ⟨.nil, rfl, rfl⟩
  have hrest : p.rest = s.token :: ts := congrArg Parsed.rest hp
  have : p.rest.length = ts.length + 1 := congrArg List.length hrest
  have := b.rest_lt
  obtain ⟨d, hd, htree⟩ := exists_of_product hb
  obtain ⟨more, hmore, htree'⟩ := exists_of_sumTail hq
  exact ⟨.cons s d more, by rw [Terms.tokens, List.cons_append, List.append_assoc, hmore, hd, hrest],
    by rw [Terms.tree, htree, htree']⟩
termination_by 5 * p.rest.length + 4

theorem exists_of_product {ts : List Token} {p : Parsed ts.length} (h : product ts = some p) :
    ∃ d : Product, d.tokens ++ p.rest = ts ∧ d.tree = p.tree := by
  rw [product] at h
  obtain ⟨q, hq, hp⟩ := Option.bind_eq_some_iff.mp h
  have := q.rest_lt
  obtain ⟨a, ha, htree⟩ := exists_of_signed hq
  obtain ⟨more, hmore, htree'⟩ := exists_of_productTail hp
  exact ⟨.mk a more, by rw [Product.tokens, List.append_assoc, hmore, ha],
    by rw [Product.tree, htree, htree']⟩
termination_by 5 * ts.length + 3

theorem exists_of_productTail {n : Nat} {p q : Parsed n} (h : productTail p = some q) :
    ∃ d : Factors, d.tokens ++ q.rest = p.rest ∧ d.tree p.tree = q.tree := by
  obtain rfl | ⟨s, ts, hlt, b, hp, hb, hq⟩ | ⟨b, hb, hq⟩ := productTail_eq_some h
  · exact ⟨.nil, rfl, rfl⟩
  · have hrest : p.rest = s.token :: ts := congrArg Parsed.rest hp
    have : p.rest.length = ts.length + 1 := congrArg List.length hrest
    have := b.rest_lt
    obtain ⟨d, hd, htree⟩ := exists_of_signed hb
    obtain ⟨more, hmore, htree'⟩ := exists_of_productTail hq
    exact ⟨.cons s d more,
      by rw [Factors.tokens, List.cons_append, List.append_assoc, hmore, hd, hrest],
      by rw [Factors.tree, htree, htree']⟩
  · have := b.rest_lt
    obtain ⟨d, hd, htree⟩ := exists_of_power hb
    obtain ⟨more, hmore, htree'⟩ := exists_of_productTail hq
    exact ⟨.beside d more, by rw [Factors.tokens, List.append_assoc, hmore, hd],
      by rw [Factors.tree, htree, htree']⟩
termination_by 5 * p.rest.length + 3

theorem exists_of_signed {ts : List Token} {p : Parsed ts.length} (h : signed ts = some p) :
    ∃ d : Signed, d.tokens ++ p.rest = ts ∧ d.tree = p.tree := by
  obtain h | ⟨s, us, b, rfl, hb, htree', hrest⟩ := signed_eq_some h
  · obtain ⟨d, hd, htree⟩ := exists_of_power h
    exact ⟨.unsigned d, hd, htree⟩
  · have : us.length < (s.token :: us).length := Nat.lt_succ_self _
    obtain ⟨d, hd, htree⟩ := exists_of_signed hb
    exact ⟨.signed s d, by rw [Signed.tokens, List.cons_append, hrest, hd],
      by rw [Signed.tree, htree, htree']⟩
termination_by 5 * ts.length + 2

theorem exists_of_power {ts : List Token} {p : Parsed ts.length} (h : power ts = some p) :
    ∃ d : Power, d.tokens ++ p.rest = ts ∧ d.tree = p.tree := by
  obtain h | ⟨a, us, hlt, b, ha, hb, htree', hrest⟩ := power_eq_some h
  · obtain ⟨d, hd, htree⟩ := exists_of_atom h
    exact ⟨.atom d, hd, htree⟩
  · have := Nat.lt_of_succ_lt hlt
    obtain ⟨d, hd, htree⟩ := exists_of_atom ha
    obtain ⟨e, he, hetree⟩ := exists_of_signed hb
    exact ⟨.pow d e, by rw [Power.tokens, List.append_assoc, List.cons_append, hrest, he, hd],
      by rw [Power.tree, htree, hetree, htree']⟩
termination_by 5 * ts.length + 1

theorem exists_of_atom {ts : List Token} {p : Parsed ts.length} (h : atom ts = some p) :
    ∃ d : Atom, d.tokens ++ p.rest = ts ∧ d.tree = p.tree := by
  obtain ⟨x, hts, htree⟩ | ⟨k, us, hlt, rfl, hus⟩ := atom_eq_some h
  · exact ⟨.number x, hts.symm, htree.symm⟩
  · have : us.length < (Token.opening k :: us).length := Nat.lt_succ_self _
    obtain ⟨d, hd, htree⟩ := exists_of_sum hus
    refine ⟨.bracketed k d, ?_, htree⟩
    rw [Atom.tokens, List.cons_append, List.append_assoc]
    exact congrArg _ hd
termination_by 5 * ts.length

end

/-! ## the parser -/

theorem parse?_eq_some {ts : List Token} {a : Arith} :
    parse? ts = some a ↔ Reads (sum ts) a [] := by
  rw [parse?]
  split
  · next b h hb =>
    rw [hb]
    exact ⟨fun hab => ⟨h, by cases hab; rfl⟩, fun ⟨_, hab⟩ => by cases hab; rfl⟩
  · next hne => exact iff_of_false (fun h => by cases h) fun ⟨h, ha⟩ => hne a h ha

theorem parse?_eq_some_iff_derived {ts : List Token} {a : Arith} :
    parse? ts = some a ↔ ∃ d : Sum, d.tokens = ts ∧ d.tree = a := by
  rw [parse?_eq_some]
  constructor
  · rintro ⟨h, ha⟩
    obtain ⟨d, hd, htree⟩ := exists_of_sum ha
    exact ⟨d, (List.append_nil _).symm.trans hd, htree⟩
  · rintro ⟨d, rfl, rfl⟩
    exact d.reads (List.append_nil _).symm (endsAt_nil 3)

/-- a token list has a value exactly if it is derived, and that is the value of its one derivation;
what stands without a sign before it in a product starts with a number or an opening bracket -/
theorem parsed_iff_derived (ts : List Token) :
    (∀ a, parse? ts = some a ↔ ∃ d : Sum, d.tokens = ts ∧ d.tree = a) ∧
      (∀ v, (parse? ts).map eval = some v ↔ ∃ d : Sum, d.tokens = ts ∧ d.value = v) ∧
      Subsingleton { d : Sum // d.tokens = ts } ∧
      ∀ s : Signed, (∃ t ∈ s.tokens.head?, Opens t) ↔ ∃ b : Power, s = .unsigned b := by
  refine ⟨fun a => parse?_eq_some_iff_derived, fun v => ?_, ⟨?_⟩, Signed.opens_iff⟩
  · rw [Option.map_eq_some_iff]
    constructor
    · rintro ⟨a, ha, hv⟩
      obtain ⟨d, hd, htree⟩ := parse?_eq_some_iff_derived.mp ha
      exact ⟨d, hd, d.eval_tree.symm.trans (htree.symm ▸ hv)⟩
    · rintro ⟨d, hd, hv⟩
      exact ⟨d.tree, parse?_eq_some_iff_derived.mpr ⟨d, hd, rfl⟩, d.eval_tree.trans hv⟩
  · rintro ⟨d, hd⟩ ⟨d', hd'⟩
    exact Subtype.ext (Sum.tokens_injective (hd.trans hd'.symm))

/-- an exponent has a sign of its own, and powers are grouped from the right -/
example (x y z : Float) :
    parse? [.number x, .opening .round, .number y, .closing .round, .caret, .minus, .number z, .caret,
      .number x] = some (.mul (.number x) (.pow (.number y) (.neg (.pow (.number z) (.number x))))) := by
  cbv

end Arith

end Worksheet
