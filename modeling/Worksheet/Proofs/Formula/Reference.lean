import Mathlib.Data.List.Forall2
import Worksheet.Formula.Reference

/-!
# The positions that a call names

* `mapM_eq_some`, `mapM_eq_ok`
                       a list is mapped with success exactly if each of its members is;
* `mapM_eq_none`, `mapM_eq_error`
                       it is not if one of them is not, and the first such decides the error;
* `Position.mem_rect`  the positions of a rectangle;
* `Call.positions?_of_targets`
                       the targets of a call that may be wired are the positions that it names, and
                       every part of it is a label inside the sheet and not the formula's own;
* `Call.targets_eq_error`
                       a call may not be wired if a part of it is not such a label, or if it is a
                       range without two corners;
* `Call.inside_of_targets`
                       the targets lie inside the sheet.
-/

namespace Worksheet

theorem mapM_eq_some {α β : Type} {f : α → Option β} {as : List α} {bs : List β} :
    as.mapM f = some bs ↔ List.Forall₂ (fun a b => f a = some b) as bs := by
  induction as generalizing bs with
  | nil =>
    rw [List.mapM_nil, List.forall₂_nil_left_iff]
    exact ⟨fun h => (Option.some.inj h).symm, fun h => h ▸ rfl⟩
  | cons a as ih =>
    rw [List.mapM_cons]
    simp only [bind, pure, Option.bind_eq_some_iff, Option.some.injEq, List.forall₂_cons_left_iff]
    constructor
    · rintro ⟨b, hb, bs, hbs, rfl⟩
      exact ⟨b, bs, hb, ih.mp hbs, rfl⟩
    · rintro ⟨b, bs, hb, hbs, rfl⟩
      exact ⟨b, hb, bs, ih.mpr hbs, rfl⟩

theorem mapM_eq_ok {ε α β : Type} {f : α → Except ε β} {as : List α} {bs : List β} :
    as.mapM f = .ok bs ↔ List.Forall₂ (fun a b => f a = .ok b) as bs := by
  induction as generalizing bs with
  | nil =>
    rw [List.mapM_nil, List.forall₂_nil_left_iff]
    exact ⟨fun h => (Except.ok.inj h).symm, fun h => h ▸ rfl⟩
  | cons a as ih =>
    rw [List.mapM_cons, List.forall₂_cons_left_iff]
    cases ha : f a with
    | error e =>
      refine ⟨fun h => (by cases h), fun ⟨b, bs, hb, _⟩ => (by cases hb)⟩
    | ok b =>
      show (as.mapM f >>= fun bs => pure (b :: bs)) = .ok bs ↔ _
      cases has : as.mapM f with
      | error e =>
        refine ⟨fun h => (by cases h), fun ⟨b', bs', _, hbs, _⟩ => ?_⟩
        rw [ih.mpr hbs] at has
        cases has
      | ok bs' =>
        constructor
        · intro h
          exact ⟨b, bs', rfl, ih.mp has, (Except.ok.inj h).symm⟩
        · rintro ⟨b', bs'', hb, hbs, rfl⟩
          rw [ih.mpr hbs] at has
          rw [Except.ok.inj hb, Except.ok.inj has]
          rfl

theorem mapM_congr {α β ε : Type} {f g : α → Except ε β} {as : List α} (h : ∀ a ∈ as, f a = g a) :
    as.mapM f = as.mapM g := by
  induction as with
  | nil => rfl
  | cons a as ih =>
    rw [List.mapM_cons, List.mapM_cons, h a (List.mem_cons_self ..),
      ih fun b hb => h b (List.mem_cons_of_mem _ hb)]

theorem mapM_eq_none {α β : Type} {f : α → Option β} {as : List α} :
    as.mapM f = none ↔ ∃ a ∈ as, f a = none := by
  induction as with
  | nil => exact ⟨nofun, fun ⟨_, ha, _⟩ => absurd ha List.not_mem_nil⟩
  | cons a as ih =>
    rw [List.mapM_cons, List.exists_mem_cons_iff, ← ih]
    cases f a with
    | none => exact ⟨fun _ => .inl rfl, fun _ => rfl⟩
    | some b =>
      cases as.mapM f with
      | none => exact ⟨fun _ => .inr rfl, fun _ => rfl⟩
      | some bs => exact ⟨nofun, fun h => h.elim nofun nofun⟩

/-- the first member without a result decides the error -/
theorem mapM_eq_error {ε α β : Type} {f : α → Except ε β} {as : List α} {e : ε} :
    as.mapM f = .error e ↔ ∃ pre a post, as = pre ++ a :: post ∧
      (∀ x ∈ pre, ∀ e', f x ≠ .error e') ∧ f a = .error e := by
  induction as with
  | nil =>
    refine ⟨nofun, fun ⟨pre, a, post, h, _⟩ => ?_⟩
    exact absurd h.symm (List.append_ne_nil_of_right_ne_nil pre (List.cons_ne_nil a post))
  | cons a as ih =>
    rw [List.mapM_cons]
    cases ha : f a with
    | error e' =>
      constructor
      · intro h
        exact ⟨[], a, as, rfl, fun _ hx => absurd hx List.not_mem_nil,
          ha.trans (congrArg _ (Except.error.inj h))⟩
      · rintro ⟨pre, x, post, e, hpre, hx⟩
        cases pre with
        | nil =>
          obtain ⟨rfl, -⟩ := List.cons.inj e
          rw [ha] at hx
          exact congrArg _ (Except.error.inj hx)
        | cons b pre =>
          obtain ⟨rfl, -⟩ := List.cons.inj e
          exact absurd ha (hpre _ (List.mem_cons_self ..) e')
    | ok b =>
      have htail : (as.mapM f >>= fun bs => pure (b :: bs)) = .error e ↔ as.mapM f = .error e := by
        cases as.mapM f with
        | error e' =>
          exact ⟨fun h => congrArg _ (Except.error.inj h), fun h => congrArg _ (Except.error.inj h)⟩
        | ok bs => exact ⟨nofun, nofun⟩
      refine htail.trans (ih.trans ?_)
      constructor
      · rintro ⟨pre, x, post, rfl, hpre, hx⟩
        refine ⟨a :: pre, x, post, rfl, fun y hy e' => ?_, hx⟩
        rcases List.mem_cons.mp hy with rfl | hy
        · rw [ha]
          nofun
        · exact hpre y hy e'
      · rintro ⟨pre, x, post, e, hpre, hx⟩
        cases pre with
        | nil =>
          obtain ⟨rfl, -⟩ := List.cons.inj e
          rw [ha] at hx
          cases hx
        | cons b pre =>
          obtain ⟨rfl, rfl⟩ := List.cons.inj e
          exact ⟨pre, x, post, rfl, fun y hy => hpre y (List.mem_cons_of_mem _ hy), hx⟩

theorem exists_of_forall₂_of_mem_left {α β : Type} {r : α → β → Prop} {as : List α} {bs : List β}
    (h : List.Forall₂ r as bs) {a : α} (ha : a ∈ as) : ∃ b ∈ bs, r a b := by
  induction h with
  | nil => cases ha
  | cons hab _ ih =>
    rcases List.mem_cons.mp ha with rfl | ha
    · exact ⟨_, List.mem_cons_self .., hab⟩
    · exact (ih ha).imp fun _ hb => ⟨List.mem_cons_of_mem _ hb.1, hb.2⟩

theorem exists_of_forall₂_of_mem_right {α β : Type} {r : α → β → Prop} {as : List α} {bs : List β}
    (h : List.Forall₂ r as bs) {b : β} (hb : b ∈ bs) : ∃ a ∈ as, r a b :=
  exists_of_forall₂_of_mem_left h.flip hb

namespace Position

theorem mem_rect {p a b : Position} :
    p ∈ rect a b ↔ (min a.row b.row ≤ p.row ∧ p.row ≤ max a.row b.row) ∧
      min a.col b.col ≤ p.col ∧ p.col ≤ max a.col b.col := by
  simp only [rect, List.mem_flatMap, List.mem_map, mem_between]
  constructor
  · rintro ⟨r, hr, c, hc, rfl⟩
    exact ⟨hr, hc⟩
  · rintro ⟨hr, hc⟩
    exact ⟨p.row, hr, p.col, hc, rfl⟩

end Position

namespace Call

theorem target?_eq_some {origin : Position} {rows cols : Nat} {part : Text} {p : Position} :
    target? origin rows cols part = some p ↔ Position.ofLabel? part = some p ∧
      p.row < rows ∧ p.col < cols ∧ p ≠ origin := by
  rw [target?, Option.filter_eq_some_iff, decide_eq_true_eq]

/-- a part is a label of a cell of the sheet other than `origin` -/
def Names (origin : Position) (rows cols : Nat) (part : Text) : Prop :=
  ∃ p, Position.ofLabel? part = some p ∧ p.row < rows ∧ p.col < cols ∧ p ≠ origin

theorem corners?_eq_some {c : Call} {a b : Position} :
    c.corners? = some (a, b) ↔ c.shape = .range ∧
      ∃ s t, c.parts = [s, t] ∧ Position.ofLabel? s = some a ∧ Position.ofLabel? t = some b := by
  unfold corners?
  split
  · next s t hs ht =>
    simp only [bind, pure, Option.bind_eq_some_iff, Option.some.injEq, Prod.mk.injEq, hs, ht,
      List.cons.injEq, and_true, true_and]
    constructor
    · rintro ⟨a', ha, b', hb, rfl, rfl⟩
      exact ⟨s, t, ⟨rfl, rfl⟩, ha, hb⟩
    · rintro ⟨_, _, ⟨rfl, rfl⟩, ha, hb⟩
      exact ⟨a, ha, b, hb, rfl, rfl⟩
  · next hno =>
    refine ⟨fun h => (by cases h), fun ⟨hs, s, t, ht, _⟩ => absurd ht (hno s t hs)⟩

/-- the targets of a call that may be wired are the positions it names -/
theorem positions?_of_targets {c : Call} {origin : Position} {rows cols : Nat} {ps : List Position}
    (h : c.targets origin rows cols = .ok ps) :
    c.positions? = some ps ∧ ∀ part ∈ c.parts, Names origin rows cols part := by
  have names : ∀ {parts : List Text} {qs : List Position},
      List.Forall₂ (fun part q => target? origin rows cols part = some q) parts qs →
      List.Forall₂ (fun part q => Position.ofLabel? part = some q) parts qs ∧
        ∀ part ∈ parts, Names origin rows cols part := by
    intro parts qs hqs
    refine ⟨hqs.imp fun _ _ hq => (target?_eq_some.mp hq).1, fun part hpart => ?_⟩
    obtain ⟨q, _, hq⟩ := exists_of_forall₂_of_mem_left hqs hpart
    exact ⟨q, target?_eq_some.mp hq⟩
  unfold targets at h
  split at h
  · next a b hs hab =>
    obtain ⟨hl, hn⟩ := names (mapM_eq_some.mp hab)
    obtain ⟨s, _, hs', htail, e⟩ := List.forall₂_cons_right_iff.mp hl
    obtain ⟨t, _, ht', hnil, e'⟩ := List.forall₂_cons_right_iff.mp htail
    rw [List.forall₂_nil_right_iff.mp hnil] at e'
    have hc : c.corners? = some (a, b) := corners?_eq_some.mpr ⟨hs, s, t, by rw [e, e'], hs', ht'⟩
    refine ⟨?_, hn⟩
    rw [positions?, hs, hc]
    exact congrArg some (Except.ok.inj h)
  · cases h
  · next ps' hps _ hs =>
    obtain ⟨hl, hn⟩ := names (mapM_eq_some.mp hps)
    obtain rfl := Except.ok.inj h
    refine ⟨?_, hn⟩
    have e : c.positions? = c.parts.mapM Position.ofLabel? := by
      unfold positions?
      split
      · next hr => exact absurd hr hs
      · rfl
    rw [e]
    exact mapM_eq_some.mpr hl
  · cases h

/-- a call is refused for one of its parts, or for their number -/
theorem targets_eq_error {c : Call} {origin : Position} {rows cols : Nat} {f : Fault} :
    c.targets origin rows cols = .error f ↔
      ((∃ part ∈ c.parts, ¬Names origin rows cols part) ∨ c.shape = .range ∧ c.parts.length ≠ 2) ∧
        f = c.refusal := by
  have hnames : ∀ part, ¬Names origin rows cols part ↔ target? origin rows cols part = none := by
    intro part
    rw [Option.eq_none_iff_forall_ne_some]
    simp only [Names, ne_eq, target?_eq_some, not_exists]
  simp only [hnames, ← mapM_eq_none]
  have herror : (Except.error c.refusal : Except Fault (List Position)) = .error f ↔ f = c.refusal :=
    ⟨fun h => (Except.error.inj h).symm, fun h => congrArg _ h.symm⟩
  unfold targets
  split
  · next a b _ hps =>
    have hlen := (mapM_eq_some.mp hps).length_eq
    refine iff_of_false nofun fun h => ?_
    rcases h.1 with hnone | ⟨_, hne⟩
    · rw [hps] at hnone
      cases hnone
    · exact hne hlen
  · next hsh hno =>
    rw [herror, iff_and_self]
    intro _
    cases hps : c.parts.mapM (target? origin rows cols) with
    | none => exact .inl rfl
    | some ps =>
      refine .inr ⟨hsh, fun hlen => ?_⟩
      rw [(mapM_eq_some.mp hps).length_eq] at hlen
      obtain ⟨a, b, rfl⟩ := List.length_eq_two.mp hlen
      exact hno a b hps
  · next ps hps hno hsh =>
    refine iff_of_false nofun fun h => ?_
    rcases h.1 with hnone | ⟨hr, _⟩
    · rw [hps] at hnone
      cases hnone
    · exact hsh hr
  · next hnone _ =>
    rw [herror, iff_and_self]
    exact fun _ => .inl hnone

theorem inside_of_targets {c : Call} {origin : Position} {rows cols : Nat} {ps : List Position}
    (h : c.targets origin rows cols = .ok ps) {p : Position} (hp : p ∈ ps) :
    p.row < rows ∧ p.col < cols := by
  unfold targets at h
  split at h
  · next a b _ hab =>
    have hall := mapM_eq_some.mp hab
    obtain ⟨s, _, hs, htail, _⟩ := List.forall₂_cons_right_iff.mp hall
    obtain ⟨t, _, ht, _, _⟩ := List.forall₂_cons_right_iff.mp htail
    have ha := (target?_eq_some.mp hs).2
    have hb := (target?_eq_some.mp ht).2
    obtain rfl := Except.ok.inj h
    have hr := Position.mem_rect.mp hp
    omega
  · cases h
  · next ps' hps _ _ =>
    obtain rfl := Except.ok.inj h
    obtain ⟨_, _, ht⟩ := exists_of_forall₂_of_mem_right (mapM_eq_some.mp hps) hp
    have hin := (target?_eq_some.mp ht).2
    exact ⟨hin.1, hin.2.1⟩
  · cases h

end Call

end Worksheet
