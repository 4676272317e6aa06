import Worksheet.Proofs.Formula.Call
import Worksheet.Proofs.Formula.Reference
import Worksheet.Proofs.Sheet.Lines

/-!
# What a call names, and how it is written

* `Shape.span`         the positions that labels name: a rectangle for a range, or just these;
* `Call.StandsFor`     the parts of a call stand for positions, in one sense or another;
* `Call.positions?_eq_some` in the sense of `Position.ofLabel?`, which decides what the call names;
* `Call.Spells`        in the sense of `Position.SpelledBy`, which is the one that lasts;
* `Call.exists_spells` both are the same where no label has a leading zero;
* `Shape.mem_span_opened`, `Shape.mem_span_closed`
                       what is named when a line is put in or taken out.
-/

namespace Worksheet

theorem forall₂_imp_of_mem {α β : Type} {r r' : α → β → Prop} {as : List α} {bs : List β}
    (h : List.Forall₂ r as bs) (hr : ∀ a ∈ as, ∀ b ∈ bs, r a b → r' a b) :
    List.Forall₂ r' as bs := by
  induction h with
  | nil => exact .nil
  | cons hab _ ih =>
    exact .cons (hr _ (List.mem_cons_self ..) _ (List.mem_cons_self ..) hab) (ih fun a ha b hb =>
      hr a (List.mem_cons_of_mem _ ha) b (List.mem_cons_of_mem _ hb))

theorem exists_forall₂ {α β : Type} {r : α → β → Prop} {as : List α}
    (h : ∀ a ∈ as, ∃ b, r a b) : ∃ bs, List.Forall₂ r as bs := by
  induction as with
  | nil => exact ⟨[], .nil⟩
  | cons a as ih =>
    obtain ⟨b, hb⟩ := h a (List.mem_cons_self ..)
    obtain ⟨bs, hbs⟩ := ih fun a' ha' => h a' (List.mem_cons_of_mem _ ha')
    exact ⟨b :: bs, .cons hb hbs⟩

namespace Shape

/-- a range has two corners -/
def span : Shape → List Position → List Position
  | .range, [a, b] => Position.rect a b
  | .range, _ => []
  | _, ls => ls

theorem span_of_ne {sh : Shape} (h : sh ≠ .range) (ls : List Position) : sh.span ls = ls := by
  cases sh with
  | range => exact absurd rfl h
  | single => rfl
  | list => rfl

/-- every label names a position -/
theorem mem_span {sh : Shape} {ls : List Position} (h : sh = .range → ls.length = 2)
    {p : Position} (hp : p ∈ ls) : p ∈ sh.span ls := by
  by_cases hsh : sh = .range
  · obtain ⟨a, b, rfl⟩ := List.length_eq_two.mp (h hsh)
    subst hsh
    refine Position.mem_rect.mpr ?_
    rcases List.mem_cons.mp hp with rfl | hp
    · omega
    · rw [List.mem_singleton.mp hp]
      omega
  · rw [span_of_ne hsh]
    exact hp

end Shape

/-! ## calls and positions -/

namespace Call

/-- the parts stand for the positions `ls` in the sense of `r`, two of them if the call is a range -/
structure StandsFor (r : Text → Position → Prop) (c : Call) (ls : List Position) : Prop where
  parts : List.Forall₂ r c.parts ls
  two : c.shape = .range → ls.length = 2

abbrev Spells (c : Call) (ls : List Position) : Prop := c.StandsFor (fun t p => p.SpelledBy t) ls

abbrev Decodes (c : Call) (ls : List Position) : Prop :=
  c.StandsFor (fun t p => Position.ofLabel? t = some p) ls

theorem corners?_eq_some_iff_decodes {c : Call} {a b : Position} :
    c.corners? = some (a, b) ↔ c.shape = .range ∧ c.Decodes [a, b] := by
  rw [corners?_eq_some]
  refine and_congr_right fun _ => ⟨fun ⟨s, t, e, hs, ht⟩ => ⟨?_, fun _ => rfl⟩, fun h => ?_⟩
  · rw [e]
    exact .cons hs (.cons ht .nil)
  · obtain ⟨s, _, hs, htail, e⟩ := List.forall₂_cons_right_iff.mp h.parts
    obtain ⟨t, _, ht, hnil, rfl⟩ := List.forall₂_cons_right_iff.mp htail
    rw [List.forall₂_nil_right_iff.mp hnil] at e
    exact ⟨s, t, e, hs, ht⟩

/-- what a call decodes to is settled by what its parts are read as -/
theorem decodes_congr {c d : Call} (hshape : d.shape = c.shape)
    (hparts : d.parts.map Position.ofLabel? = c.parts.map Position.ofLabel?) {ls : List Position} :
    d.Decodes ls ↔ c.Decodes ls := by
  have hread : ∀ c : Call, List.Forall₂ (fun t p => Position.ofLabel? t = some p) c.parts ls ↔
      c.parts.map Position.ofLabel? = ls.map some := fun c => by
    rw [← List.forall₂_eq_eq_eq, List.forall₂_map_left_iff, List.forall₂_map_right_iff]
  constructor
  · intro h
    exact ⟨(hread c).mpr (hparts ▸ (hread d).mp h.parts), fun hr => h.two (hshape.trans hr)⟩
  · intro h
    exact ⟨(hread d).mpr (hparts.trans ((hread c).mp h.parts)), fun hr => h.two (hshape ▸ hr)⟩

theorem positions?_eq_some {c : Call} {ps : List Position} :
    c.positions? = some ps ↔ ∃ ls, c.Decodes ls ∧ c.shape.span ls = ps := by
  by_cases hsh : c.shape = .range
  · rw [positions?, hsh]
    simp only [Option.map_eq_some_iff, Prod.exists]
    constructor
    · rintro ⟨a, b, hab, rfl⟩
      exact ⟨[a, b], (corners?_eq_some_iff_decodes.mp hab).2, rfl⟩
    · rintro ⟨ls, hls, rfl⟩
      obtain ⟨a, b, rfl⟩ := List.length_eq_two.mp (hls.two hsh)
      exact ⟨a, b, corners?_eq_some_iff_decodes.mpr ⟨hsh, hls⟩, rfl⟩
  · have e : c.positions? = c.parts.mapM Position.ofLabel? := by
      unfold positions?
      split
      · next hr => exact absurd hr hsh
      · rfl
    rw [e, mapM_eq_some]
    constructor
    · exact fun h => ⟨ps, ⟨h, fun hr => absurd hr hsh⟩, Shape.span_of_ne hsh ps⟩
    · rintro ⟨ls, hls, rfl⟩
      rw [Shape.span_of_ne hsh]
      exact hls.parts

theorem Spells.unique {c : Call} {ls ls' : List Position} (h : c.Spells ls) (h' : c.Spells ls') :
    ls = ls' :=
  List.right_unique_forall₂' (R := fun t p => Position.SpelledBy p t)
    (fun _ _ _ hp hq => Position.eq_of_spelledBy hp hq) h.parts h'.parts

theorem Decodes.unique {c : Call} {ls ls' : List Position} (h : c.Decodes ls)
    (h' : c.Decodes ls') : ls = ls' :=
  List.right_unique_forall₂' (fun _ _ _ hp hq => Option.some.inj (hp.symm.trans hq)) h.parts h'.parts

/-- labels that are not too large are read as they are written -/
theorem Spells.decodes {c : Call} {ls : List Position} (h : c.Spells ls)
    (hls : ∀ p ∈ ls, p.row < maxCount ∧ p.col < maxCount) : c.Decodes ls where
  parts := forall₂_imp_of_mem h.parts fun _ _ p hp hs =>
    Position.ofLabel?_of_spelledBy hs (hls p hp).1 (hls p hp).2
  two := h.two

theorem exists_spells {c : Call} {ps : List Position} (h : c.positions? = some ps)
    (h0 : ∀ t ∈ c.parts, ¬Position.LeadingZero t) : ∃ ls, c.Spells ls ∧ c.shape.span ls = ps := by
  obtain ⟨ls, hls, rfl⟩ := positions?_eq_some.mp h
  exact ⟨ls, ⟨forall₂_imp_of_mem hls.parts fun t ht _ _ hp =>
    (Position.spelledBy_iff hp).mpr (h0 t ht), hls.two⟩, rfl⟩

/-! ## a label is replaced -/

/-- the texts of the arguments with the blanks around them -/
def pieces (c : Call) : List Text :=
  match c.shape with
  | .range => c.body.splitOn ':'
  | .list => c.body.splitOn ','
  | .single => [c.body]

theorem parts_eq (c : Call) : c.parts = c.pieces.map Text.trim := by
  unfold parts pieces
  cases c.shape <;> rfl

section
variable (old new : Position) (c : Call)

theorem shape_relabelled : (c.relabelled old new).shape = c.shape := by
  have hcontains : ∀ d : Char, d.isAlphanum = false →
      (c.relabelled old new).body.contains d = c.body.contains d := fun d hd => by
    rw [Bool.eq_iff_iff, List.contains_iff_mem, List.contains_iff_mem]
    exact mem_relabelFrom old new hd none c.body
  rw [shape, hcontains ':' (by decide), hcontains ',' (by decide)]
  rfl

theorem pieces_relabelled : (c.relabelled old new).pieces = c.pieces.map (relabel old new) := by
  rw [pieces, shape_relabelled, pieces]
  cases c.shape with
  | single => rfl
  | list => exact splitOn_relabel old new (by decide) c.body
  | range => exact splitOn_relabel old new (by decide) c.body

end

end Call

/-! ## a line is put in or taken out -/

namespace Position

theorem mem_rect_axis (axis : Axis) {p a b : Position} : p ∈ rect a b ↔
    (min (axis.coord a) (axis.coord b) ≤ axis.coord p ∧
      axis.coord p ≤ max (axis.coord a) (axis.coord b)) ∧
    min (axis.cross.coord a) (axis.cross.coord b) ≤ axis.cross.coord p ∧
      axis.cross.coord p ≤ max (axis.cross.coord a) (axis.cross.coord b) := by
  rw [mem_rect]
  cases axis
  · exact Iff.rfl
  · exact And.comm

variable {axis : Axis} {index : Nat} {a b p : Position}

theorem opened_mem_rect : axis.opened index p ∈ rect (axis.opened index a) (axis.opened index b) ↔
    p ∈ rect a b := by
  rw [mem_rect_axis axis, mem_rect_axis axis]
  simp only [Axis.coord_opened, Axis.cross_opened]
  refine and_congr_left fun _ => ?_
  split_ifs <;> omega

/-- no corner is behind the line and the other before it, or on the line -/
theorem apart_of_rect (h : ∀ p ∈ rect a b, axis.coord p ≠ index) :
    max (axis.coord a) (axis.coord b) < index ∨ index < min (axis.coord a) (axis.coord b) := by
  by_contra hno
  refine h (axis.along (fun _ => index) a) ?_ (axis.coord_along ..)
  rw [mem_rect_axis axis, axis.coord_along, axis.cross_along]
  omega

theorem mem_rect_closed (h : ∀ p ∈ rect a b, axis.coord p ≠ index) :
    p ∈ rect (axis.closed index a) (axis.closed index b) ↔ axis.opened index p ∈ rect a b := by
  rw [mem_rect_axis axis, mem_rect_axis axis]
  simp only [Axis.coord_closed, Axis.cross_closed, Axis.coord_opened, Axis.cross_opened]
  refine and_congr_left fun _ => ?_
  rcases apart_of_rect h with h | h <;> split_ifs <;> omega

end Position

namespace Shape
variable {sh : Shape} {ls : List Position} {axis : Axis} {index : Nat} {q : Position}

/-- ranges also name what has been put in between -/
theorem mem_span_opened (h : sh = .range → ls.length = 2) :
    q ∈ sh.span (ls.map (axis.opened index)) ↔ (∃ k ∈ sh.span ls, axis.opened index k = q) ∨
      sh = .range ∧ axis.coord q = index ∧ q ∈ sh.span (ls.map (axis.opened index)) := by
  by_cases hsh : sh = .range
  · obtain ⟨a, b, rfl⟩ := List.length_eq_two.mp (h hsh)
    subst hsh
    show q ∈ Position.rect (axis.opened index a) (axis.opened index b) ↔
      (∃ k ∈ Position.rect a b, axis.opened index k = q) ∨ _
    constructor
    · intro hq
      by_cases hi : axis.coord q = index
      · exact .inr ⟨rfl, hi, hq⟩
      · refine .inl ⟨axis.closed index q, ?_, Axis.opened_closed hi⟩
        rw [← Axis.opened_closed hi] at hq
        exact Position.opened_mem_rect.mp hq
    · rintro (⟨k, hk, rfl⟩ | ⟨_, _, hq⟩)
      · exact Position.opened_mem_rect.mpr hk
      · exact hq
  · simp only [span_of_ne hsh, List.mem_map, hsh, false_and, or_false]

theorem mem_span_closed (h : sh = .range → ls.length = 2)
    (hline : ∀ k ∈ sh.span ls, axis.coord k ≠ index) :
    q ∈ sh.span (ls.map (axis.closed index)) ↔ ∃ k ∈ sh.span ls, axis.closed index k = q := by
  by_cases hsh : sh = .range
  · obtain ⟨a, b, rfl⟩ := List.length_eq_two.mp (h hsh)
    subst hsh
    refine (Position.mem_rect_closed hline).trans ⟨fun hq => ⟨_, hq, axis.closed_opened index q⟩, ?_⟩
    rintro ⟨k, hk, rfl⟩
    rw [Axis.opened_closed (hline k hk)]
    exact hk
  · simp only [span_of_ne hsh, List.mem_map]

end Shape

end Worksheet
