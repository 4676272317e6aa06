import Worksheet.Proofs.Formula.Spelling
import Worksheet.Proofs.Formula.Word

/-!
# What the replacement of a label leaves of the calls

* `Call.parts_relabelled` the arguments of a call with a label replaced;
* `Call.Replaced`      what becomes of an argument: the label that is replaced, another label, and
                       what is not a label;
* `Call.replaced_relabel`
                       so it is with every argument;
* `slices`             the slices of the bytes that are copied between the labels;
* `sliceAt_slices`     each is a text of its own, and with the new label between them they are the
                       text with the label replaced;
* `relabel_keeps_calls`
                       the strict calls of a text with a label replaced, and the slices.

The replacement knows nothing of calls.  Labels are words, so what is put in for one neither joins
what stands beside it nor brings in a bracket, a comma or a colon.
-/

namespace Worksheet

/-! ## the arguments of a call -/

namespace Call

theorem parts_relabelled (old new : Position) (c : Call) :
    (c.relabelled old new).parts = c.parts.map (relabel old new) := by
  rw [parts_eq, parts_eq, pieces_relabelled, List.map_map, List.map_map]
  exact List.map_congr_left fun t _ => trim_relabel old new t

/-- what becomes of one argument -/
structure Replaced (old new : Position) (part part' : Text) : Prop where
  spelled : old.SpelledBy part → part' = new.label
  decoded : ¬old.SpelledBy part → (Position.ofLabel? part).isSome = true → part' = part
  undecoded : Position.ofLabel? part = none → Position.ofLabel? part' = none

theorem replaced_relabel {old new : Position} (hold : (Position.ofLabel? old.label).isSome = true)
    (t : Text) : Replaced old new t (relabel old new t) := by
  refine ⟨relabel_of_spelledBy, fun hno hsome => ?_, fun hnone => ?_⟩
  · obtain ⟨p, hp⟩ := Option.isSome_iff_exists.mp hsome
    exact relabel_of_not_spelledBy (Position.ofLabel?_eq_some hp).1 hno
  · -- only what is like a label could become a label, and then it is left as it is
    rw [Option.eq_none_iff_forall_ne_some]
    intro p hp
    have hlike := (Position.ofLabel?_eq_some hp).1
    rw [relabel_eq_reword] at hlike
    obtain ⟨a, d, ht⟩ := labelLike_of_reword (labelLike_replaced old new) hlike
    have hno : ¬old.SpelledBy t := fun hs => by
      rw [← Position.ofLabel?_congr hs old.spelledBy_label, hnone] at hold
      cases hold
    rw [relabel_of_not_spelledBy ht hno, hnone] at hp
    cases hp

end Call

/-! ## labels among the bytes -/

section
variable {p : Position} {u l rest : Text}

theorem StandsAlone.octets_eq {before : Option Char} (h : StandsAlone p before l rest) :
    Text.octets l = l :=
  Text.octets_of_isAscii fun c hc => Text.isAscii_of_isAlphanum (h.labelLike.isAlphanum c hc)

theorem StandsAlone.byteLength_eq {before : Option Char} (h : StandsAlone p before l rest) :
    Text.byteLength l = Text.byteLength p.label := by
  have hlabel : StandsAlone p none p.label [] := ⟨p.spelledBy_label, rfl, rfl⟩
  rw [← Text.length_octets, ← Text.length_octets, h.octets_eq, hlabel.octets_eq, ← h.spelled,
    List.length_map]

theorem standsAlone_octets_iff :
    StandsAlone p (Text.octets u).getLast? l (Text.octets rest) ↔ StandsAlone p u.getLast? l rest := by
  have hbefore := Text.getLast?_octets_all Text.not_isAlpha_of_not_isAscii u
  have hrest := Text.head?_octets_all Text.not_isDigit_of_not_isAscii rest
  exact ⟨fun h => ⟨h.spelled, hbefore ▸ h.before, hrest ▸ h.rest⟩,
    fun h => ⟨h.spelled, hbefore.trans h.before, hrest.trans h.rest⟩⟩

end

theorem bytewise_labelAt? (p : Position) : Bytewise (labelAt? p) id where
  covers {before t a n} h := by
    by_cases hl : ∃ l rest, t = l ++ rest ∧ StandsAlone p before l rest
    · obtain ⟨l, rest, rfl, hl⟩ := hl
      rw [labelAt?_append hl] at h
      exact ⟨l, rest, rfl, hl.ne_nil, congrArg Prod.snd (Option.some.inj h)⟩
    · rw [labelAt?_eq_none fun l rest e h => hl ⟨l, rest, e, h⟩] at h
      cases h
  octets u t := by
    by_cases hl : ∃ l rest, t = l ++ rest ∧ StandsAlone p u.getLast? l rest
    · obtain ⟨l, rest, rfl, hl⟩ := hl
      rw [labelAt?_append hl, Option.map_some, List.take_left, ← Text.length_octets,
        Text.octets_append, hl.octets_eq, labelAt?_append (standsAlone_octets_iff.mpr hl)]
    · rw [labelAt?_eq_none fun l rest e h => hl ⟨l, rest, e, h⟩, Option.map_none]
      refine labelAt?_eq_none fun l rest e h => hl ?_
      obtain ⟨v, rfl, rfl⟩ := Text.exists_eq_append_of_octets (fun c hc =>
        Text.isAscii_of_isAlphanum (h.labelLike.isAlphanum c hc)) e
      exact ⟨l, v, rfl, standsAlone_octets_iff.mp h⟩
  inside before b t hb := by
    refine labelAt?_eq_none fun l rest e h => hb ?_
    obtain ⟨c, cs, rfl⟩ := List.exists_cons_of_ne_nil h.ne_nil
    rw [(List.cons.inj e).1]
    exact Text.isAscii_of_isAlphanum (h.labelLike.isAlphanum c (List.mem_cons_self ..))

/-! ## slices -/

/-- The slices that are copied, each with its first byte and the first byte after it.  The bytes from
`copied` on are still to be copied, and those from `i` on to be looked at; a label has `n`. -/
def slicesFrom (n : Nat) : Nat → Nat → List (Stretch Unit) → List (Nat × Nat)
  | copied, i, [] => [(copied, i)]
  | copied, i, .plain _ :: rest => slicesFrom n copied (i + 1) rest
  | copied, i, .found () :: rest => (copied, i) :: slicesFrom n (i + n) (i + n) rest

/-- the slices that are copied when the label of `old` is looked for in the bytes and replaced -/
def slices (old : Position) (t : Text) : List (Nat × Nat) :=
  slicesFrom (Text.byteLength old.label) 0 0 (stretches (labelAt? old) (Text.octets t))

theorem slicesFrom_plain (n copied i : Nat) (bs : Text) (rest : List (Stretch Unit)) :
    slicesFrom n copied i (bs.map .plain ++ rest) = slicesFrom n copied (i + bs.length) rest := by
  induction bs generalizing i with
  | nil => rfl
  | cons b bs ih =>
    rw [List.map_cons, List.cons_append, slicesFrom, ih, List.length_cons, Nat.add_assoc,
      Nat.add_comm 1]

section
variable (old new : Position)

/-- the bytes of `u` are copied or replaced, those of `v` are still to be copied, and `t` is to be
looked at -/
theorem sliceAt_slicesFrom (before : Option Char) (t u v : Text) : ∃ w ws,
    List.Forall₂ (fun s w => (u ++ v ++ t).SliceAt s.1 s.2 w)
      (slicesFrom (Text.byteLength old.label) (Text.byteLength u) (Text.byteLength (u ++ v))
        ((stretchesFrom (labelAt? old) before 0 t).flatMap (Stretch.octets id))) (w :: ws) ∧
    v ++ relabelFrom old new before t = List.intercalate new.label (w :: ws) := by
  induction before, t using relabel_induction old generalizing u v with
  | nil before =>
    refine ⟨v, [], .cons ⟨u, [], rfl, rfl, rfl⟩ .nil, ?_⟩
    rw [relabelFrom_nil, List.append_nil, List.intercalate_singleton]
  | found before l rest h ih =>
    obtain ⟨w, ws, hws, heq⟩ := ih (u ++ v ++ l) []
    rw [List.append_nil, Text.byteLength_append (u ++ v), h.byteLength_eq, List.append_assoc _ l]
      at hws
    rw [List.nil_append] at heq
    refine ⟨v, w :: ws, ?_, ?_⟩
    · rw [stretchesFrom_found h.ne_nil (labelAt?_append h)]
      exact .cons ⟨u, l ++ rest, rfl, rfl, rfl⟩ hws
    · rw [relabelFrom_found h, heq, List.intercalate_cons_cons, List.append_assoc]
  | plain before c t h ih =>
    obtain ⟨w, ws, hws, heq⟩ := ih u (v ++ [c])
    refine ⟨w, ws, ?_, ?_⟩
    · rw [← List.append_assoc u, Text.byteLength_append (u ++ v), ← Text.length_octets [c],
        List.append_assoc _ [c]] at hws
      rw [stretchesFrom_plain (labelAt?_eq_none h), List.flatMap_cons]
      exact (slicesFrom_plain ..).symm ▸ hws
    · rw [relabelFrom_plain h, ← heq, List.append_assoc]
      rfl

theorem sliceAt_slices (t : Text) : ∃ ws,
    List.Forall₂ (fun s w => t.SliceAt s.1 s.2 w) (slices old t) ws ∧
      relabel old new t = List.intercalate new.label ws := by
  obtain ⟨w, ws, hws, heq⟩ := sliceAt_slicesFrom old new none t [] []
  rw [slices, stretches_octets (bytewise_labelAt? old)]
  exact ⟨w :: ws, hws, heq⟩

end

/-- Where a label that can be read is replaced by another, the strict calls stay as many, with the
names and shapes that they have and as many arguments.  An argument that is the label becomes the new
one, any other label is left alone, and what is not a label does not become one.  The slices that are
copied begin and end between characters, and what is joined of them is the text with the label
replaced. -/
theorem relabel_keeps_calls {old new : Position}
    (hold : (Position.ofLabel? old.label).isSome = true) (t : Text) :
    List.Forall₂ (fun c c' : Call => c'.head = c.head ∧ c'.shape = c.shape ∧
        List.Forall₂ (Call.Replaced old new) c.parts c'.parts)
      (Call.all .strict t) (Call.all .strict (relabel old new t)) ∧
    (∀ s ∈ slices old t, t.Boundary s.1 ∧ t.Boundary s.2 ∧ s.1 ≤ s.2) ∧
    ∃ ws, List.Forall₂ (fun s w => t.SliceAt s.1 s.2 w) (slices old t) ws ∧
      relabel old new t = List.intercalate new.label ws := by
  have hslices := sliceAt_slices old new t
  refine ⟨?_, fun s hs => ?_, hslices⟩
  · rw [Call.all_relabel, List.forall₂_map_right_iff, List.forall₂_same]
    intro c _
    refine ⟨rfl, Call.shape_relabelled old new c, ?_⟩
    rw [Call.parts_relabelled, List.forall₂_map_right_iff, List.forall₂_same]
    exact fun part _ => Call.replaced_relabel hold part
  · obtain ⟨ws, hws, -⟩ := hslices
    obtain ⟨w, -, hw⟩ := exists_of_forall₂_of_mem_left hws hs
    exact hw.boundary

/-- the first argument is replaced, the second has a leading zero, and of the third, which ends with a
letter of two bytes, a part is replaced, so that it is no label before and after -/
theorem relabel_keeps_calls_a1 :
    slices ⟨0, 0⟩ "=SUM(a1, A01, A1é)*A1".toList = [(0, 5), (7, 14), (16, 20), (22, 22)] ∧
    relabel ⟨0, 0⟩ ⟨9, 26⟩ "=SUM(a1, A01, A1é)*A1".toList = "=SUM(AA10, A01, AA10é)*AA10".toList ∧
    List.Forall₂ (fun c c' : Call => c'.head = c.head ∧ c'.shape = c.shape ∧
        List.Forall₂ (Call.Replaced ⟨0, 0⟩ ⟨9, 26⟩) c.parts c'.parts)
      (Call.all .strict "=SUM(a1, A01, A1é)*A1".toList)
      (Call.all .strict (relabel ⟨0, 0⟩ ⟨9, 26⟩ "=SUM(a1, A01, A1é)*A1".toList)) := by
  have hold : (Position.ofLabel? (Position.label ⟨0, 0⟩)).isSome = true := by decide +kernel
  obtain ⟨hcalls, -, -⟩ := @relabel_keeps_calls ⟨0, 0⟩ ⟨9, 26⟩ hold "=SUM(a1, A01, A1é)*A1".toList
  exact ⟨by decide +kernel, by decide +kernel, hcalls⟩

end Worksheet
