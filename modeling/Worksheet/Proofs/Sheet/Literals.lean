import Worksheet.Proofs.Formula.Modes
import Worksheet.Proofs.Sheet.Outcomes

/-!
# Text that is not a formula

* `Literal`            content that does not begin with an equals sign;
* `Sheet.AsTyped`      the content stands in a cell, and is shown without the blanks around it;
* `Sheet.asTyped_iff`  which literals are shown as typed, what they read, and which read nothing;
* `Sheet.not_asTyped_year`
                       a year in brackets after three capitals is taken for a label.

The calls of a literal are not replaced by values.  They are wired all the same, so a literal with a
call reads cells, and is rejected or refused as a formula with that call is.
-/

namespace Worksheet

def Literal (content : Text) : Prop := (Text.trim content).head? ≠ some '='

instance (content : Text) : Decidable (Literal content) := inferInstanceAs (Decidable (_ ≠ _))

theorem evaluate_of_literal {content : Text} (h : Literal content) (s : Snapshot) :
    evaluate content s = Text.trim content := if_neg h

/-! ## calls and faults in a text -/

theorem Call.bracket_mem_trim {mode : Mode} {content : Text} {call : Call}
    (h : call ∈ Call.all mode content) : '(' ∈ Text.trim content := by
  obtain ⟨u, t, rest, e, hb⟩ := Call.exists_begins_of_mem_all h
  obtain ⟨l, r, etrim, hl, hr⟩ := exists_blanks content
  have hmem : '(' ∈ content := by
    rw [e, hb.eq]
    exact List.mem_append_right _ (List.mem_append_right _ (List.mem_cons_self ..))
  rw [etrim, List.mem_append, List.mem_append] at hmem
  rcases hmem with (hmem | hmem) | hmem
  · exact absurd (hl _ hmem) (by decide)
  · exact hmem
  · exact absurd (hr _ hmem) (by decide)

/-- no fault is a text with a call -/
theorem Fault.text_ne_trim {mode : Mode} {content : Text} {call : Call}
    (h : call ∈ Call.all mode content) (f : Fault) : f.text ≠ Text.trim content := by
  intro e
  have hmem := Call.bracket_mem_trim h
  rw [← e] at hmem
  cases f <;> exact absurd hmem (by decide)

namespace Sheet

/-! ## literals that name nothing -/

section
variable {s : Sheet} {origin : Position} {content : Text}

theorem not_named_of_all (h : Call.all .strict content = []) (q : Position) : ¬Named content q :=
  fun ⟨_, hcall, _⟩ => by
    rw [h] at hcall
    cases hcall

theorem exists_mem_all_of_circular (h : s.Circular origin content) :
    ∃ call, call ∈ Call.all .strict content := by
  obtain ⟨_, ⟨call, hcall, _⟩, _⟩ := h
  exact ⟨call, hcall⟩

/-- every call that may be wired names a position -/
theorem named_of_mem_all {call : Call} (h : ¬s.Unwireable origin content)
    (hcall : call ∈ Call.all .strict content) : ∃ q, Named content q := by
  cases ht : s.targets origin content with
  | error f => exact absurd (unwireable_iff.mpr ⟨f, ht⟩) h
  | ok ps =>
    obtain ⟨qss, hqss, _⟩ := targets_eq_ok.mp ht
    obtain ⟨qs, _, hqs⟩ := exists_of_forall₂_of_mem_left hqss hcall
    have hpos := (Call.positions?_of_targets hqs).1
    obtain ⟨q, hq⟩ := List.exists_mem_of_ne_nil _ (Call.ne_nil_of_positions? hpos)
    exact ⟨q, call, hcall, qs, hpos, hq⟩

end

/-! ## the cell of a literal -/

/-- the content stands in the cell, and is shown without the blanks around it -/
structure AsTyped (content : Text) (c : Cell) : Prop where
  raw : c.raw = content
  shown : c.shown = Text.trim content

theorem not_asTyped_of_fault {content : Text} {c : Cell} {call : Call} {f : Fault}
    (hcall : call ∈ Call.all .strict content) (hshown : c.shown = f.text) : ¬AsTyped content c :=
  fun h => f.text_ne_trim hcall (hshown.symm.trans h.shown)

/-- A literal is shown as typed exactly if its calls may be wired and close no cycle.  It then reads
what they name, so it reads nothing exactly if it has no call. -/
theorem asTyped_iff {s : Sheet} (h : s.Reachable) {origin : Position}
    (hin : s.contains origin = true) {content : Text} (hlit : Literal content) :
    ∃ c, (s.set origin content).cellAt? origin = some c ∧
      (AsTyped content c ↔ ¬s.Unwireable origin content ∧ ¬s.Circular origin content) ∧
      (AsTyped content c → ∀ q, q ∈ c.snapshot.keys ↔ Named content q) ∧
      (AsTyped content c ∧ c.snapshot = ∅ ↔ Call.all .strict content = []) := by
  have hs := h.wired
  obtain ⟨id, c, hid, hc, rfl⟩ := hs.exists_of_contains hin
  cases ht : s.targets c.position content with
  | error f =>
    have hun := unwireable_iff.mpr ⟨f, ht⟩
    obtain ⟨d, hd, _, _, pre, call, post, hall, _, _, hshown⟩ := (rejected_of_targets hs hc ht).cell
    have hcall : call ∈ Call.all .strict content := hall ▸ List.mem_append_right _ (List.mem_cons_self ..)
    have hnot := not_asTyped_of_fault hcall hshown
    exact ⟨d, hd, iff_of_false hnot fun h => h.1 hun, fun h => absurd h hnot,
      iff_of_false (fun h => hnot h.1) (List.ne_nil_of_mem hcall)⟩
  | ok ps =>
    have hun : ¬s.Unwireable c.position content := fun hun => by
      obtain ⟨f, hf⟩ := unwireable_iff.mp hun
      rw [ht] at hf
      cases hf
    by_cases hcirc : s.Circular c.position content
    · have href := refused_of_closesCycle hs hc ht ((closesCycle_iff_circular ht).mpr hcirc)
      have hd : (s.set c.position content).cellAt? c.position
          = some { c with shown := Fault.circularReference.text } := by
        rw [cellAt?, href.idAt?, hid, Option.bind_some, href.cell, hc]
        exact congrArg some (if_pos rfl)
      obtain ⟨call, hcall⟩ := exists_mem_all_of_circular hcirc
      have hnot := not_asTyped_of_fault (c := { c with shown := Fault.circularReference.text })
        hcall rfl
      exact ⟨_, hd, iff_of_false hnot fun h => h.2 hcirc, fun h => absurd h hnot,
        iff_of_false (fun h => hnot h.1) (List.ne_nil_of_mem hcall)⟩
    · have hcyc : s.closesCycle c.position ps = false := by
        rw [← Bool.not_eq_true, closesCycle_iff_circular ht]
        exact hcirc
      obtain ⟨d, hd, hraw, hkeys, _, hshown⟩ := (stored_of_not_closesCycle hs hc ht hcyc).cell
      have htyped : AsTyped content d := ⟨hraw, hshown.trans (evaluate_of_literal hlit _)⟩
      refine ⟨d, hd, iff_of_true htyped ⟨hun, hcirc⟩, fun _ => hkeys, ?_, fun hall => ⟨htyped, ?_⟩⟩
      · rintro ⟨_, hempty⟩
        refine List.eq_nil_iff_forall_not_mem.mpr fun call hcall => ?_
        obtain ⟨q, hq⟩ := named_of_mem_all hun hcall
        rw [← hkeys, hempty] at hq
        cases hq
      · exact Snapshot.eq_empty_of_keys (List.eq_nil_iff_forall_not_mem.mpr fun q hq =>
          not_named_of_all hall q ((hkeys q).mp hq))

/-- a literal without a call, in a cell that has read another -/
theorem asTyped_iff_sales : ∃ s : Sheet, s.Reachable ∧ s.contains ⟨0, 0⟩ = true ∧
    Literal " Sales(2024) ".toList ∧
      ∃ c, (s.set ⟨0, 0⟩ " Sales(2024) ".toList).cellAt? ⟨0, 0⟩ = some c ∧
        AsTyped " Sales(2024) ".toList c ∧ c.snapshot = ∅ := by
  have h : Reachable ((blank 2 2 []).apply (.set ⟨0, 0⟩ "=REF(B2)".toList)) :=
    .step _ (.blank 2 2 []) trivial
  have hin : ((blank 2 2 []).apply (.set ⟨0, 0⟩ "=REF(B2)".toList)).contains ⟨0, 0⟩ = true := by
    decide +kernel
  have hlit : Literal " Sales(2024) ".toList := by decide +kernel
  obtain ⟨c, hc, _, _, hiff⟩ := asTyped_iff h hin hlit
  exact ⟨_, h, hin, hlit, c, hc, hiff.mpr (by decide +kernel)⟩

/-- the year in brackets is not a label -/
theorem not_asTyped_year : ∃ (s : Sheet) (p : Position) (content : Text), s.Reachable ∧
    s.contains p = true ∧ Literal content ∧
      ¬∃ c, (s.set p content).cellAt? p = some c ∧ AsTyped content c ∧ c.snapshot = ∅ := by
  refine ⟨blank 2 2 [], ⟨0, 0⟩, "Tour of USA(2024)".toList, .blank 2 2 [], by decide, by decide +kernel,
    ?_⟩
  rintro ⟨c, hc, htyped, _⟩
  have hcell : ((blank 2 2 []).set ⟨0, 0⟩ "Tour of USA(2024)".toList).shownAt? ⟨0, 0⟩
      = some Fault.invalidPosition.text := by decide +kernel
  rw [shownAt?, hc, Option.map_some, htyped.shown] at hcell
  exact absurd hcell (by decide +kernel)

end Sheet

end Worksheet
