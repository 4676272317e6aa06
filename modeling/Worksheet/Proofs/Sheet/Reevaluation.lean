import Worksheet.Proofs.Formula.Evaluation
import Worksheet.Proofs.Sheet.Anchoring
import Worksheet.Proofs.Sheet.Rewriting

/-!
# Content that is evaluated anew after an insertion

The text has been rewritten as a whole, and the values come from where the cells now stand.

* `Call.decodes_opened` the labels of a call have followed the cells;
* `valuedCalls`        the calls of content that values are put in for;
* `exposed`            what is left of content besides;
* `substitute_reword`  the same values are put in at the same places;
* `evaluate_reword`    so content comes to the same, if only labels that are read as such are replaced;
* `Steady`             content of which an insertion rewrites no others;
* `evaluate_opened`    steady content shows what it has shown.
-/

namespace Worksheet

/-! ## labels that follow -/

/-- every label of a call stands for where its cell now is -/
theorem Call.decodes_opened {axis : Axis} {index : Nat} {keys : List Position}
    {ms : List (Position × Position)} (hms : Position.Follows (axis.opened index) keys ms)
    (hkeys : ∀ k ∈ keys, (axis.opened index k).row < maxCount ∧
      (axis.opened index k).col < maxCount) {c : Call} {ls : List Position}
    (h : c.StandsFor (Labels keys) ls) (hzero : ∀ part ∈ c.parts, Position.LeadingZero part →
      ∀ p, Position.ofLabel? part = some p → axis.coord p < index) :
    c.Decodes ls ∧ (c.relabelledAll ms).Decodes (ls.map (axis.opened index)) := by
  have hpart : ∀ {t p}, Text.trim t ∈ c.parts → Labels keys (Text.trim t) p →
      Position.ofLabel? (Text.trim t) = some p ∧
        Position.ofLabel? (Text.trim (relabelAll ms t)) = some (axis.opened index p) := by
    rintro t p ht (⟨hp, hs⟩ | ⟨h0, hp⟩)
    · have hb := hkeys p hp
      have hle := axis.le_opened index p
      have hs' := spelledBy_trim_relabelAll ms hs
      rw [hms.movedAll hp] at hs'
      exact ⟨Position.ofLabel?_of_spelledBy hs (by omega) (by omega),
        Position.ofLabel?_of_spelledBy hs' hb.1 hb.2⟩
    · rw [trim_relabelAll_of_leadingZero ms hp h0,
        axis.opened_of_lt index (hzero _ ht h0 p hp)]
      exact ⟨hp, hp⟩
  have hparts := h.parts
  rw [parts_eq, List.forall₂_map_left_iff] at hparts
  have hmem : ∀ t ∈ c.pieces, Text.trim t ∈ c.parts := fun t ht =>
    parts_eq c ▸ List.mem_map_of_mem ht
  refine ⟨⟨?_, h.two⟩, ?_, fun hr => ?_⟩
  · rw [parts_eq, List.forall₂_map_left_iff]
    exact forall₂_imp_of_mem hparts fun t ht p _ hp => (hpart (hmem t ht) hp).1
  · rw [parts_eq, pieces_relabelledAll, List.map_map, List.forall₂_map_left_iff,
      List.forall₂_map_right_iff]
    exact forall₂_imp_of_mem hparts fun t ht p _ hp => (hpart (hmem t ht) hp).2
  · rw [List.length_map]
    exact h.two (c.shape_relabelledAll ms ▸ hr)

/-! ## content -/

/-- the calls of content that values are put in for -/
def valuedCalls (raw : Text) : List Call :=
  if (Text.trim raw).head? = some '=' then
    (Call.all .lenient (Text.trim raw)).filter fun c => c.function?.isSome
  else []

/-- what is left of content when values are put in for its calls -/
def exposed (raw : Text) (s : Snapshot) : Text :=
  if (Text.trim raw).head? = some '=' then
    Call.render (fun c => if c.Left s then c.body else []) (Text.trim raw)
  else Text.trim raw

theorem mem_valuedCalls {raw : Text} {c : Call} : c ∈ valuedCalls raw ↔
    (Text.trim raw).head? = some '=' ∧ c ∈ Call.all .lenient (Text.trim raw) ∧
      ∃ f, c.function? = some f := by
  rw [valuedCalls]
  split_ifs with h
  · rw [List.mem_filter, Option.isSome_iff_exists, and_iff_right h]
  · exact iff_of_false List.not_mem_nil fun hc => h hc.1

section
variable {raw : Text} {s t : Snapshot} {f : Text → Text}
  (hf : ∀ w a d, LabelLike w a d → ∃ a' d', LabelLike (f w) a' d')
  (hfix : ∀ w ∈ words (exposed raw s), f w = w)
include hfix

/-- what is left in the text is not rewritten -/
theorem reword_body_of_left {c : Call} (hc : c ∈ valuedCalls raw) (hleft : c.Left s) :
    reword f c.body = c.body := by
  obtain ⟨hformula, hall, _⟩ := mem_valuedCalls.mp hc
  refine reword_eq_self fun w hw => hfix w ?_
  rw [exposed, if_pos hformula]
  exact Call.mem_words_render hall (by rwa [if_pos hleft])

include hf
variable (hresult : ∀ c ∈ valuedCalls raw,
  Call.result ⟨c.head, reword f c.body⟩ t = c.result s)
include hresult

theorem substitute_reword (hformula : (Text.trim raw).head? = some '=') :
    substitute (reword f (Text.trim raw)) t = substitute (Text.trim raw) s := by
  rw [exposed, if_pos hformula] at hfix
  rw [substitute, Call.scan_reword hf hfix, List.mapM_map, substitute]
  refine congrArg (Except.map List.flatten) (mapM_congr fun st hst => ?_)
  cases st with
  | plain c => rfl
  | found c =>
    show Call.result ⟨c.head, reword f c.body⟩ t = c.result s
    cases hfun : c.function? with
    | none =>
      have hfun' : Function.ofHead? c.head = none := hfun
      simp only [Call.result, Call.function?, hfun']
    | some g =>
      have hall : c ∈ Call.all .lenient (Text.trim raw) := List.mem_filterMap.mpr ⟨_, hst, rfl⟩
      exact hresult c (mem_valuedCalls.mpr ⟨hformula, hall, g, hfun⟩)

/-- Content comes to the same if its words are replaced, where all that is left of it besides its calls
stays as it is and the calls come to the same. -/
theorem evaluate_reword : evaluate (reword f raw) t = evaluate raw s := by
  rw [evaluate, trim_reword hf, evaluate]
  by_cases hformula : (Text.trim raw).head? = some '='
  · have hhead := head?_reword_eq_some f (by decide) hformula
    rw [if_pos hhead, if_pos hformula, formulaValue, substitute_reword hf hfix hresult hformula,
      formulaValue]
  · have hself : reword f (Text.trim raw) = Text.trim raw := by
      refine reword_eq_self fun w hw => hfix w ?_
      rwa [exposed, if_neg hformula]
    rw [hself, if_neg hformula, if_neg hformula]

end

/-! ## steady content -/

/-- Content that shows the same after an insertion.  No word of what is left of it besides its calls
is the label of a cell that moves; none of the labels with leading zeros, which stay as they are, names
such a cell; and no range is split but those of sums. -/
structure Steady (axis : Axis) (index : Nat) (raw : Text) (s : Snapshot) : Prop where
  text : ∀ w ∈ words (exposed raw s), ∀ k ∈ s.keys, axis.opened index k ≠ k → ¬k.SpelledBy w
  labels : ∀ c ∈ valuedCalls raw, ∀ part ∈ c.parts, Position.LeadingZero part →
    ∀ p, Position.ofLabel? part = some p → axis.coord p < index
  ranges : ∀ c ∈ valuedCalls raw, c.function? ≠ some .sum → ¬c.SplitBy axis index

section
variable {axis : Axis} {index : Nat} {s t : Snapshot} (h : s.Opened axis index t) {raw : Text}
  (hraw : Anchored raw s.keys) (hsteady : Steady axis index raw s)
  {ms : List (Position × Position)} (hms : Position.Follows (axis.opened index) s.keys ms)
  (hne : ∀ m ∈ ms, m.2 ≠ m.1) (hkeys : ∀ k ∈ s.keys, (axis.opened index k).row < maxCount ∧
    (axis.opened index k).col < maxCount)
include hsteady

theorem respell_of_mem_exposed : ∀ w ∈ words (exposed raw s),
    respell (axis.opened index) s.keys w = w := fun w hw =>
  respell_eq_self (hsteady.text w hw)

include h hraw hms hne hkeys

theorem result_rebody {c : Call} (hc : c ∈ valuedCalls raw) :
    Call.result ⟨c.head, reword (respell (axis.opened index) s.keys) c.body⟩ t = c.result s := by
  obtain ⟨-, hall, f, hf⟩ := mem_valuedCalls.mp hc
  obtain ⟨ls, hls⟩ := hraw.exists_of_lenient hall hf
  have e : c.relabelledAll ms = ⟨c.head, reword (respell (axis.opened index) s.keys) c.body⟩ := by
    rw [Call.relabelledAll_eq, hms.relabelAll_eq hne]
  obtain ⟨hdec, hdec'⟩ := Call.decodes_opened hms hkeys hls (hsteady.labels c hc)
  rw [e] at hdec'
  refine Call.result_opened h (e ▸ c.shape_relabelledAll ms) hdec hdec' hf hf
    (fun hsum => hsteady.ranges c hc fun h' => hsum (Option.some.inj (hf.symm.trans h')))
    fun hleft => ?_
  rw [reword_body_of_left (respell_of_mem_exposed hsteady) hc hleft]

theorem evaluate_opened : evaluate (relabelAll ms raw) t = evaluate raw s := by
  rw [hms.relabelAll_eq hne]
  exact evaluate_reword (labelLike_respell _ _) (respell_of_mem_exposed hsteady) fun _ =>
    result_rebody h hraw hsteady hms hne hkeys

end

end Worksheet
