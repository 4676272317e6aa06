import Worksheet.Proofs.Sheet.Accounting
import Worksheet.Proofs.Sheet.Reevaluation

/-!
# Insertions that change no result

A new line moves cells, and with them the labels that name them.  What is shown stays the same where
nothing but such labels is rewritten.

* `Sheet.evaluatedAt_insertLine`
                       a cell that shows what its text says does so after an insertion;
* `Sheet.opened_snapshot`
                       what it has seen is seen where it now stands, if nothing it reads shows
                       something else;
* `Sheet.SteadyAt`     a cell that reads nothing, or whose content is steady;
* `Sheet.preserved_of_steady`
                       a cell shows what it has shown, if all that it reads is steady;
* `Sheet.not_preserved_exponent`
                       it need not otherwise.
-/

namespace Worksheet

namespace Sheet

/-! ## cells that are evaluated again -/

/-- a cell, if there is one, shows what its text and its snapshot say -/
def EvaluatedAt (s : Sheet) (j : CellId) : Prop :=
  ∀ c, s.cell? j = some c → c.shown = evaluate c.raw c.snapshot

section
variable {s t : Sheet} (hs : s.Wired) {axis : Axis} {index : Nat}
  (h : s.insertLine axis index = .ok t) {j : CellId}
include hs h

theorem evaluatedAt_insertLine {c : Cell} (hc : s.cell? j = some c)
    (heval : c.shown = evaluate c.raw c.snapshot) : t.EvaluatedAt j := by
  intro d hd
  rcases (refreshed_insertLine hs h).of_cell hd with hfresh | ⟨b, hb, hsame⟩
  · exact hfresh
  · obtain rfl := Option.some.inj (hc.symm.trans hb)
    exact hsame.evaluated heval

/-! ## cells that read nothing -/

theorem shown_eq_of_keys_eq_nil {c e : Cell} (hc : s.cell? j = some c) (he : t.cell? j = some e)
    (hk : c.snapshot.keys = []) : e.shown = c.shown := by
  have hno : ¬t.Told (s.growing axis index) j := fun htold => by
    obtain ⟨n, _, hpath⟩ := (told_iff_readsOn_new hs h).mp htold
    obtain ⟨k, hr, _⟩ := Relation.TransGen.head'_iff.mp hpath
    have ⟨d, hd, _⟩ := hr
    have hmem := (((extended_insertLine hs h).toWired.reads_iff he hd).mp hr)
    rcases (mem_keys_insertLine_iff hs h hc he).mp hmem with ⟨k', hk', _⟩ | ⟨hne, _⟩
    · exact absurd hk' (hk ▸ List.not_mem_nil)
    · exact hne hk
  obtain ⟨os, hos⟩ := cell?_insertLine_of_not_told hs h hc hno
  obtain rfl := Option.some.inj (he.symm.trans hos)
  have hms : s.openingMoves axis index j = [] := List.eq_nil_iff_forall_not_mem.mpr fun m hm =>
    absurd ((follows_openingMoves hs axis index hc).sound m hm).1 (hk ▸ List.not_mem_nil)
  rw [hms]
  rfl

/-! ## cells that read others -/

variable (hin : s.InStep)
include hin

/-- what a cell has seen is seen where it now stands, if all that it reads shows what it has shown -/
theorem opened_snapshot {c e : Cell} (hc : s.cell? j = some c) (he : t.cell? j = some e)
    (hreads : ∀ k, s.Reads j k → ∀ d f, s.cell? k = some d → t.cell? k = some f →
      f.shown = d.shown) : c.snapshot.Opened axis index e.snapshot where
  get? p := by
    have hw := (extended_insertLine hs h).toWired
    by_cases hp : p ∈ c.snapshot.keys
    · obtain ⟨k, d, _, hd, rfl⟩ := hs.exists_of_contains (hs.key_inside hc hp)
      have hr : s.Reads j k := (hs.reads_iff hc hd).mpr hp
      obtain ⟨_, f, _, hf, hpos, _⟩ := exists_cell_of_insertLine hs h hd
      have hshown := hreads k hr d f hd hf
      have hr' : t.Reads j k := (hw.reads_iff he hf).mpr
        (hpos ▸ (opened_mem_keys_iff hs h hc he).mpr hp)
      have hold : c.snapshot.get? d.position = some d.shown :=
        (inStep_iff hs).mp hin j k c d hc hd ((hs.mem_keys_iff hc hd).mp hp)
      rw [hold, ← hpos]
      by_cases htold : t.Told (s.growing axis index) k
      · rw [← hshown]
        exact (informed_insertLine hs h).upToDate (.inr htold) e f he hf
          ((hw.mem_keys_iff he hf).mp ((hw.reads_iff he hf).mp hr'))
      · exact get?_insertLine hs hin h hd hr' htold he hf
    · have hp' := mt (opened_mem_keys_iff hs h hc he).mp hp
      rw [Snapshot.get?_eq_none.mpr hp, Snapshot.get?_eq_none.mpr hp']
  blank q v hq hv := by
    have hw := (extended_insertLine hs h).toWired
    have hk : q ∈ e.snapshot.keys := Snapshot.mem_keys.mpr ⟨v, hv⟩
    obtain ⟨n, d, hn, hd, rfl⟩ := exists_new_of_coord hs h hq (hw.key_inside he hk)
    have hsee := upToDate_insertLine_of_new hs h hn (i := j) e d he hd ((hw.mem_keys_iff he hd).mp hk)
    rw [hv, (eq_blank_of_new hs h hn hd).2] at hsee
    exact Option.some.inj hsee

variable (hanch : s.Throughout Anchored) (hfits : t.Fits)
include hanch hfits

theorem shown_eq_of_steady {c e : Cell} (hc : s.cell? j = some c) (he : t.cell? j = some e)
    (hk : c.snapshot.keys ≠ []) (heval : c.shown = evaluate c.raw c.snapshot)
    (hsteady : Steady axis index c.raw c.snapshot)
    (hreads : ∀ k, s.Reads j k → ∀ d f, s.cell? k = some d → t.cell? k = some f →
      f.shown = d.shown) : e.shown = c.shown := by
  obtain ⟨e', he', hraw⟩ := raw_insertLine hs h hc
  obtain rfl := Option.some.inj (he.symm.trans he')
  have hbounds : ∀ k ∈ c.snapshot.keys, (axis.opened index k).row < maxCount ∧
      (axis.opened index k).col < maxCount := fun k hkey =>
    hfits.bounds ((extended_insertLine hs h).key_inside he
      ((opened_mem_keys_iff hs h hc he).mpr hkey))
  rw [evaluatedAt_insertLine hs h hc heval e he, hraw, Cell.raw_followAll, heval]
  exact evaluate_opened (opened_snapshot hs h hin hc he hreads) (hanch j c hc hk) hsteady
    (follows_openingMoves hs axis index hc) (fun m => ne_of_mem_openingMoves) hbounds

end

/-! ## every insertion -/

/-- the cell at a position shows what its text says, and goes on to do so after an insertion, or it
reads nothing -/
def SteadyAt (s : Sheet) (axis : Axis) (index : Nat) (p : Position) : Prop :=
  ∀ c, s.cellAt? p = some c → c.snapshot.keys ≠ [] →
    c.shown = evaluate c.raw c.snapshot ∧ Steady axis index c.raw c.snapshot

section
variable {s t : Sheet} (hs : s.Wired) {axis : Axis} {index : Nat}
  (h : s.insertLine axis index = .ok t)
include hs h

theorem shown_eq (hin : s.InStep) (hanch : s.Throughout Anchored) (hfits : t.Fits) (i : CellId) :
    ∀ {c e : Cell}, s.cell? i = some c → t.cell? i = some e →
      (∀ q, Relation.ReflTransGen (fun p q => q ∈ s.readsAt p) c.position q →
        s.SteadyAt axis index q) → e.shown = c.shown := by
  induction i using induction_reads hs with
  | _ i ih =>
    intro c e hc he hsteady
    by_cases hk : c.snapshot.keys = []
    · exact shown_eq_of_keys_eq_nil hs h hc he hk
    · obtain ⟨heval, hst⟩ := hsteady c.position .refl c (hs.cellAt?_position hc) hk
      refine shown_eq_of_steady hs h hin hanch hfits hc he hk heval hst fun k hr d f hd hf =>
        ih k hr hd hf fun q hq => hsteady q (.head ?_ hq)
      rw [readsAt, hs.cellAt?_position hc]
      exact (hs.reads_iff hc hd).mp hr

theorem cellAt?_insertLine_eq_none {p : Position} (hp : s.cellAt? p = none) :
    t.cellAt? (axis.opened index p) = none := by
  have hw := (extended_insertLine hs h).toWired
  cases hcell : t.cellAt? (axis.opened index p) with
  | none => rfl
  | some e =>
    obtain ⟨j, he, hpos⟩ := hw.cellAt?_eq_some.mp hcell
    cases hc : s.cell? j with
    | none =>
      have hline := (eq_blank_of_new hs h hc he).1
      rw [hpos] at hline
      exact absurd hline (axis.coord_opened_ne index p)
    | some c =>
      have hopen := (position_of_insertLine hs h hc he).symm.trans hpos
      rw [← axis.opened_injective index hopen, hs.cellAt?_position hc] at hp
      cases hp

end

/-- What a cell shows is not changed by an insertion, if it and all that it reads, directly or through
others, are steady. -/
theorem preserved_of_steady {s t : Sheet} (h : s.Reachable) (hin : s.InStep) {axis : Axis}
    {index : Nat} (ht : s.insertLine axis index = .ok t) (hfits : t.Fits) {p : Position}
    (hp : ∀ q, Relation.ReflTransGen (fun p q => q ∈ s.readsAt p) p q → s.SteadyAt axis index q) :
    t.shownAt? (axis.opened index p) = s.shownAt? p := by
  have hs := h.wired
  cases hcell : s.cellAt? p with
  | none => rw [shownAt?, shownAt?, hcell, cellAt?_insertLine_eq_none hs ht hcell]
  | some c =>
    obtain ⟨i, hc, rfl⟩ := hs.cellAt?_eq_some.mp hcell
    obtain ⟨_, e, _, he, hpos, _⟩ := exists_cell_of_insertLine hs ht hc
    have hcell' := (extended_insertLine hs ht).toWired.cellAt?_position he
    rw [hpos] at hcell'
    rw [shownAt?, shownAt?, hcell, hcell', Option.map_some, Option.map_some,
      shown_eq hs ht hin h.anchored hfits i hc he hp]

/-- `C2` reads `B1`, the sum of a range that the new line splits -/
theorem preserved_of_steady_c2 : ∃ s t : Sheet, s.Reachable ∧ s.InStep ∧
    s.insertLine .row 1 = .ok t ∧ t.rawAt? ⟨0, 1⟩ = some "=SUM(a1:A3)+1E2".toList ∧
    s.shownAt? ⟨1, 2⟩ = some "103".toList ∧ t.shownAt? ⟨2, 2⟩ = s.shownAt? ⟨1, 2⟩ := by
  generalize hs : ((((blank 3 2 []).set ⟨0, 0⟩ "1".toList).set ⟨1, 0⟩ "2".toList).set ⟨0, 1⟩
    "=SUM(a1:A2)+1E2".toList).set ⟨1, 2⟩ "=REF(B1)".toList = s
  have h : s.Consistent := by
    rw [← hs]
    refine consistent_set_of_targets (consistent_set_of_targets (consistent_set_of_targets
      (consistent_set_of_targets (consistent_blank 3 2 []) ?_ [] ?_ ?_) ?_ [] ?_ ?_) ?_
      [⟨0, 0⟩, ⟨1, 0⟩] ?_ ?_) ?_ [⟨0, 1⟩] ?_ ?_ <;> decide +kernel
  obtain ⟨t, ht⟩ : ∃ t, s.insertLine .row 1 = .ok t := ⟨_, if_neg (by rw [← hs]; decide +kernel)⟩
  have hopen : (s.insertLine .row 1).toOption.map (fun t => (t.rawAt? ⟨0, 1⟩, decide t.Fits))
      = some (some "=SUM(a1:A3)+1E2".toList, true) := by
    rw [← hs]
    decide +kernel
  rw [ht] at hopen
  obtain ⟨hraw, hfits⟩ := Prod.mk.inj (Option.some.inj hopen)
  -- the positions read are closed under reading, and steady
  have hcheck : ∀ q ∈ [(⟨1, 2⟩ : Position), ⟨0, 1⟩, ⟨0, 0⟩, ⟨1, 0⟩],
      (∀ r ∈ s.readsAt q, r ∈ [(⟨1, 2⟩ : Position), ⟨0, 1⟩, ⟨0, 0⟩, ⟨1, 0⟩]) ∧
      ∀ c ∈ s.cellAt? q, c.snapshot.keys ≠ [] → c.shown = evaluate c.raw c.snapshot ∧
        (∀ w ∈ words (exposed c.raw c.snapshot), ∀ k ∈ c.snapshot.keys,
          Axis.row.opened 1 k ≠ k → ¬k.SpelledBy w) ∧
        (∀ call ∈ valuedCalls c.raw, ∀ part ∈ call.parts, ¬Position.LeadingZero part) ∧
        ∀ call ∈ valuedCalls c.raw, call.function? ≠ some .sum → call.corners? = none := by
    rw [← hs]
    decide +kernel
  have hread : ∀ q, Relation.ReflTransGen (fun p q => q ∈ s.readsAt p) ⟨1, 2⟩ q →
      q ∈ [(⟨1, 2⟩ : Position), ⟨0, 1⟩, ⟨0, 0⟩, ⟨1, 0⟩] := fun q hq => by
    induction hq with
    | refl => exact List.mem_cons_self ..
    | tail _ hr ih => exact (hcheck _ ih).1 _ hr
  refine ⟨s, t, h.reachable, h.inStep, ht, hraw, by rw [← hs]; decide +kernel,
    preserved_of_steady h.reachable h.inStep ht (of_decide_eq_true hfits) (p := ⟨1, 2⟩)
      fun q hq c hc hk => ?_⟩
  obtain ⟨heval, htext, hzero, hrange⟩ := (hcheck q (hread q hq)).2 c hc hk
  refine ⟨heval, htext, fun call hcall part hpart h0 => absurd h0 (hzero call hcall part hpart),
    fun call hcall hsum ⟨a, b, hab, _⟩ => ?_⟩
  rw [hrange call hcall hsum] at hab
  cases hab

/-- `1E1` is a number, and it is rewritten because `E1` is the label of a cell that moves -/
theorem not_preserved_exponent : ∃ s t : Sheet, s.Reachable ∧ s.InStep ∧
    (∀ i c, s.cell? i = some c → c.snapshot.keys ≠ [] → c.shown = evaluate c.raw c.snapshot) ∧
    (∀ row ∈ s.rawRows, ∀ raw ∈ row, ∀ call ∈ Call.all .lenient raw, call.function? ≠ some .avg) ∧
    s.insertLine .row 0 = .ok t ∧ s.rawAt? ⟨0, 0⟩ = some "=1E1+REF(E1)".toList ∧
    s.shownAt? ⟨0, 0⟩ = some "10".toList ∧ t.shownAt? ⟨1, 0⟩ = some "100".toList := by
  generalize hs : (blank 5 1 []).set ⟨0, 0⟩ "=1E1+REF(E1)".toList = s
  have h : s.Consistent := by
    rw [← hs]
    exact consistent_set_of_targets (consistent_blank 5 1 []) (by decide +kernel) [⟨0, 4⟩]
      (by decide +kernel) (by decide +kernel)
  obtain ⟨t, ht⟩ : ∃ t, s.insertLine .row 0 = .ok t := ⟨_, if_neg (by rw [← hs]; decide +kernel)⟩
  have hshown : (s.insertLine .row 0).toOption.bind (·.shownAt? ⟨1, 0⟩) = some "100".toList := by
    rw [← hs]
    decide +kernel
  rw [ht] at hshown
  refine ⟨s, t, h.reachable, h.inStep, fun i c hc hk => ?_, by rw [← hs]; decide +kernel, ht,
    by rw [← hs]; decide +kernel, by rw [← hs]; decide +kernel, hshown⟩
  exact (h.evaluated i c hc).resolve_right fun ⟨hempty, _⟩ => hk (by rw [hempty]; rfl)

end Sheet

end Worksheet
