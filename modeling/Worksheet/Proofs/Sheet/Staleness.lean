import Worksheet.Proofs.Sheet.Consistency
import Worksheet.Proofs.Sheet.Rewriting
import Worksheet.Proofs.Sheet.Transport

/-!
# What is seen after lines have been put in or taken out

A cell that is told of a move is evaluated anew, and does not tell its own readers.  As a rule the
value is the same as before, and then they need not be told.  It need not be, for the text has been
rewritten everywhere, also where a label is not read as one.

* `Cell.shown_followAll`
                       a cell that follows any move shows what its new text says;
* `Cell.get?_of_follows`
                       what it has seen of a cell is found where that cell now stands;
* `Sheet.Restated`     the cells that show something else after they have followed their moves;
* `Sheet.upToDate_insertLine_iff`, `Sheet.upToDate_deleteLine_iff`
                       a reader is behind exactly if it reads such a cell;
* `Sheet.inStep_iff_not_restated`
                       what is seen stays up to date exactly if no such cell is read, but for those
                       that come to read a new cell and so tell their readers.
-/

namespace Worksheet

namespace Cell

theorem shown_followAll {c : Cell} {ms : List (Position × Position)} (h : ms ≠ []) :
    (c.followAll ms).shown
      = Worksheet.evaluate (c.followAll ms).raw (c.followAll ms).snapshot := by
  induction ms generalizing c with
  | nil => exact absurd rfl h
  | cons m ms ih =>
    cases ms with
    | nil => rfl
    | cons n ms => exact ih (c := c.follow m.1 m.2) (List.cons_ne_nil n ms)

/-- entries that end up apart never meet on the way -/
theorem get?_followAll {c : Cell} {ms : List (Position × Position)}
    (hinj : ∀ k ∈ c.snapshot.keys, ∀ k' ∈ c.snapshot.keys,
      Position.movedAll ms k = Position.movedAll ms k' → k = k') {k : Position}
    (hk : k ∈ c.snapshot.keys) :
    (c.followAll ms).snapshot.get? (Position.movedAll ms k) = c.snapshot.get? k := by
  induction ms generalizing c k with
  | nil => rfl
  | cons m ms ih =>
    have hkeys : ∀ {q}, q ∈ (c.follow m.1 m.2).snapshot.keys ↔
        ∃ p ∈ c.snapshot.keys, Position.moved m.1 m.2 p = q := Snapshot.mem_keys_move
    have hstep : (c.follow m.1 m.2).snapshot.get? (Position.moved m.1 m.2 k) = c.snapshot.get? k :=
      Snapshot.get?_move_moved hk fun hold hkm hnew => hkm (hinj k hk m.1 hold (by
        show Position.movedAll ms (Position.moved m.1 m.2 k)
          = Position.movedAll ms (Position.moved m.1 m.2 m.1)
        rw [Position.moved_of_ne hkm, Position.moved_self, hnew]))
    refine (ih (c := c.follow m.1 m.2) (fun q hq q' hq' e => ?_) (hkeys.mpr ⟨k, hk, rfl⟩)).trans hstep
    obtain ⟨p, hp, rfl⟩ := hkeys.mp hq
    obtain ⟨p', hp', rfl⟩ := hkeys.mp hq'
    rw [hinj p hp p' hp' e]

theorem get?_of_follows {c : Cell} {σ : Position → Position} {ms : List (Position × Position)}
    (h : Position.Follows σ c.snapshot.keys ms)
    (hinj : ∀ k ∈ c.snapshot.keys, ∀ k' ∈ c.snapshot.keys, σ k = σ k' → k = k') {k : Position}
    (hk : k ∈ c.snapshot.keys) : (c.followAll ms).snapshot.get? (σ k) = c.snapshot.get? k := by
  rw [← h.movedAll hk]
  refine get?_followAll (fun p hp p' hp' e => hinj p hp p' hp' ?_) hk
  rwa [h.movedAll hp, h.movedAll hp'] at e

end Cell

namespace Sheet

/-- the cell `j` reads cells that `σ` moves, and what it has to show then is not what it has shown -/
def Restated (s : Sheet) (σ : Position → Position) (t : Sheet) (j : CellId) : Prop :=
  ∃ c e, s.cell? j = some c ∧ t.cell? j = some e ∧ (∃ k ∈ c.snapshot.keys, σ k ≠ k) ∧
    evaluate e.raw e.snapshot ≠ c.shown

/-- what a reader has seen of a cell, it still has after both have moved -/
theorem get?_moved {s : Sheet} (hs : s.Wired) (hin : s.InStep) {σ : Position → Position}
    {i j : CellId} {a b : Cell} (ha : s.cell? i = some a) (hb : s.cell? j = some b)
    (hi : i ∈ b.observers) {ms : List (Position × Position)}
    (hms : Position.Follows σ a.snapshot.keys ms)
    (hinj : ∀ k ∈ a.snapshot.keys, ∀ k' ∈ a.snapshot.keys, σ k = σ k' → k = k') :
    (a.followAll ms).snapshot.get? (σ b.position) = some b.shown := by
  rw [Cell.get?_of_follows hms hinj ((hs.mem_keys_iff ha hb).mpr hi)]
  exact (inStep_iff hs).mp hin i j a b ha hb hi

/-- a cell that has followed its moves shows what it has shown, unless it is restated -/
theorem shown_eq_iff {s t : Sheet} {σ : Position → Position} {j : CellId} {c e : Cell}
    (hc : s.cell? j = some c) (he : t.cell? j = some e) {ms : List (Position × Position)}
    (hms : Position.Follows σ c.snapshot.keys ms) (hne : ∀ m ∈ ms, m.2 ≠ m.1) {p : Position}
    {os : List CellId} (e_eq : e = ((c.followAll ms).placeAt p).withObservers os) :
    c.shown = e.shown ↔ ¬s.Restated σ t j := by
  have hshown : e.shown = (c.followAll ms).shown := by rw [e_eq]; rfl
  have hre : s.Restated σ t j ↔ (∃ k ∈ c.snapshot.keys, σ k ≠ k) ∧
      evaluate e.raw e.snapshot ≠ c.shown := by
    refine ⟨fun ⟨c', e', hc', he', h⟩ => ?_, fun h => ⟨c, e, hc, he, h⟩⟩
    rwa [Option.some.inj (hc.symm.trans hc'), Option.some.inj (he.symm.trans he')]
  rw [hre, not_and_not_right]
  by_cases h : ms = []
  · refine ⟨fun _ ⟨k, hk, hσ⟩ => ?_, fun _ => by rw [hshown, h]; rfl⟩
    exact absurd (hms.complete k hk hσ) (h ▸ List.not_mem_nil)
  · obtain ⟨m, hm⟩ := List.exists_mem_of_ne_nil ms h
    obtain ⟨hk, hσ, _⟩ := (hms.mem_iff hne m).mp hm
    have heval : evaluate e.raw e.snapshot = e.shown := by
      rw [hshown, Cell.shown_followAll h, e_eq]
      rfl
    rw [heval]
    exact ⟨fun e _ => e.symm, fun h => (h ⟨m.1, hk, hσ⟩).symm⟩

theorem upToDate_of_not_reads {s : Sheet} {i j : CellId} (h : ¬s.Reads i j) : s.UpToDate i j :=
  fun _ d _ hd hi => absurd ⟨d, hd, hi⟩ h

/-- one pair decides whether what has been seen of a cell is up to date -/
theorem upToDate_iff_of_reads {s : Sheet} {i j : CellId} {c d : Cell} (hc : s.cell? i = some c)
    (hd : s.cell? j = some d) (hi : i ∈ d.observers) :
    s.UpToDate i j ↔ c.snapshot.get? d.position = some d.shown := by
  refine ⟨fun h => h c d hc hd hi, fun h a b ha hb _ => ?_⟩
  rwa [← Option.some.inj (hc.symm.trans ha), ← Option.some.inj (hd.symm.trans hb)]

/-! ## insertions -/

section
variable {s t : Sheet} (hs : s.Wired) (hin : s.InStep) {axis : Axis} {index : Nat}
  (h : s.insertLine axis index = .ok t)
include hs h

/-- a cell that is not told has followed its moves, and keeps all but its readers -/
theorem cell?_insertLine_of_not_told {j : CellId} {c : Cell} (hc : s.cell? j = some c)
    (hno : ¬t.Told (s.growing axis index) j) : ∃ os, t.cell? j = some
      (((c.followAll (s.openingMoves axis index j)).placeAt
        (axis.opened index c.position)).withObservers os) := by
  obtain ⟨os, hos⟩ := (informed_insertLine hs h).cell? hno
  rw [cell?_openedAt hs axis index hc] at hos
  exact ⟨os, hos⟩

/-- who reads an old cell is itself an old cell, and has read it before -/
theorem reads_of_insertLine_old {i j : CellId} {c : Cell} (hc : s.cell? j = some c)
    (hr : t.Reads i j) : ∃ a, s.cell? i = some a ∧ i ∈ c.observers := by
  have ht := extended_insertLine hs h
  obtain ⟨e, he, hi⟩ := hr
  obtain ⟨b, hb⟩ := ht.observer_live he hi
  have hk := (ht.mem_keys_iff hb he).mpr hi
  obtain ⟨a, ha, _⟩ := reads_of_insertLine hs h hb (List.ne_nil_of_mem hk)
  rw [position_of_insertLine hs h hc he, opened_mem_keys_iff hs h ha hb] at hk
  exact ⟨a, ha, (hs.mem_keys_iff ha hc).mp hk⟩

/-- what is seen of the new cells is up to date from the beginning -/
theorem upToDate_insertLine_of_new {i n : CellId} (hn : s.cell? n = none) : t.UpToDate i n := by
  refine (informed_insertLine hs h).upToDate (.inl (upToDate_of_not_reads fun hr => ?_))
  obtain ⟨c, hc, _⟩ := (opened_openedAt hs axis index (insertLine_eq_ok.mp h).1).reads hr
  rw [hn] at hc
  cases hc

include hin

/-- a reader has seen of an old cell that is not told what that has shown before -/
theorem get?_insertLine {i j : CellId} {b c e : Cell} (hc : s.cell? j = some c)
    (hr : t.Reads i j) (hno : ¬t.Told (s.growing axis index) j) (hb : t.cell? i = some b)
    (he : t.cell? j = some e) : b.snapshot.get? e.position = some c.shown := by
  have hu := wired_openedAt hs axis index (insertLine_eq_ok.mp h).1
  obtain ⟨a, ha, hi⟩ := reads_of_insertLine_old hs h hc hr
  have hp := position_of_insertLine hs h hc he
  have hid : (s.openedAt axis index).idAt? e.position = some j := by
    rw [hp]
    exact hu.idAt?_position (cell?_openedAt hs axis index hc)
  have hsee := (informed_insertLine hs h).get? hid (hp ▸ axis.coord_opened_ne index c.position) hno i
  rw [hb, cell?_openedAt hs axis index ha] at hsee
  refine (Option.some.inj hsee).trans ?_
  rw [hp]
  exact get?_moved hs hin ha hc hi (follows_openingMoves hs axis index ha)
    fun k _ k' _ => axis.opened_injective index

theorem upToDate_insertLine_iff {i j : CellId} {c : Cell} (hc : s.cell? j = some c)
    (hr : t.Reads i j) (hno : ¬t.Told (s.growing axis index) j) :
    t.UpToDate i j ↔ ¬s.Restated (axis.opened index) t j := by
  obtain ⟨b, hb⟩ := (extended_insertLine hs h).live_of_reads hr
  obtain ⟨os, he⟩ := cell?_insertLine_of_not_told hs h hc hno
  have hsee := get?_insertLine hs hin h hc hr hno hb he
  obtain ⟨e', he', hi⟩ := hr
  obtain rfl := Option.some.inj (he.symm.trans he')
  rw [upToDate_iff_of_reads hb he hi, hsee, Option.some.injEq]
  exact shown_eq_iff hc he (follows_openingMoves hs axis index hc)
    (fun m => ne_of_mem_openingMoves) rfl

theorem inStep_insertLine_iff : t.InStep ↔ ∀ j, s.Restated (axis.opened index) t j →
    (∀ i, ¬t.Reads i j) ∨ ∃ n, s.cell? n = none ∧ t.ReadsOn j n := by
  simp only [← told_iff_readsOn_new hs h]
  rw [inStep_iff (extended_insertLine hs h).toWired]
  constructor
  · intro hup j hre
    refine or_iff_not_imp_right.mpr fun hno i hr => ?_
    have ⟨c, _, hc, _⟩ := hre
    exact (upToDate_insertLine_iff hs hin h hc hr hno).mp (hup i j) hre
  · intro hall i j
    by_cases hno : t.Told (s.growing axis index) j
    · exact (informed_insertLine hs h).upToDate (.inr hno)
    · by_cases hr : t.Reads i j
      · cases hc : s.cell? j with
        | none => exact upToDate_insertLine_of_new hs h hc
        | some c =>
          refine (upToDate_insertLine_iff hs hin h hc hr hno).mpr fun hre => ?_
          exact (hall j hre).elim (fun hr' => hr' i hr) hno
      · exact upToDate_of_not_reads hr

end

/-! ## deletions -/

section
variable {s t : Sheet} (hs : s.Wired) (hin : s.InStep) {axis : Axis} {index : Nat}
  (h : s.deleteLine axis index = .ok t)
include hs hin h

theorem upToDate_deleteLine_iff {i j : CellId} (hr : t.Reads i j) :
    t.UpToDate i j ↔ ¬s.Restated (axis.closed index) t j := by
  obtain ⟨⟨c, hc, hi⟩, ⟨hline, horph⟩, hj, ho⟩ := reads_of_deleteLine hs h hr
  obtain ⟨a, ha⟩ := hs.observer_live hc hi
  have hb := cell?_deleteLine_of_kept hs h ha hline horph
  have he := cell?_deleteLine_of_kept hs h hc hj ho
  obtain ⟨e', he', hi'⟩ := hr
  obtain rfl := Option.some.inj (he.symm.trans he')
  rw [upToDate_iff_of_reads hb he hi']
  refine Iff.trans (Eq.congr_left ?_) ((Option.some_inj).trans (shown_eq_iff hc he
    (follows_closingMoves hs axis index hc) (fun m => ne_of_mem_closingMoves hs) rfl))
  exact get?_moved hs hin ha hc hi (follows_closingMoves hs axis index ha) fun k hk k' hk' =>
    Axis.closed_injective (coord_ne_of_kept hs ha hline horph hk)
      (coord_ne_of_kept hs ha hline horph hk')

theorem inStep_deleteLine_iff :
    t.InStep ↔ ∀ j, s.Restated (axis.closed index) t j → ∀ i, ¬t.Reads i j := by
  rw [inStep_iff (deleteLine_spec hs h).1]
  constructor
  · exact fun hup j hre i hr => (upToDate_deleteLine_iff hs hin h hr).mp (hup i j) hre
  · intro hall i j
    by_cases hr : t.Reads i j
    · exact (upToDate_deleteLine_iff hs hin h hr).mpr fun hre => hall j hre i hr
    · exact upToDate_of_not_reads hr

end

/-! ## both -/

/-- Where what is seen is up to date, it still is after a line has been put in, exactly if no cell is
read that shows something else after following its moves, unless it reads a new cell, directly or
through others; and after a line has been taken out, exactly if no such cell is read at all. -/
theorem inStep_iff_not_restated {s : Sheet} (h : s.Reachable) (hin : s.InStep) (axis : Axis)
    (index : Nat) :
    (∀ t, s.insertLine axis index = .ok t → (t.InStep ↔ ∀ j, s.Restated (axis.opened index) t j →
      (∀ i, ¬t.Reads i j) ∨ ∃ n, s.cell? n = none ∧ t.ReadsOn j n)) ∧
    ∀ t, s.deleteLine axis index = .ok t →
      (t.InStep ↔ ∀ j, s.Restated (axis.closed index) t j → ∀ i, ¬t.Reads i j) :=
  ⟨fun _ ht => inStep_insertLine_iff h.wired hin ht,
    fun _ ht => inStep_deleteLine_iff h.wired hin ht⟩

/-! ## a chain of three cells -/

/-- `A1` shows a text, `B1` has content that reads `A1`, and `C1` shows what `B1` shows -/
def chain (content : Text) : Sheet :=
  (((blank 3 1 []).set ⟨0, 0⟩ "x".toList).set ⟨0, 1⟩ content).set ⟨0, 2⟩ "=REF(B1)".toList

theorem consistent_chain {content : Text}
    (h : ((blank 3 1 []).set ⟨0, 0⟩ "x".toList).targets ⟨0, 1⟩ content = .ok [⟨0, 0⟩] ∧
      ((blank 3 1 []).set ⟨0, 0⟩ "x".toList).closesCycle ⟨0, 1⟩ [⟨0, 0⟩] = false)
    (h' : (((blank 3 1 []).set ⟨0, 0⟩ "x".toList).set ⟨0, 1⟩ content).contains ⟨0, 2⟩ = true ∧
      (((blank 3 1 []).set ⟨0, 0⟩ "x".toList).set ⟨0, 1⟩ content).targets ⟨0, 2⟩ "=REF(B1)".toList
        = .ok [⟨0, 1⟩] ∧
      (((blank 3 1 []).set ⟨0, 0⟩ "x".toList).set ⟨0, 1⟩ content).closesCycle ⟨0, 2⟩ [⟨0, 1⟩]
        = false) : (chain content).Consistent := by
  have h1 : ((blank 3 1 []).set ⟨0, 0⟩ "x".toList).Consistent :=
    consistent_set_of_targets (consistent_blank 3 1 []) (by decide) [] (by decide +kernel)
      (by decide +kernel)
  have h2 := consistent_set_of_targets h1 (by decide +kernel) _ h.1 h.2
  exact consistent_set_of_targets h2 h'.1 _ h'.2.1 h'.2.2

/-- as long as `B1` only reads `A1`, a row that is put in before the chain changes nothing -/
theorem inStep_iff_not_restated_chain : ∃ s t : Sheet, s.Reachable ∧ s.InStep ∧
    s.insertLine .row 0 = .ok t ∧ t.readsAt ⟨1, 2⟩ = [⟨1, 1⟩] ∧ t.InStep := by
  have h : (chain "=REF(A1)".toList).Consistent :=
    consistent_chain (by decide +kernel) (by decide +kernel)
  obtain ⟨t, ht⟩ : ∃ t, (chain "=REF(A1)".toList).insertLine .row 0 = .ok t :=
    ⟨_, if_neg (by decide +kernel)⟩
  have hsame : ∀ j < 3,
      (((chain "=REF(A1)".toList).insertLine .row 0).toOption.bind fun t => t.cell? j).map
        (fun e => evaluate e.raw e.snapshot)
          = ((chain "=REF(A1)".toList).cell? j).map Cell.shown := by
    decide +kernel
  have hsize : (chain "=REF(A1)".toList).slots.size = 3 := by decide +kernel
  have hreads : ((chain "=REF(A1)".toList).insertLine .row 0).toOption.map
      (fun t => t.readsAt ⟨1, 2⟩) = some [⟨1, 1⟩] := by
    decide +kernel
  rw [ht] at hsame hreads
  refine ⟨_, t, h.reachable, h.inStep, ht, Option.some.inj hreads,
    ((inStep_iff_not_restated h.reachable h.inStep .row 0).1 t ht).mpr ?_⟩
  intro j ⟨c, e, hc, he, _, hshown⟩
  have e' : (t.cell? j).map (fun e => evaluate e.raw e.snapshot) = _ :=
    hsame j (hsize ▸ lt_size_of_cell? hc)
  rw [he, hc] at e'
  exact absurd (Option.some.inj e') hshown

/-- `B1` shows the text of `A1` and behind it that this is from `A1`.  After a row has been put in
before the chain it says `A2` in both places, and `C1` has not been told. -/
theorem not_inStep_chain :
    ∃ s t : Sheet, s.Consistent ∧ s.insertLine .row 0 = .ok t ∧ ¬t.InStep := by
  have h : (chain "=REF(A1)+\" from A1\"".toList).Consistent :=
    consistent_chain (by decide +kernel) (by decide +kernel)
  obtain ⟨t, ht⟩ : ∃ t, (chain "=REF(A1)+\" from A1\"".toList).insertLine .row 0 = .ok t :=
    ⟨_, if_neg (by decide +kernel)⟩
  have hcell : ((chain "=REF(A1)+\" from A1\"".toList).insertLine .row 0).toOption.bind
      (fun t => (t.cell? 2).map fun c => (c.snapshot.get? ⟨1, 1⟩, t.shownAt? ⟨1, 1⟩))
        = some (some "x from A1".toList, some "x from A2".toList) := by
    decide +kernel
  rw [ht] at hcell
  obtain ⟨c, hc, e⟩ := Option.map_eq_some_iff.mp
    (show (t.cell? 2).map (fun c => (c.snapshot.get? ⟨1, 1⟩, t.shownAt? ⟨1, 1⟩)) = _ from hcell)
  obtain ⟨hseen, hshown⟩ := Prod.mk.inj e
  refine ⟨_, t, h, ht, fun hin => ?_⟩
  have hsame := hin 2 c ⟨1, 1⟩ _ hc hseen
  rw [hshown] at hsame
  exact absurd (Option.some.inj hsame) (by decide)

end Sheet

end Worksheet
