import Worksheet.Proofs.Sheet.Run

/-!
# What a deletion leaves

The readers of the removed cells are collected while the cells are discarded, and what reads those
is found over lists of readers that are emptied on the way.  In the end it does not show:

* `Sheet.OnLine`       the cells that are removed with a line;
* `Sheet.Orphaned`     the cells that are left, and read a removed one, directly or through others;
* `Sheet.lost_iff_orphaned`
                       exactly these lose their content;
* `Sheet.cell?_deleteLine`
                       the cell with each number after a deletion;
* `Sheet.reads_of_deleteLine`
                       who still reads whom;
* `Sheet.orphaned_and_kept`
                       what is left of the cells that are orphaned, and of the others.
-/

namespace Worksheet

theorem Cell.color_followAll (c : Cell) (ms : List (Position × Position)) :
    (c.followAll ms).color = c.color := by
  induction ms generalizing c with
  | nil => rfl
  | cons m ms ih => exact ih _

namespace Sheet

/-! ## removed cells and orphans -/

/-- the cell `j` stands on a line -/
def OnLine (s : Sheet) (axis : Axis) (index : Nat) (j : CellId) : Prop :=
  ∃ c, s.cell? j = some c ∧ axis.coord c.position = index

/-- the cell `j` reads cells on a line, directly or through others, and is not itself one of them -/
def Orphaned (s : Sheet) (axis : Axis) (index : Nat) (j : CellId) : Prop :=
  ¬s.OnLine axis index j ∧ ∃ r, s.OnLine axis index r ∧ s.ReadsOn j r

instance (s : Sheet) (axis : Axis) (index : Nat) (j : CellId) :
    Decidable (s.OnLine axis index j) :=
  match h : s.cell? j with
  | some c => decidable_of_iff (axis.coord c.position = index) (by simp [OnLine, h])
  | none => .isFalse (by simp [OnLine, h])

theorem onLine_iff {s : Sheet} {axis : Axis} {index : Nat} {j : CellId} {c : Cell}
    (hc : s.cell? j = some c) : s.OnLine axis index j ↔ axis.coord c.position = index :=
  ⟨fun ⟨_, hd, h⟩ => Option.some.inj (hc.symm.trans hd) ▸ h, fun h => ⟨c, hc, h⟩⟩

theorem mem_removedAt_iff {s : Sheet} (hs : s.Wired) {axis : Axis} {index : Nat} {j : CellId} :
    j ∈ s.removedAt axis index ↔ s.OnLine axis index j := by
  constructor
  · intro h
    obtain ⟨e, he, rfl⟩ := List.mem_map.mp h
    obtain ⟨hid, hcoord⟩ := mem_line.mp he
    obtain ⟨c, hc, hp⟩ := hs.idAt?_iff.mp hid
    exact ⟨c, hc, hp ▸ hcoord⟩
  · rintro ⟨c, hc, h⟩
    exact (mem_removedAt hs hc).mpr h

section
variable {s : Sheet} {axis : Axis} {index : Nat} {i j : CellId}

/-- who reads an orphan or a removed cell is itself an orphan or removed -/
theorem orphaned_of_reads (h : s.Reads i j) (hj : s.OnLine axis index j ∨ s.Orphaned axis index j)
    (hi : ¬s.OnLine axis index i) : s.Orphaned axis index i := by
  refine ⟨hi, ?_⟩
  rcases hj with hj | ⟨_, r, hr, hjr⟩
  · exact ⟨j, hj, .single h⟩
  · exact ⟨r, hr, .head h hjr⟩

end

/-! ## the sheet without the removed cells -/

/-- a cell that is left, after it has followed the cells that it reads and has moved itself -/
def closedCell (s : Sheet) (axis : Axis) (index : Nat) (j : CellId) (c : Cell) : Cell :=
  (c.followAll (s.closingMoves axis index j)).placeAt (axis.closed index c.position)

section
variable {s v : Sheet} (hs : s.Wired) {axis : Axis} {index : Nat}
  (hv : Discarded ((s.shift axis (· - 1) (s.linesFrom axis (index + 1)).flatten).closeLine axis index)
    (s.removedAt axis index) v)
include hs hv

/-- a cell that is left has moved, and is read by the others that are left -/
theorem cell?_of_discarded {j : CellId} {c : Cell} (hc : s.cell? j = some c)
    (hj : ¬s.OnLine axis index j) : v.cell? j = some ((s.closedCell axis index j c).withObservers
      (c.observers.filter (· ∉ s.removedAt axis index))) := by
  obtain ⟨hcells, horder, hσ⟩ := orderly_delete hs axis index
  have hu := cell?_shift_of_wired hs hcells horder hσ j
  rw [hc, Option.map_some] at hu
  have hp : Sheet.idAt? _ (axis.closed index c.position) = some j :=
    (idAt?_closeLine_iff hs (shifted_delete hs axis index)).mpr
      ⟨c, hc, fun e => hj ⟨c, hc, e⟩, rfl⟩
  rw [hv.cell hp ((cell?_closeLine ..).trans hu)]
  show some (Cell.withObservers _ ((c.followAll _).observers.filter _)) = _
  rw [Cell.observers_followAll]
  rfl

theorem reads_of_discarded {i j : CellId} (h : s.Reads i j) (hi : ¬s.OnLine axis index i)
    (hj : ¬s.OnLine axis index j) : v.Reads i j := by
  obtain ⟨d, hd, hmem⟩ := h
  exact ⟨_, cell?_of_discarded hs hv hd hj, List.mem_filter.mpr
    ⟨hmem, decide_eq_true (mt (mem_removedAt_iff hs).mp hi)⟩⟩

variable (hsev : Severed s axis index v) {orphans : List CellId}
  (horphans : ∀ o, o ∈ orphans ↔ ∃ i ∈ s.removedAt axis index, s.Reads o i)
include hsev horphans

theorem lost_iff_orphaned {j : CellId} (hj : ¬s.OnLine axis index j) :
    v.Lost orphans j ↔ s.Orphaned axis index j := by
  constructor
  · rintro ⟨o, ho, hpath⟩
    obtain ⟨r, hr, hor⟩ := (horphans o).mp ho
    have hpath' : Relation.ReflTransGen s.Reads j o :=
      Relation.ReflTransGen.mono (fun _ _ h => (hsev.reads h).1) j o hpath
    exact ⟨hj, r, (mem_removedAt_iff hs).mp hr, Relation.TransGen.tail' hpath' hor⟩
  · rintro ⟨-, r, hr, hpath⟩
    -- along the path, up to the first removed cell, nothing is missing
    have hlost : ∀ {i k}, s.Reads i k → ¬s.OnLine axis index i →
        (¬s.OnLine axis index k → v.Lost orphans k) → v.Lost orphans i := by
      intro i k hik hi hk
      by_cases hline : s.OnLine axis index k
      · exact ⟨i, (horphans i).mpr ⟨k, (mem_removedAt_iff hs).mpr hline, hik⟩, .refl⟩
      · obtain ⟨o, ho, hko⟩ := hk hline
        exact ⟨o, ho, hko.head (reads_of_discarded hs hv hik hi hline)⟩
    induction hpath using Relation.TransGen.head_induction_on with
    | single hir => exact hlost hir hj fun h => absurd hr h
    | head hik _ ih => exact hlost hik hj ih

end

/-! ## every cell after a deletion -/

section
variable {s t : Sheet} (hs : s.Wired) {axis : Axis} {index : Nat}
  (h : s.deleteLine axis index = .ok t) {j : CellId}
include hs h

theorem cell?_deleteLine_of_gone (hj : s.cell? j = none ∨ s.OnLine axis index j) :
    t.cell? j = none := by
  obtain ⟨hindex, v, orphans, seen, hv, _, hu, _⟩ := exists_pruned_deleteLine hs h
  have hsev := severed_of_discarded hs (shifted_delete hs axis index) hindex hv
  exact hu.gone (hsev.gone (hj.imp_right (mem_removedAt_iff hs).mpr))

open Classical in
theorem cell?_deleteLine {c : Cell} (hc : s.cell? j = some c) (hj : ¬s.OnLine axis index j) :
    t.cell? j = some ((if s.Orphaned axis index j then (s.closedCell axis index j c).invalidate
        else s.closedCell axis index j c).withObservers
      (c.observers.filter fun i => ¬s.OnLine axis index i ∧ ¬s.Orphaned axis index i)) := by
  obtain ⟨hindex, v, orphans, seen, hv, horphans, hu, hseen⟩ := exists_pruned_deleteLine hs h
  have hsev := severed_of_discarded hs (shifted_delete hs axis index) hindex hv
  have hmem : ∀ {i}, ¬s.OnLine axis index i → (i ∈ seen ↔ s.Orphaned axis index i) := fun hi =>
    (hseen _).trans (lost_iff_orphaned hs hv hsev horphans hi)
  have hfilter : (c.observers.filter (· ∉ s.removedAt axis index)).filter (· ∉ seen)
      = c.observers.filter fun i => ¬s.OnLine axis index i ∧ ¬s.Orphaned axis index i := by
    rw [List.filter_filter]
    refine List.filter_congr fun i _ => ?_
    rw [← Bool.decide_and, decide_eq_decide, mem_removedAt_iff hs, and_comm]
    exact and_congr_right fun hi => not_congr (hmem hi)
  rw [hu.cell (cell?_of_discarded hs hv hc hj), ← hfilter]
  simp only [hmem hj]
  split_ifs <;> rfl

end

section
variable {s t : Sheet} (hs : s.Wired) {axis : Axis} {index : Nat}
  (h : s.deleteLine axis index = .ok t) {j : CellId} {c : Cell} (hc : s.cell? j = some c)
  (hj : ¬s.OnLine axis index j)
include hs h hc hj

open Classical in
/-- an orphan is read by orphans and removed cells only -/
theorem cell?_deleteLine_of_orphaned (ho : s.Orphaned axis index j) :
    t.cell? j = some ((s.closedCell axis index j c).invalidate.withObservers []) := by
  have hnil : c.observers.filter
      (fun i => ¬s.OnLine axis index i ∧ ¬s.Orphaned axis index i) = [] :=
    List.filter_eq_nil_iff.mpr fun i hi hboth => by
      obtain ⟨hline, horph⟩ := of_decide_eq_true hboth
      exact horph (orphaned_of_reads ⟨c, hc, hi⟩ (.inr ho) hline)
  rw [cell?_deleteLine hs h hc hj, if_pos ho, hnil]

open Classical in
theorem cell?_deleteLine_of_kept (ho : ¬s.Orphaned axis index j) :
    t.cell? j = some ((s.closedCell axis index j c).withObservers
      (c.observers.filter fun i => ¬s.OnLine axis index i ∧ ¬s.Orphaned axis index i)) := by
  rw [cell?_deleteLine hs h hc hj, if_neg ho]

omit h in
theorem coord_ne_of_kept (ho : ¬s.Orphaned axis index j) {k : Position}
    (hk : k ∈ c.snapshot.keys) : axis.coord k ≠ index := fun e => by
  obtain ⟨r, d, _, hd, rfl⟩ := hs.exists_of_contains (hs.key_inside hc hk)
  exact ho (orphaned_of_reads ((hs.reads_iff hc hd).mpr hk) (.inl ⟨d, hd, e⟩) hj)

/-- what has kept its content reads the cells that it has read, where they stand now -/
theorem idAt?_closed_of_kept (ho : ¬s.Orphaned axis index j) {k : Position}
    (hk : k ∈ c.snapshot.keys) : t.idAt? (axis.closed index k) = s.idAt? k := by
  have hne := coord_ne_of_kept hs hc hj ho hk
  obtain ⟨i, d, hid, hd, rfl⟩ := hs.exists_of_contains (hs.key_inside hc hk)
  have hi : ¬s.OnLine axis index i := mt (onLine_iff hd).mp hne
  rw [hid, (deleteLine_spec hs h).1.idAt?_iff]
  refine ⟨_, cell?_deleteLine hs h hd hi, ?_⟩
  split_ifs <;> rfl

end

open Classical in
/-- whoever still reads a cell has kept its content, and so has the cell that is read -/
theorem reads_of_deleteLine {s t : Sheet} (hs : s.Wired) {axis : Axis} {index : Nat}
    (h : s.deleteLine axis index = .ok t) {i j : CellId} (hr : t.Reads i j) : s.Reads i j ∧
      (¬s.OnLine axis index i ∧ ¬s.Orphaned axis index i) ∧
      ¬s.OnLine axis index j ∧ ¬s.Orphaned axis index j := by
  obtain ⟨e, he, hi⟩ := hr
  have hlive : ¬(s.cell? j = none ∨ s.OnLine axis index j) := fun hgone => by
    rw [cell?_deleteLine_of_gone hs h hgone] at he
    cases he
  obtain ⟨hne, hj⟩ := not_or.mp hlive
  obtain ⟨c, hc⟩ := Option.ne_none_iff_exists'.mp hne
  rw [cell?_deleteLine hs h hc hj] at he
  rw [← Option.some.inj he] at hi
  obtain ⟨hmem, hkept⟩ := List.mem_filter.mp hi
  have hread : s.Reads i j := ⟨c, hc, hmem⟩
  obtain ⟨hline, horph⟩ := of_decide_eq_true hkept
  exact ⟨hread, ⟨hline, horph⟩, hj, fun ho => horph (orphaned_of_reads hread (.inr ho) hline)⟩

open Classical in
/-- The cells that read a removed one, directly or through others, have lost their content and all
ties.  The others that are left read the cells that they have read, and are read by those of their
readers that have not been removed or lost their content.  No color changes. -/
theorem orphaned_and_kept {s t : Sheet} (h : s.Reachable) {axis : Axis} {index : Nat}
    (ht : s.deleteLine axis index = .ok t) :
    (∀ j, t.cell? j = none ↔ s.cell? j = none ∨ s.OnLine axis index j) ∧
    ∀ j c, s.cell? j = some c → ¬s.OnLine axis index j → ∃ e, t.cell? j = some e ∧
      e.position = axis.closed index c.position ∧ e.color = c.color ∧
      (s.Orphaned axis index j → e.raw = Fault.invalidReference.text ∧
        e.shown = Fault.invalidReference.text ∧ e.snapshot = ∅ ∧ e.observers = []) ∧
      (¬s.Orphaned axis index j →
        (∀ q, q ∈ e.snapshot.keys ↔ ∃ k ∈ c.snapshot.keys, axis.closed index k = q) ∧
        (∀ k ∈ c.snapshot.keys, t.idAt? (axis.closed index k) = s.idAt? k) ∧
        e.observers =
          c.observers.filter fun i => ¬s.OnLine axis index i ∧ ¬s.Orphaned axis index i) := by
  have hs := h.wired
  refine ⟨fun j => ⟨fun hnone => ?_, cell?_deleteLine_of_gone hs ht⟩, fun j c hc hj => ?_⟩
  · by_contra hno
    obtain ⟨hlive, hj⟩ := not_or.mp hno
    obtain ⟨c, hc⟩ := Option.ne_none_iff_exists'.mp hlive
    rw [cell?_deleteLine hs ht hc hj] at hnone
    cases hnone
  · by_cases ho : s.Orphaned axis index j
    · exact ⟨_, cell?_deleteLine_of_orphaned hs ht hc hj ho, rfl, Cell.color_followAll ..,
        fun _ => ⟨rfl, rfl, rfl, rfl⟩, fun hno => absurd ho hno⟩
    · refine ⟨_, cell?_deleteLine_of_kept hs ht hc hj ho, rfl, Cell.color_followAll ..,
        fun ho' => absurd ho' ho, fun _ => ⟨fun q => ?_, fun k hk => ?_, rfl⟩⟩
      · exact Cell.mem_keys_of_follows (follows_closingMoves hs axis index hc)
      · exact idAt?_closed_of_kept hs ht hc hj ho hk

/-- `B3` reads `A2` through `B1`, and `A3` reads `A1`, when the second row is taken out -/
theorem orphaned_and_kept_b3 : ∃ s t : Sheet, s.Reachable ∧ s.deleteLine .row 1 = .ok t ∧
    s.Orphaned .row 1 5 ∧ t.cell? 2 = none ∧
    (∃ e, t.cell? 5 = some e ∧ e.raw = Fault.invalidReference.text ∧ e.observers = []) ∧
    ∃ e, t.cell? 4 = some e ∧ e.position = ⟨1, 0⟩ ∧ ∀ q, q ∈ e.snapshot.keys ↔ q = ⟨0, 0⟩ := by
  generalize hs : ((((blank 2 3 []).apply (.set ⟨0, 1⟩ "=REF(A2)".toList)).apply
      (.set ⟨2, 1⟩ "=REF(B1)".toList)).apply (.set ⟨2, 0⟩ "=REF(A1)".toList)) = s
  have h : s.Reachable := hs ▸ .step _ (.step _ (.step _ (.blank 2 3 []) trivial) trivial) trivial
  obtain ⟨t, ht⟩ : ∃ t, s.deleteLine .row 1 = .ok t := ⟨_, if_neg (by rw [← hs]; decide +kernel)⟩
  obtain ⟨hgone, hleft⟩ := orphaned_and_kept h ht
  -- `B3` is an orphan
  have hpath : s.Reads 5 1 ∧ s.Reads 1 2 ∧ s.OnLine .row 1 2 ∧ ¬s.OnLine .row 1 5 := by
    rw [← hs]
    decide +kernel
  have horph : s.Orphaned .row 1 5 :=
    ⟨hpath.2.2.2, 2, hpath.2.2.1, .head hpath.1 (.single hpath.2.1)⟩
  obtain ⟨b, hb⟩ : ∃ c, s.cell? 5 = some c := Option.isSome_iff_exists.mp (by
    rw [← hs]
    decide +kernel)
  obtain ⟨b', hb', _, _, hlost, _⟩ := hleft 5 b hb horph.1
  -- `A3` is none, since it keeps its text
  have ha : (s.cell? 4).map (fun c => (c.position, c.snapshot.keys)) = some (⟨2, 0⟩, [⟨0, 0⟩]) ∧
      ¬s.OnLine .row 1 4 := by
    rw [← hs]
    decide +kernel
  have hraw : ((s.deleteLine .row 1).toOption.bind fun t => t.cell? 4).map Cell.raw
      = some "=REF(A1)".toList := by
    rw [← hs]
    decide +kernel
  obtain ⟨a, ha4, e⟩ := Option.map_eq_some_iff.mp ha.1
  obtain ⟨hp, hk⟩ := Prod.mk.inj e
  obtain ⟨a', ha', hp', _, hlost', hkept⟩ := hleft 4 a ha4 ha.2
  have hno : ¬s.Orphaned .row 1 4 := fun ho => by
    rw [ht] at hraw
    change (t.cell? 4).map Cell.raw = _ at hraw
    rw [ha', Option.map_some, (hlost' ho).1] at hraw
    exact absurd hraw (by decide)
  refine ⟨s, t, h, ht, horph, (hgone 2).mpr (.inr hpath.2.2.1),
    ⟨b', hb', (hlost horph).1, (hlost horph).2.2.2⟩, a', ha', by rw [hp', hp]; rfl, fun q => ?_⟩
  rw [(hkept hno).1, hk]
  simp only [List.mem_singleton, exists_eq_left]
  exact eq_comm

end Sheet

end Worksheet
