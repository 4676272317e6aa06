import Mathlib.Data.List.Nodup
import Worksheet.Proofs.Sheet.Orphans
import Worksheet.Proofs.Sheet.Transport

/-!
# How cells are stored

A sheet keeps its cells in slots, and a grid of slot numbers beside them.  A line that is put in
takes vacant slots, and one that is taken out leaves its own vacant:

* `Sheet.Allotted`     the numbers of the grid and the vacant numbers share out the slots, and the
                       cell in the slot of each place knows that place;
* `Sheet.Placed.allotted` the cells of such a sheet are in their places;
* `Sheet.idAt?_insertLine`, `Sheet.idAt?_deleteLine`
                       the grid is the old one with a line put in, or taken out;
* `Sheet.allotted_and_counted`
                       every run keeps the cells stored, a line more or less at a time.
-/

namespace Worksheet

namespace Sheet

/-! ## slots -/

structure Allotted (s : Sheet) : Prop where
  rows_length : ∀ ids ∈ s.grid, ids.length = s.cols
  nodup_ids : s.grid.flatten.Nodup
  mem_ids : ∀ id, id ∈ s.grid.flatten ↔ ∃ c, s.slots[id]? = some (some c)
  nodup_vacant : s.vacant.Nodup
  mem_vacant : ∀ id, id ∈ s.vacant ↔ s.slots[id]? = some none
  position : ∀ p id, s.idAt? p = some id → ∃ c, s.slots[id]? = some (some c) ∧ c.position = p

theorem cell?_eq_some {s : Sheet} {id : CellId} {c : Cell} :
    s.cell? id = some c ↔ s.slots[id]? = some (some c) :=
  Option.join_eq_some_iff

/-- what holds of every cell can be decided slot by slot -/
theorem forall_cell?_iff {s : Sheet} {P : Cell → Prop} :
    (∀ j c, s.cell? j = some c → P c) ↔ ∀ o ∈ s.slots.toList, ∀ c ∈ o, P c := by
  constructor
  · rintro h _ ho c rfl
    obtain ⟨j, hj⟩ := List.mem_iff_getElem?.mp ho
    exact h j c (cell?_eq_some.mpr (Array.getElem?_toList.symm.trans hj))
  · intro h j c hc
    have hj : s.slots.toList[j]? = some (some c) :=
      Array.getElem?_toList.trans (cell?_eq_some.mp hc)
    exact h _ (List.mem_of_getElem? hj) c rfl

theorem map_snd_places (s : Sheet) : s.places.map Prod.snd = s.grid.flatten := by
  have hrow : ∀ (ids : List CellId) (row : Nat),
      (ids.zipIdx.map fun e => ((⟨row, e.2⟩, e.1) : Position × CellId)).map Prod.snd = ids :=
    fun ids row => by
      rw [List.map_map]
      exact List.zipIdx_map_fst 0 ids
  rw [places, List.map_flatMap]
  simp only [hrow]
  rw [← List.flatMap_map Prod.fst (fun ids => ids), List.zipIdx_map_fst, List.flatMap_id']

namespace Placed
variable {s : Sheet} (hs : s.Placed)
include hs

theorem mem_flatten_grid {id : CellId} :
    id ∈ s.grid.flatten ↔ ∃ c, s.cell? id = some c := by
  rw [← map_snd_places, List.mem_map]
  constructor
  · rintro ⟨⟨p, id⟩, hmem, rfl⟩
    obtain ⟨c, hc, _⟩ := hs.idAt?_iff.mp (mem_places.mp hmem)
    exact ⟨c, hc⟩
  · rintro ⟨c, hc⟩
    exact ⟨(c.position, id), mem_places.mpr (hs.idAt?_position hc), rfl⟩

theorem nodup_flatten_grid : s.grid.flatten.Nodup := by
  rw [← map_snd_places]
  refine (nodup_places s).map_on fun a ha b hb e => Prod.ext ?_ e
  exact eq_of_idAt? hs (mem_places.mp ha) (e ▸ mem_places.mp hb)

theorem allotted : s.Allotted where
  rows_length := hs.rows_length
  nodup_ids := hs.nodup_flatten_grid
  mem_ids _ := hs.mem_flatten_grid.trans (exists_congr fun _ => cell?_eq_some)
  nodup_vacant := hs.vacant_nodup
  mem_vacant id := by
    rw [hs.mem_vacant, cell?]
    constructor
    · rintro ⟨hlt, hnone⟩
      rw [Array.getElem?_eq_getElem hlt] at hnone ⊢
      exact congrArg some hnone
    · intro h
      exact ⟨(Array.getElem?_eq_some_iff.mp h).1, by rw [h]; rfl⟩
  position p id hid := by
    obtain ⟨c, hc, hp⟩ := hs.idAt?_iff.mp hid
    exact ⟨c, cell?_eq_some.mp hc, hp⟩

end Placed

/-! ## the grid after a line has been put in or taken out -/

section
variable {s t : Sheet} (hs : s.Wired) {axis : Axis} {index : Nat}
include hs

theorem idAt?_insertLine (h : s.insertLine axis index = .ok t) (p : Position) :
    t.idAt? (axis.opened index p) = s.idAt? p := by
  have ht := extended_insertLine hs h
  refine Option.ext fun j => ⟨fun hj => ?_, fun hj => ?_⟩
  · obtain ⟨e, he, hp⟩ := ht.idAt?_iff.mp hj
    cases hc : s.cell? j with
    | none =>
      -- a new cell would stand on the line
      have hcoord := (eq_blank_of_new hs h hc he).1
      rw [hp] at hcoord
      exact absurd hcoord (axis.coord_opened_ne index p)
    | some c =>
      rw [position_of_insertLine hs h hc he] at hp
      rw [← axis.opened_injective index hp, hs.idAt?_position hc]
  · obtain ⟨c, hc, rfl⟩ := hs.idAt?_iff.mp hj
    obtain ⟨_, e, _, he, hp, _⟩ := exists_cell_of_insertLine hs h hc
    exact hp ▸ ht.idAt?_position he

theorem idAt?_deleteLine (h : s.deleteLine axis index = .ok t) (p : Position) :
    t.idAt? p = s.idAt? (axis.opened index p) := by
  obtain ⟨ht, hshort⟩ := deleteLine_spec hs h
  refine Option.ext fun j => ⟨fun hj => ?_, fun hj => ?_⟩
  · obtain ⟨e, he, rfl⟩ := ht.idAt?_iff.mp hj
    obtain ⟨c, _, hc, hne, _, hp, _⟩ := hshort.of_cell he
    rw [hp, Axis.opened_closed hne, hs.idAt?_position hc]
  · obtain ⟨c, hc, hp⟩ := hs.idAt?_iff.mp hj
    have hline : ¬s.OnLine axis index j := (onLine_iff hc).not.mpr fun e =>
      axis.coord_opened_ne index p (hp ▸ e)
    have he := cell?_deleteLine hs h hc hline
    obtain ⟨_, _, hc', _, _, hp', _⟩ := hshort.of_cell he
    rw [ht.idAt?_iff]
    refine ⟨_, he, hp'.trans ?_⟩
    rw [Option.some.inj (hc'.symm.trans hc), hp, axis.closed_opened]

end

/-! ## every run -/

/-- In every sheet that a run leads to, the rows are of one length, the numbers in the grid are those
of the slots that have a cell, each in one place, the others are vacant, and a cell knows its place.
An index that is out of range changes nothing.  Otherwise one line is taken out, or one is put in if
there is room to count it, and the others keep their order. -/
theorem allotted_and_counted {s : Sheet} (h : s.Reachable) : s.Allotted ∧
    (∀ axis index, axis.count s < index →
      s.insertLine axis index = .error (axis.outOfRange s index) ∧
        s.apply (.insert axis index) = s) ∧
    (∀ axis index, index ≤ axis.count s → s.HasRoom axis →
      ∃ t, s.insertLine axis index = .ok t ∧ t.Fits ∧
        axis.count t = axis.count s + 1 ∧ axis.cross.count t = axis.cross.count s ∧
        ∀ p, t.idAt? (axis.opened index p) = s.idAt? p) ∧
    (∀ axis index, axis.count s ≤ index →
      s.deleteLine axis index = .error (axis.outOfRange s index) ∧
        s.apply (.delete axis index) = s) ∧
    ∀ axis index, index < axis.count s → ∃ t, s.deleteLine axis index = .ok t ∧
      axis.count t + 1 = axis.count s ∧ axis.cross.count t = axis.cross.count s ∧
      ∀ p, t.idAt? p = s.idAt? (axis.opened index p) := by
  have hs := h.wired
  refine ⟨hs.toPlaced.allotted, fun axis index hindex => ?_, fun axis index hindex hroom => ?_,
    fun axis index hindex => ?_, fun axis index hindex => ?_⟩
  · have e : s.insertLine axis index = .error (axis.outOfRange s index) := if_pos hindex
    exact ⟨e, by rw [apply, e]; rfl⟩
  · obtain ⟨t, ht⟩ : ∃ t, s.insertLine axis index = .ok t :=
      ⟨_, insertLine_eq_ok.mpr ⟨hindex, rfl⟩⟩
    obtain ⟨hcount, hcross⟩ := count_insertLine hs ht
    exact ⟨t, ht, fits_insertLine hs hroom ht, hcount, hcross, idAt?_insertLine hs ht⟩
  · have e : s.deleteLine axis index = .error (axis.outOfRange s index) := if_pos hindex
    exact ⟨e, by rw [apply, e]; rfl⟩
  · obtain ⟨t, ht⟩ : ∃ t, s.deleteLine axis index = .ok t := ⟨_, if_neg (Nat.not_le_of_lt hindex)⟩
    have hshort := (deleteLine_spec hs ht).2
    exact ⟨t, ht, hshort.count, hshort.cross_count, idAt?_deleteLine hs ht⟩

/-- a sheet without rows gets one, loses its first column, and its slot goes to another row; and one
without rows gets the last column for which there is room -/
theorem allotted_and_counted_from_nothing : (∃ s : Sheet, s.Reachable ∧ s.rows = 2 ∧ s.cols = 1 ∧
    s.slots.size = 2 ∧ s.Allotted ∧ ∃ t, s.deleteLine .row 0 = .ok t ∧ t.rows + 1 = s.rows) ∧
    ∃ t, (blank (maxCount - 1) 0 []).insertLine .column 0 = .ok t ∧ t.cols = maxCount ∧
      ¬t.HasRoom .column := by
  have h : Reachable ((((blank 2 0 []).apply (.insert .row 0)).apply (.delete .column 0)).apply
      (.insert .row 1)) :=
    .step _ (.step _ (.step _ (.blank 2 0 []) trivial) trivial) trivial
  obtain ⟨hallotted, -, -, -, hdelete⟩ := allotted_and_counted h
  obtain ⟨t, ht, hcount, -⟩ := hdelete .row 0 (by decide +kernel)
  obtain ⟨-, -, hinsert, -, -⟩ := allotted_and_counted (.blank (maxCount - 1) 0 [])
  obtain ⟨u, hu, -, hcols, -⟩ := hinsert .column 0 (Nat.zero_le _) (by decide)
  have hlast : u.cols = maxCount := hcols
  exact ⟨⟨_, h, by decide +kernel, by decide +kernel, by decide +kernel, hallotted, t, ht, hcount⟩,
    u, hu, hlast, fun hroom => Nat.ne_of_lt hroom.2 hlast⟩

end Sheet

end Worksheet
