import Worksheet.Proofs.Sheet.Allocation
import Worksheet.Proofs.Sheet.Shift

/-!
# A line is put in

* `Sheet.idAt?_openLine_opened`, `Sheet.idAt?_openLine_self`
                       the numbers at the places of an opened sheet;
* `Sheet.Opened`       the old cells have made room for a line of empty ones;
* `Sheet.Opened.wired` the opened sheet is wired;
* `Sheet.Opened.keys_of_line` its new cells read nothing;
* `Sheet.openingMoves`, `Sheet.cell?_openedAt`
                       the moves that an old cell is told of, in their order.
-/

namespace Worksheet

namespace Axis

theorem length_positions (axis : Axis) (s : Sheet) (index : Nat) :
    (axis.positions s index).length = axis.cross.count s := by
  cases axis <;> exact (List.length_map _).trans List.length_range

theorem getElem?_positions {axis : Axis} {s : Sheet} {index k : Nat} {p : Position} :
    (axis.positions s index)[k]? = some p ↔
      axis.coord p = index ∧ axis.cross.coord p = k ∧ k < axis.cross.count s := by
  obtain ⟨r, c⟩ := p
  have key : ∀ (n : Nat) (g : Nat → Position), ((List.range n).map g)[k]? = some ⟨r, c⟩ ↔
      k < n ∧ g k = ⟨r, c⟩ := by
    intro n g
    rw [List.getElem?_map, Option.map_eq_some_iff]
    constructor
    · rintro ⟨m, hm, e⟩
      obtain ⟨hlt, rfl⟩ := List.getElem?_eq_some_iff.mp hm
      rw [List.getElem_range] at e
      exact ⟨by rwa [List.length_range] at hlt, e⟩
    · rintro ⟨hlt, e⟩
      exact ⟨k, List.getElem?_range hlt, e⟩
  cases axis
  · refine (key s.cols _).trans ?_
    rw [Position.mk.injEq]
    exact ⟨fun ⟨h, h1, h2⟩ => ⟨h1.symm, h2.symm, h⟩, fun ⟨h1, h2, h⟩ => ⟨h, h1.symm, h2.symm⟩⟩
  · refine (key s.rows _).trans ?_
    rw [Position.mk.injEq]
    exact ⟨fun ⟨h, h1, h2⟩ => ⟨h2.symm, h1.symm, h⟩, fun ⟨h1, h2, h⟩ => ⟨h, h2.symm, h1.symm⟩⟩

end Axis

namespace Sheet

/-! ## an empty line -/

theorem getElem?_insertIdx_opened {α : Type} (as : List α) (a : α) (index k : Nat) :
    (as.insertIdx index a)[if index ≤ k then k + 1 else k]? = as[k]? := by
  split_ifs with h
  · rw [List.getElem?_insertIdx_of_gt (Nat.lt_succ_of_le h), Nat.succ_sub_one]
  · rw [List.getElem?_insertIdx_of_lt (Nat.lt_of_not_le h)]

section
variable {s : Sheet} {axis : Axis} {index : Nat}

theorem cell?_openLine (j : CellId) :
    (s.openLine axis index).cell? j = (s.allocAll (axis.positions s index)).1.cell? j := by
  cases axis <;> rfl

variable (hs : s.Numbered)
include hs

theorem numbered_openLine : (s.openLine axis index).Numbered := by
  have h := (allocAll_spec hs (axis.positions s index)).numbered
  cases axis <;> exact ⟨h.vacant_nodup, h.mem_vacant⟩

theorem idAt?_openLine_opened (p : Position) :
    (s.openLine axis index).idAt? (axis.opened index p) = s.idAt? p := by
  have h := allocAll_spec hs (axis.positions s index)
  have hc := axis.coord_opened index p
  have hx := axis.cross_opened index p
  have hlen := h.length.trans (axis.length_positions s index)
  cases axis
  · show ((Sheet.grid _).insertIdx index _)[(Axis.row.opened index p).row]?.bind
      (fun ids => ids[(Axis.row.opened index p).col]?) = s.grid[p.row]?.bind (fun ids => ids[p.col]?)
    rw [h.grid, show (Axis.row.opened index p).row = _ from hc,
      show (Axis.row.opened index p).col = _ from hx]
    exact congrArg (Option.bind · _) (getElem?_insertIdx_opened ..)
  · show (List.zipWith _ (Sheet.grid _) _)[(Axis.column.opened index p).row]?.bind
      (fun ids => ids[(Axis.column.opened index p).col]?)
      = s.grid[p.row]?.bind (fun ids => ids[p.col]?)
    have hlen' : (s.allocAll (Axis.column.positions s index)).2.length = s.grid.length := hlen
    rw [h.grid, show (Axis.column.opened index p).row = p.row from hx,
      show (Axis.column.opened index p).col = if index ≤ p.col then p.col + 1 else p.col from hc,
      List.getElem?_zipWith]
    cases hr : s.grid[p.row]? with
    | none => rfl
    | some ids =>
      have hlt : p.row < s.grid.length := (List.getElem?_eq_some_iff.mp hr).1
      rw [List.getElem?_eq_getElem (hlen' ▸ hlt)]
      exact getElem?_insertIdx_opened ..

variable (hrows : ∀ ids ∈ s.grid, ids.length = s.width) (hindex : index ≤ axis.count s)
include hrows hindex

theorem idAt?_openLine_self {p : Position} (hp : axis.coord p = index) :
    (s.openLine axis index).idAt? p
      = (s.allocAll (axis.positions s index)).2[axis.cross.coord p]? := by
  have h := allocAll_spec hs (axis.positions s index)
  have hlen := h.length.trans (axis.length_positions s index)
  cases axis
  · show ((Sheet.grid _).insertIdx index _)[p.row]?.bind (fun ids => ids[p.col]?) = _
    have hle : index ≤ s.grid.length := hindex
    rw [h.grid, show p.row = index from hp, List.getElem?_insertIdx_self, if_pos hle]
    rfl
  · show (List.zipWith _ (Sheet.grid _) _)[p.row]?.bind (fun ids => ids[p.col]?) = _
    rw [h.grid, List.getElem?_zipWith, show p.col = index from hp]
    show _ = _[p.row]?
    cases hr : s.grid[p.row]? with
    | none =>
      have hle : s.grid.length ≤ p.row := List.getElem?_eq_none_iff.mp hr
      rw [List.getElem?_eq_none (hlen ▸ hle)]
      rfl
    | some ids =>
      have hlt : p.row < s.grid.length := (List.getElem?_eq_some_iff.mp hr).1
      have hw : index ≤ ids.length := by
        rw [hrows ids (List.mem_of_getElem? hr)]
        exact hindex
      rw [List.getElem?_eq_getElem (hlen ▸ hlt)]
      show (ids.insertIdx index _)[index]? = _
      rw [List.getElem?_insertIdx_self, if_pos hw]

theorem rows_openLine : (∀ ids ∈ (s.openLine axis index).grid,
    ids.length = (s.openLine axis index).width) ∧
    axis.count (s.openLine axis index) = axis.count s + 1 ∧
    axis.cross.count (s.openLine axis index) = axis.cross.count s := by
  have h := allocAll_spec hs (axis.positions s index)
  have hlen := h.length.trans (axis.length_positions s index)
  cases axis
  · refine ⟨fun ids hids => ?_, ?_, h.width⟩
    · rcases List.mem_insertIdx (h.grid ▸ hindex) |>.mp hids with rfl | hids
      · exact hlen.trans h.width.symm
      · rw [h.grid] at hids
        exact (hrows ids hids).trans h.width.symm
    · show ((Sheet.grid _).insertIdx index _).length = s.grid.length + 1
      rw [h.grid, List.length_insertIdx_of_le_length hindex]
  · refine ⟨fun ids hids => ?_, congrArg (· + 1) h.width, ?_⟩
    · obtain ⟨k, hk⟩ := List.mem_iff_getElem?.mp hids
      rw [show Sheet.grid (s.openLine Axis.column index) = List.zipWith _ (Sheet.grid _) _ from rfl,
        h.grid, List.getElem?_zipWith] at hk
      split at hk
      · next row id hrow hid =>
        obtain rfl := Option.some.inj hk
        have hw := hrows row (List.mem_of_getElem? hrow)
        show _ = Sheet.width _ + 1
        rw [List.length_insertIdx_of_le_length (by rw [hw]; exact hindex), hw, h.width]
      · cases hk
    · show (List.zipWith _ (Sheet.grid _) _).length = s.grid.length
      rw [h.grid, List.length_zipWith, hlen]
      exact Nat.min_self _

end

/-! ## a line between the old ones -/

structure Opened (s : Sheet) (axis : Axis) (index : Nat) (t : Sheet) : Prop where
  count : axis.count t = axis.count s + 1
  cross_count : axis.cross.count t = axis.cross.count s
  cell : ∀ {j c}, s.cell? j = some c →
    ∃ ms, Position.Follows (axis.opened index) c.snapshot.keys ms ∧
      t.cell? j = some ((c.followAll ms).placeAt (axis.opened index c.position))
  new : ∀ {j d}, s.cell? j = none → t.cell? j = some d →
    axis.coord d.position = index ∧ d = Cell.blank d.position s.defaultColor

section
variable {s u : Sheet} (hs : s.Wired) {axis : Axis} {index : Nat}
  (h : Shifted s (axis.opened index) u)
include hs h

theorem cell?_openLine_of_some {j : CellId} {c : Cell} (hc : s.cell? j = some c) :
    ∃ ms, Position.Follows (axis.opened index) c.snapshot.keys ms ∧ (u.openLine axis index).cell? j
      = some ((c.followAll ms).placeAt (axis.opened index c.position)) := by
  have ha := allocAll_spec (h.numbered hs.toNumbered) (axis.positions u index)
  obtain ⟨ms, hms, hj⟩ := h.cell hc
  refine ⟨ms, hms, ?_⟩
  rw [cell?_openLine, ha.others j fun hm => ?_, hj]
  rw [ha.fresh j hm] at hj
  cases hj

theorem cell?_openLine_of_none {j : CellId} {d : Cell} (hc : s.cell? j = none)
    (hd : (u.openLine axis index).cell? j = some d) :
    axis.coord d.position = index ∧ d = Cell.blank d.position s.defaultColor ∧
      (u.allocAll (axis.positions u index)).2[axis.cross.coord d.position]? = some j := by
  have ha := allocAll_spec (h.numbered hs.toNumbered) (axis.positions u index)
  rw [cell?_openLine] at hd
  by_cases hm : j ∈ (u.allocAll (axis.positions u index)).2
  · obtain ⟨k, hk⟩ := List.mem_iff_getElem?.mp hm
    obtain ⟨p, hp, hcell⟩ := ha.cell hk
    obtain rfl := Option.some.inj (hd.symm.trans hcell)
    obtain ⟨h1, h2, _⟩ := Axis.getElem?_positions.mp hp
    refine ⟨h1, by rw [h.defaultColor]; rfl, ?_⟩
    rw [show axis.cross.coord (Cell.blank p u.defaultColor).position = k from h2, hk]
  · rw [ha.others j hm, h.gone hc] at hd
    cases hd

variable (hindex : index ≤ axis.count s)
include hindex

theorem opened_openLine : Opened s axis index (u.openLine axis index) := by
  obtain ⟨-, hc, hx⟩ := rows_openLine (h.numbered hs.toNumbered)
    (h.grid ▸ h.width ▸ hs.rows_length) (h.count axis ▸ hindex)
  refine ⟨hc.trans (congrArg (· + 1) (h.count axis)), hx.trans (h.count axis.cross),
    cell?_openLine_of_some hs h, fun hc hd => ?_⟩
  have hnew := cell?_openLine_of_none hs h hc hd
  exact ⟨hnew.1, hnew.2.1⟩

theorem placed_openLine : (u.openLine axis index).Placed := by
  have hu := h.numbered hs.toNumbered
  have hrows : ∀ ids ∈ u.grid, ids.length = u.width := h.grid ▸ h.width ▸ hs.rows_length
  have hcount : index ≤ axis.count u := h.count axis ▸ hindex
  refine ⟨numbered_openLine hu, (rows_openLine hu hrows hcount).1, fun {p id} => ?_⟩
  by_cases hp : axis.coord p = index
  · rw [idAt?_openLine_self hu hrows hcount hp]
    constructor
    · intro hid
      obtain ⟨q, hq, hcell⟩ := (allocAll_spec hu (axis.positions u index)).cell hid
      obtain ⟨hq1, hq2, _⟩ := Axis.getElem?_positions.mp hq
      exact ⟨_, (cell?_openLine _).trans hcell, axis.ext_coord (hq1.trans hp.symm) hq2⟩
    · rintro ⟨d, hd, rfl⟩
      cases hc : s.cell? id with
      | none => exact (cell?_openLine_of_none hs h hc hd).2.2
      | some c =>
        obtain ⟨ms, _, hd'⟩ := cell?_openLine_of_some hs h hc
        rw [Option.some.inj (hd.symm.trans hd')] at hp
        exact absurd hp (axis.coord_opened_ne index c.position)
  · rw [← Axis.opened_closed hp, idAt?_openLine_opened hu, h.idAt?, hs.idAt?_iff]
    constructor
    · rintro ⟨c, hc, e⟩
      obtain ⟨ms, _, hd⟩ := cell?_openLine_of_some hs h hc
      exact ⟨_, hd, congrArg (axis.opened index) e⟩
    · rintro ⟨d, hd, e⟩
      cases hc : s.cell? id with
      | none =>
        have hnew := (cell?_openLine_of_none hs h hc hd).1
        rw [e] at hnew
        exact absurd hnew (axis.coord_opened_ne index _)
      | some c =>
        obtain ⟨ms, _, hd'⟩ := cell?_openLine_of_some hs h hc
        rw [Option.some.inj (hd.symm.trans hd')] at e
        exact ⟨c, rfl, axis.opened_injective index e⟩

end

namespace Opened
variable {s t : Sheet} {axis : Axis} {index : Nat}

theorem of_cell (h : Opened s axis index t) {j : CellId} {d : Cell} (hd : t.cell? j = some d) :
    (∃ c ms, s.cell? j = some c ∧ Position.Follows (axis.opened index) c.snapshot.keys ms ∧
      d = (c.followAll ms).placeAt (axis.opened index c.position)) ∨
    s.cell? j = none ∧ axis.coord d.position = index ∧
      d = Cell.blank d.position s.defaultColor := by
  cases hc : s.cell? j with
  | none => exact .inr ⟨rfl, h.new hc hd⟩
  | some c =>
    obtain ⟨ms, hms, hd'⟩ := h.cell hc
    exact .inl ⟨c, ms, rfl, hms, Option.some.inj (hd.symm.trans hd')⟩

/-- a reader in the opened sheet read the same cell before -/
theorem reads (h : Opened s axis index t) {i j : CellId} (hr : t.Reads i j) : s.Reads i j := by
  obtain ⟨d, hd, hi⟩ := hr
  rcases h.of_cell hd with ⟨c, ms, hc, _, rfl⟩ | ⟨_, _, e⟩
  · exact ⟨c, hc, Cell.observers_followAll c ms ▸ hi⟩
  · rw [e] at hi
    cases hi

theorem wired (h : Opened s axis index t) (hs : s.Wired) (ht : t.Placed) : t.Wired where
  toPlaced := ht
  mem_keys_iff := by
    intro i j c d hc hd
    rcases h.of_cell hc with ⟨c', ms, hc', hms, rfl⟩ | ⟨hi, _, e⟩
    · show d.position ∈ (c'.followAll ms).snapshot.keys ↔ _
      rw [Cell.mem_keys_of_follows hms]
      rcases h.of_cell hd with ⟨d', ms', hd', _, rfl⟩ | ⟨_, hline, e'⟩
      · show _ ↔ i ∈ (d'.followAll ms').observers
        rw [Cell.observers_followAll, ← hs.mem_keys_iff hc' hd']
        exact ⟨fun ⟨k, hk, e⟩ => axis.opened_injective index e ▸ hk, fun hk => ⟨_, hk, rfl⟩⟩
      · refine ⟨fun ⟨k, _, e⟩ => absurd (e ▸ hline) (axis.coord_opened_ne index k), fun hi => ?_⟩
        rw [e'] at hi
        cases hi
    · refine ⟨fun hk => ?_, fun hk => ?_⟩
      · rw [e] at hk
        cases hk
      · obtain ⟨c', hc'⟩ := hs.live_of_reads (h.reads ⟨d, hd, hk⟩)
        rw [hi] at hc'
        cases hc'
  key_inside := by
    intro i c q hc hq
    rcases h.of_cell hc with ⟨c', ms, hc', hms, rfl⟩ | ⟨_, _, e⟩
    · obtain ⟨k, hk, rfl⟩ := (Cell.mem_keys_of_follows hms).mp hq
      have hin := axis.contains_iff.mp (hs.key_inside hc' hk)
      refine axis.contains_iff.mpr ⟨?_, ?_⟩
      · rw [axis.coord_opened, h.count]
        split_ifs <;> omega
      · rw [axis.cross_opened, h.cross_count]
        exact hin.2
    · rw [e] at hq
      cases hq
  observer_live := by
    intro i j d hd hi
    obtain ⟨c, hc⟩ := hs.live_of_reads (h.reads ⟨d, hd, hi⟩)
    obtain ⟨ms, _, hc'⟩ := h.cell hc
    exact ⟨_, hc'⟩
  observers_nodup := by
    intro j d hd
    rcases h.of_cell hd with ⟨c, ms, hc, _, rfl⟩ | ⟨_, _, e⟩
    · show (c.followAll ms).observers.Nodup
      rw [Cell.observers_followAll]
      exact hs.observers_nodup hc
    · rw [e]
      exact List.nodup_nil
  acyclic i hi := hs.acyclic i (Relation.TransGen.mono (fun _ _ => h.reads) i i hi)

/-- the cells of the new line read nothing -/
theorem keys_of_line (h : Opened s axis index t) {j : CellId} {d : Cell} (hd : t.cell? j = some d)
    (hline : axis.coord d.position = index) : d.snapshot.keys = [] := by
  rcases h.of_cell hd with ⟨c, ms, _, _, rfl⟩ | ⟨_, _, e⟩
  · exact absurd hline (axis.coord_opened_ne index c.position)
  · rw [e]
    rfl

end Opened

/-- the old cells make room, and then the line is put in -/
def openedAt (s : Sheet) (axis : Axis) (index : Nat) : Sheet :=
  (s.shift axis (· + 1) (s.linesFrom axis index).reverse.flatten).openLine axis index

/-- the moves that the cell `j` is told of when a line is put in, in their order -/
def openingMoves (s : Sheet) (axis : Axis) (index : Nat) (j : CellId) :
    List (Position × Position) :=
  s.movesFor j (axis.along (· + 1)) (s.linesFrom axis index).reverse.flatten

section
variable {s : Sheet} (hs : s.Wired) (axis : Axis) (index : Nat)
include hs

/-- from the far end, no cell moves to a place from which another has yet to move -/
theorem orderly_insert :
    (∀ p k, (p, k) ∈ (s.linesFrom axis index).reverse.flatten → s.idAt? p = some k) ∧
    ((s.linesFrom axis index).reverse.flatten.Pairwise fun a b =>
      a.2 ≠ b.2 ∧ b.1 ≠ axis.opened index a.1) ∧
    ∀ p k, s.idAt? p = some k → axis.opened index p =
      if (p, k) ∈ (s.linesFrom axis index).reverse.flatten then axis.along (· + 1) p else p := by
  have hmem : ∀ p k, (p, k) ∈ (s.linesFrom axis index).reverse.flatten ↔
      s.idAt? p = some k ∧ index ≤ axis.coord p := fun p k => by
    rw [← mem_linesFrom hs.toPlaced, List.mem_flatten, List.mem_flatten]
    simp only [List.mem_reverse]
  refine ⟨fun p k h => ((hmem p k).mp h).1, ?_, fun p k hid => ?_⟩
  · refine (descending_linesFrom hs.toPlaced axis index).imp_of_mem fun {a b} ha _ hab =>
      ⟨hab.1, fun e => ?_⟩
    have hle := ((hmem a.1 a.2).mp ha).2
    have hcoord := axis.coord_opened index a.1
    rw [← e, if_pos hle] at hcoord
    omega
  · unfold Axis.opened
    simp only [hmem, hid, true_and]

theorem shifted_insert : Shifted s (axis.opened index)
    (s.shift axis (· + 1) (s.linesFrom axis index).reverse.flatten) := by
  obtain ⟨hcells, horder, hσ⟩ := orderly_insert hs axis index
  exact shifted_shift hs hcells horder hσ

theorem follows_openingMoves {j : CellId} {c : Cell} (hc : s.cell? j = some c) :
    Position.Follows (axis.opened index) c.snapshot.keys (s.openingMoves axis index j) := by
  obtain ⟨hcells, horder, hσ⟩ := orderly_insert hs axis index
  exact follows_movesFor hs hcells horder hσ hc

theorem cell?_openedAt {j : CellId} {c : Cell} (hc : s.cell? j = some c) :
    (s.openedAt axis index).cell? j = some
      ((c.followAll (s.openingMoves axis index j)).placeAt (axis.opened index c.position)) := by
  obtain ⟨hcells, horder, hσ⟩ := orderly_insert hs axis index
  have hcell := cell?_shift_of_wired hs hcells horder hσ j
  rw [hc, Option.map_some] at hcell
  have hu := (shifted_insert hs axis index).numbered hs.toNumbered
  have ha := allocAll_spec hu (axis.positions
    (s.shift axis (· + 1) (s.linesFrom axis index).reverse.flatten) index)
  have hold := ha.others j fun hm => by
    rw [ha.fresh j hm] at hcell
    cases hcell
  rw [openedAt, cell?_openLine, hold]
  exact hcell

variable (hindex : index ≤ axis.count s)
include hindex

theorem opened_openedAt : Opened s axis index (s.openedAt axis index) :=
  opened_openLine hs (shifted_insert hs axis index) hindex

theorem wired_openedAt : (s.openedAt axis index).Wired :=
  (opened_openedAt hs axis index hindex).wired hs
    (placed_openLine hs (shifted_insert hs axis index) hindex)

end

end Sheet

end Worksheet
