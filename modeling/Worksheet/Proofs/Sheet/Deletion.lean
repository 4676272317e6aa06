import Worksheet.Proofs.Sheet.Discarding
import Worksheet.Proofs.Sheet.Shift

/-!
# A line is taken out

While the cells behind the line close up, a key of a removed cell and one of a moved cell can
coincide, and the removed cells are taken off lists of readers through positions at which other
cells now stand.  Neither does harm: what reads a removed cell is invalidated in the end, and a cell
is taken off a list in which it is not.

* `Sheet.idAt?_closeLine` the numbers that are left;
* `Sheet.Severed`      the cells that are left have closed up, and the removed ones read nothing;
* `Sheet.Shortened`    besides, what read a removed cell has lost its content;
* `Sheet.closingMoves` the moves that a cell is told of, in their order;
* `Sheet.deleteLine_spec` a deletion keeps a sheet wired, and shortens it.
-/

namespace Worksheet

namespace Sheet

/-! ## the grid without the line -/

theorem getElem?_eraseIdx_opened {α : Type} (as : List α) (index k : Nat) :
    (as.eraseIdx index)[k]? = as[if index ≤ k then k + 1 else k]? := by
  split_ifs with h
  · exact List.getElem?_eraseIdx_of_ge h
  · exact List.getElem?_eraseIdx_of_lt (Nat.lt_of_not_le h)

theorem idAt?_closeLine (s : Sheet) (axis : Axis) (index : Nat) (p : Position) :
    (s.closeLine axis index).idAt? p = s.idAt? (axis.opened index p) := by
  have hc := axis.coord_opened index p
  have hx := axis.cross_opened index p
  cases axis
  · show (s.grid.eraseIdx index)[p.row]?.bind (fun ids => ids[p.col]?)
      = s.grid[(Axis.row.opened index p).row]?.bind fun ids => ids[(Axis.row.opened index p).col]?
    rw [getElem?_eraseIdx_opened, show (Axis.row.opened index p).row = _ from hc,
      show (Axis.row.opened index p).col = _ from hx]
    rfl
  · show (s.grid.map fun ids => ids.eraseIdx index)[p.row]?.bind (fun ids => ids[p.col]?)
      = s.grid[(Axis.column.opened index p).row]?.bind
        fun ids => ids[(Axis.column.opened index p).col]?
    rw [show (Axis.column.opened index p).row = p.row from hx,
      show (Axis.column.opened index p).col = if index ≤ p.col then p.col + 1 else p.col from hc,
      List.getElem?_map]
    cases s.grid[p.row]? with
    | none => rfl
    | some ids => exact getElem?_eraseIdx_opened ids index p.col

theorem cell?_closeLine (s : Sheet) (axis : Axis) (index : Nat) (j : CellId) :
    (s.closeLine axis index).cell? j = s.cell? j := by
  cases axis <;> rfl

theorem numbered_closeLine {s : Sheet} (hs : s.Numbered) (axis : Axis) (index : Nat) :
    (s.closeLine axis index).Numbered := by
  cases axis <;> exact ⟨hs.vacant_nodup, hs.mem_vacant⟩

theorem rows_closeLine {s : Sheet} (hs : ∀ ids ∈ s.grid, ids.length = s.width) {axis : Axis}
    {index : Nat} (h : index < axis.count s) :
    (∀ ids ∈ (s.closeLine axis index).grid, ids.length = (s.closeLine axis index).width) ∧
    axis.count (s.closeLine axis index) + 1 = axis.count s ∧
    axis.cross.count (s.closeLine axis index) = axis.cross.count s := by
  cases axis
  · refine ⟨fun ids hids => hs ids (List.mem_of_mem_eraseIdx hids), ?_, rfl⟩
    show (s.grid.eraseIdx index).length + 1 = s.grid.length
    have hlt : index < s.grid.length := h
    rw [List.length_eraseIdx_of_lt hlt]
    omega
  · have hlt : index < s.width := h
    refine ⟨fun ids hids => ?_, Nat.sub_add_cancel (Nat.lt_of_le_of_lt (Nat.zero_le _) hlt),
      List.length_map _⟩
    obtain ⟨row, hrow, rfl⟩ := List.mem_map.mp hids
    show (row.eraseIdx index).length = s.width - 1
    rw [List.length_eraseIdx_of_lt (by rw [hs row hrow]; exact hlt), hs row hrow]

/-! ## the cells that are left -/

def removedAt (s : Sheet) (axis : Axis) (index : Nat) : List CellId :=
  (s.line axis index).map Prod.snd

/-- the cells that are left have closed up, and none lists a removed cell as a reader -/
structure Severed (s : Sheet) (axis : Axis) (index : Nat) (t : Sheet) : Prop extends Placed t where
  index_lt : index < axis.count s
  count : axis.count t + 1 = axis.count s
  cross_count : axis.cross.count t = axis.cross.count s
  gone : ∀ {j}, s.cell? j = none ∨ j ∈ s.removedAt axis index → t.cell? j = none
  cell : ∀ {j c}, s.cell? j = some c → j ∉ s.removedAt axis index →
    ∃ ms, Position.Follows (axis.closed index) c.snapshot.keys ms ∧
      t.cell? j = some (((c.followAll ms).placeAt (axis.closed index c.position)).withObservers
        (c.observers.filter (· ∉ s.removedAt axis index)))

section
variable {s u : Sheet} (hs : s.Wired) {axis : Axis} {index : Nat}
include hs

theorem mem_removedAt {j : CellId} {c : Cell} (hc : s.cell? j = some c) :
    j ∈ s.removedAt axis index ↔ axis.coord c.position = index := by
  refine ⟨fun h => ?_, fun h => List.mem_map.mpr
    ⟨(c.position, j), mem_line.mpr ⟨hs.idAt?_position hc, h⟩, rfl⟩⟩
  obtain ⟨e, he, rfl⟩ := List.mem_map.mp h
  obtain ⟨hid, hcoord⟩ := mem_line.mp he
  obtain ⟨d, hd, hp⟩ := hs.idAt?_iff.mp hid
  rw [Option.some.inj (hc.symm.trans hd), hp]
  exact hcoord

variable (h : Shifted s (axis.closed index) u)
include h

theorem idAt?_closeLine_iff {p : Position} {j : CellId} :
    (u.closeLine axis index).idAt? p = some j ↔
      ∃ c, s.cell? j = some c ∧ axis.coord c.position ≠ index ∧ axis.closed index c.position = p := by
  rw [idAt?_closeLine, h.idAt?, hs.idAt?_iff]
  refine exists_congr fun c => and_congr_right fun _ => ⟨fun e => ?_, fun ⟨hne, e⟩ => ?_⟩
  · rw [e]
    exact ⟨axis.coord_opened_ne index p, axis.closed_opened index p⟩
  · rw [← e, Axis.opened_closed hne]

theorem discardable_removedAt {i : CellId} (hi : i ∈ s.removedAt axis index) :
    (u.closeLine axis index).Discardable i := by
  obtain ⟨e, he, rfl⟩ := List.mem_map.mp hi
  obtain ⟨c, hc, hp⟩ := hs.idAt?_iff.mp (mem_line.mp he).1
  have hcoord := (mem_removedAt hs hc).mp hi
  obtain ⟨ms, hms, hu⟩ := h.cell hc
  refine ⟨⟨_, (cell?_closeLine ..).trans hu⟩, fun p hp => ?_, fun {c' p j d} hc' hp hd hmem => ?_⟩
  · obtain ⟨c', hc', hne, _⟩ := (idAt?_closeLine_iff hs h).mp hp
    exact hne (Option.some.inj (hc.symm.trans hc') ▸ hcoord)
  · obtain ⟨d', hd', hne, rfl⟩ := (idAt?_closeLine_iff hs h).mp hp
    rw [cell?_closeLine] at hc' hd
    obtain ⟨ms', _, hu'⟩ := h.cell hd'
    obtain rfl := Option.some.inj (hu.symm.trans hc')
    obtain rfl := Option.some.inj (hu'.symm.trans hd)
    have hmem' : e.2 ∈ d'.observers := Cell.observers_followAll d' ms' ▸ hmem
    exact ⟨_, (Cell.mem_keys_of_follows hms).mpr ⟨_, (hs.mem_keys_iff hc hd').mpr hmem', rfl⟩, hp⟩

theorem severed_of_discarded (hindex : index < axis.count s) {t : Sheet}
    (ht : Discarded (u.closeLine axis index) (s.removedAt axis index) t) :
    Severed s axis index t := by
  have hrows := rows_closeLine (h.grid ▸ h.width ▸ hs.rows_length) (h.count axis ▸ hindex)
  have hgone : ∀ {j}, s.cell? j = none ∨ j ∈ s.removedAt axis index → t.cell? j = none := fun hj =>
    ht.gone (hj.imp_left fun hj => (cell?_closeLine ..).trans (h.gone hj))
  have hcell : ∀ {j c}, s.cell? j = some c → j ∉ s.removedAt axis index →
      ∃ ms, Position.Follows (axis.closed index) c.snapshot.keys ms ∧
        t.cell? j = some (((c.followAll ms).placeAt (axis.closed index c.position)).withObservers
          (c.observers.filter (· ∉ s.removedAt axis index))) := fun {j c} hc hj => by
    obtain ⟨ms, hms, hu⟩ := h.cell hc
    have hne : axis.coord c.position ≠ index := fun e => hj ((mem_removedAt hs hc).mpr e)
    refine ⟨ms, hms, (ht.cell ((idAt?_closeLine_iff hs h).mpr ⟨c, hc, hne, rfl⟩)
      ((cell?_closeLine ..).trans hu)).trans ?_⟩
    show some (Cell.withObservers _ ((c.followAll ms).observers.filter _)) = _
    rw [Cell.observers_followAll]
  have hcount : ∀ axis : Axis, axis.count t = axis.count (u.closeLine _ index) := fun a => by
    cases a
    · exact congrArg List.length ht.grid
    · exact ht.width
  refine ⟨⟨ht.numbered, by rw [ht.grid, ht.width]; exact hrows.1, fun {p j} => ?_⟩,
    hindex, by rw [hcount, hrows.2.1, h.count], by rw [hcount, hrows.2.2, h.count], hgone, hcell⟩
  rw [idAt?_congr ht.grid, idAt?_closeLine_iff hs h]
  constructor
  · rintro ⟨c, hc, hne, rfl⟩
    obtain ⟨ms, _, ht'⟩ := hcell hc fun hm => hne ((mem_removedAt hs hc).mp hm)
    exact ⟨_, ht', rfl⟩
  · rintro ⟨d, hd, rfl⟩
    cases hc : s.cell? j with
    | none =>
      rw [hgone (.inl hc)] at hd
      cases hd
    | some c =>
      have hj : j ∉ s.removedAt axis index := fun hm => by
        rw [hgone (.inr hm)] at hd
        cases hd
      obtain ⟨ms, _, ht'⟩ := hcell hc hj
      obtain rfl := Option.some.inj (hd.symm.trans ht')
      exact ⟨c, rfl, fun e => hj ((mem_removedAt hs hc).mpr e), rfl⟩

end

namespace Severed
variable {s t : Sheet} {axis : Axis} {index : Nat}

theorem of_cell (h : Severed s axis index t) {j : CellId} {d : Cell} (hd : t.cell? j = some d) :
    ∃ c ms, s.cell? j = some c ∧ j ∉ s.removedAt axis index ∧
      Position.Follows (axis.closed index) c.snapshot.keys ms ∧
      d = ((c.followAll ms).placeAt (axis.closed index c.position)).withObservers
        (c.observers.filter (· ∉ s.removedAt axis index)) := by
  have hj : j ∉ s.removedAt axis index := fun hm => by
    rw [h.gone (.inr hm)] at hd
    cases hd
  cases hc : s.cell? j with
  | none =>
    rw [h.gone (.inl hc)] at hd
    cases hd
  | some c =>
    obtain ⟨ms, hms, hd'⟩ := h.cell hc hj
    exact ⟨c, ms, rfl, hj, hms, Option.some.inj (hd.symm.trans hd')⟩

theorem reads (h : Severed s axis index t) {i j : CellId} (hr : t.Reads i j) :
    s.Reads i j ∧ i ∉ s.removedAt axis index := by
  obtain ⟨d, hd, hi⟩ := hr
  obtain ⟨c, ms, hc, _, _, rfl⟩ := h.of_cell hd
  obtain ⟨hmem, hnot⟩ := List.mem_filter.mp hi
  exact ⟨⟨c, hc, hmem⟩, of_decide_eq_true hnot⟩

theorem heard (h : Severed s axis index t) (hs : s.Wired) : t.Heard where
  toPlaced := h.toPlaced
  key_of_mem := by
    intro i j c d hc hd hi
    obtain ⟨⟨d', hd', hi'⟩, _⟩ := h.reads ⟨d, hd, hi⟩
    obtain ⟨c', ms, hc', _, hms, rfl⟩ := h.of_cell hc
    obtain ⟨d'', ms', hd'', _, _, rfl⟩ := h.of_cell hd
    obtain rfl := Option.some.inj (hd'.symm.trans hd'')
    exact (Cell.mem_keys_of_follows hms).mpr ⟨_, (hs.mem_keys_iff hc' hd').mpr hi', rfl⟩
  live_of_mem := by
    intro i j d hd hi
    obtain ⟨hr, hnot⟩ := h.reads ⟨d, hd, hi⟩
    obtain ⟨c, hc⟩ := hs.live_of_reads hr
    obtain ⟨ms, _, hc'⟩ := h.cell hc hnot
    exact ⟨_, hc'⟩

end Severed

/-! ## the cells that have kept their content -/

/-- a cell that is left has its old content, moved along, or reads nothing -/
structure Shortened (s : Sheet) (axis : Axis) (index : Nat) (t : Sheet) : Prop where
  count : axis.count t + 1 = axis.count s
  cross_count : axis.cross.count t = axis.cross.count s
  of_cell : ∀ {j e}, t.cell? j = some e → ∃ c ms, s.cell? j = some c ∧
    axis.coord c.position ≠ index ∧ Position.Follows (axis.closed index) c.snapshot.keys ms ∧
    e.position = axis.closed index c.position ∧
    (e.snapshot.keys = [] ∨ (∀ k ∈ c.snapshot.keys, axis.coord k ≠ index) ∧
      e.raw = (c.followAll ms).raw ∧ e.snapshot = (c.followAll ms).snapshot)

section
variable {s t u : Sheet} (hs : s.Wired) {axis : Axis} {index : Nat} (h : Severed s axis index t)
  {orphans seen : List CellId}
  (horphans : ∀ o, o ∈ orphans ↔ ∃ i ∈ s.removedAt axis index, s.Reads o i)
  (hu : Pruned t seen u) (hseen : ∀ i, i ∈ seen ↔ t.Lost orphans i)
include hs h horphans hu hseen

omit h hu in
/-- a cell that has not been dealt with reads no removed cell -/
theorem coord_ne_of_notMem {i : CellId} {c : Cell} (hc : s.cell? i = some c) (hi : i ∉ seen)
    {k : Position} (hk : k ∈ c.snapshot.keys) : axis.coord k ≠ index := fun e => by
  obtain ⟨r, d, _, hd, rfl⟩ := hs.exists_of_contains (hs.key_inside hc hk)
  have ho : i ∈ orphans := (horphans i).mpr
    ⟨r, (mem_removedAt hs hd).mpr e, (hs.reads_iff hc hd).mpr hk⟩
  exact hi ((hseen i).mpr ⟨i, ho, .refl⟩)

theorem of_pruned {j : CellId} {e : Cell} (he : u.cell? j = some e) :
    ∃ c ms, s.cell? j = some c ∧ j ∉ s.removedAt axis index ∧
      Position.Follows (axis.closed index) c.snapshot.keys ms ∧
      e.position = axis.closed index c.position ∧
      e.observers = (c.observers.filter (· ∉ s.removedAt axis index)).filter (· ∉ seen) ∧
      if j ∈ seen then e.snapshot = ∅ else
        (∀ k ∈ c.snapshot.keys, axis.coord k ≠ index) ∧ e.raw = (c.followAll ms).raw ∧
          e.snapshot = (c.followAll ms).snapshot := by
  cases hd : t.cell? j with
  | none =>
    rw [hu.gone hd] at he
    cases he
  | some d =>
    obtain rfl := Option.some.inj (he.symm.trans (hu.cell hd))
    obtain ⟨c, ms, hc, hj, hms, rfl⟩ := h.of_cell hd
    refine ⟨c, ms, hc, hj, hms, ?_, rfl, ?_⟩
    · split_ifs <;> rfl
    · split_ifs with hm
      · rfl
      · exact ⟨fun k hk => coord_ne_of_notMem hs horphans hseen hc hm hk, rfl, rfl⟩

theorem shortened_of_pruned : Shortened s axis index u where
  count := by rw [hu.count, h.count]
  cross_count := by rw [hu.count, h.cross_count]
  of_cell {j e} he := by
    obtain ⟨c, ms, hc, hj, hms, hp, _, hrest⟩ := of_pruned hs h horphans hu hseen he
    refine ⟨c, ms, hc, fun e => hj ((mem_removedAt hs hc).mpr e), hms, hp, ?_⟩
    split_ifs at hrest
    · exact .inl (by rw [hrest]; rfl)
    · exact .inr hrest

theorem mirrored_of_pruned : u.Mirrored where
  mem_keys_iff := by
    intro i j c d hc hd
    obtain ⟨c', ms, hc', hi, hms, _, _, hkeys⟩ := of_pruned hs h horphans hu hseen hc
    obtain ⟨d', ms', hd', hj, _, hp, ho, _⟩ := of_pruned hs h horphans hu hseen hd
    rw [ho, List.mem_filter, List.mem_filter, decide_eq_true_eq, decide_eq_true_eq, hp]
    split_ifs at hkeys with hm
    · rw [hkeys, Snapshot.keys_empty]
      exact ⟨fun hk => absurd hk List.not_mem_nil, fun hk => absurd hm hk.2⟩
    · rw [hkeys.2.2, Cell.mem_keys_of_follows hms, ← hs.mem_keys_iff hc' hd']
      have hne : axis.coord d'.position ≠ index := fun e => hj ((mem_removedAt hs hd').mpr e)
      exact ⟨fun ⟨k, hk, e⟩ => ⟨⟨Axis.closed_injective (hkeys.1 k hk) hne e ▸ hk, hi⟩, hm⟩,
        fun hk => ⟨_, hk.1.1, rfl⟩⟩
  key_inside := by
    intro i c q hc hq
    obtain ⟨c', ms, hc', _, hms, _, _, hkeys⟩ := of_pruned hs h horphans hu hseen hc
    split_ifs at hkeys with hm
    · rw [hkeys] at hq
      cases hq
    · rw [hkeys.2.2, Cell.mem_keys_of_follows hms] at hq
      obtain ⟨k, hk, rfl⟩ := hq
      have hin := axis.contains_iff.mp (hs.key_inside hc' hk)
      have hne := hkeys.1 k hk
      have hcount := h.count
      have hlt := h.index_lt
      refine axis.contains_iff.mpr ⟨?_, ?_⟩
      · rw [axis.coord_closed, hu.count]
        split_ifs <;> omega
      · rw [axis.cross_closed, hu.count, h.cross_count]
        exact hin.2
  observer_live := by
    intro i j d hd hi
    obtain ⟨d', ms', hd', _, _, _, ho, _⟩ := of_pruned hs h horphans hu hseen hd
    rw [ho] at hi
    obtain ⟨hmem, hnot⟩ := List.mem_filter.mp (List.mem_filter.mp hi).1
    obtain ⟨c, hc⟩ := hs.observer_live hd' hmem
    obtain ⟨ms, _, hc'⟩ := h.cell hc (of_decide_eq_true hnot)
    exact ⟨_, hu.cell hc'⟩
  observers_nodup := by
    intro j d hd
    obtain ⟨d', _, hd', _, _, _, ho, _⟩ := of_pruned hs h horphans hu hseen hd
    rw [ho]
    exact ((hs.observers_nodup hd').filter _).filter _

theorem wired_of_pruned : u.Wired where
  toPlaced := hu.placed h.toPlaced
  toMirrored := mirrored_of_pruned hs h horphans hu hseen
  acyclic i hi := by
    refine hs.acyclic i (Relation.TransGen.mono (fun i j ⟨d, hd, hmem⟩ => ?_) i i hi)
    obtain ⟨d', _, hd', _, _, _, ho, _⟩ := of_pruned hs h horphans hu hseen hd
    rw [ho] at hmem
    exact ⟨d', hd', (List.mem_filter.mp (List.mem_filter.mp hmem).1).1⟩

end

/-! ## every deletion -/

/-- the moves that the cell `j` is told of when a line is taken out, in their order -/
def closingMoves (s : Sheet) (axis : Axis) (index : Nat) (j : CellId) :
    List (Position × Position) :=
  s.movesFor j (axis.along (· - 1)) (s.linesFrom axis (index + 1)).flatten

section
variable {s t : Sheet} (hs : s.Wired) (axis : Axis) (index : Nat)
include hs

/-- from the line on, no cell moves to a place from which another has yet to move -/
theorem orderly_delete :
    (∀ p k, (p, k) ∈ (s.linesFrom axis (index + 1)).flatten → s.idAt? p = some k) ∧
    ((s.linesFrom axis (index + 1)).flatten.Pairwise fun a b =>
      a.2 ≠ b.2 ∧ b.1 ≠ axis.closed index a.1) ∧
    ∀ p k, s.idAt? p = some k → axis.closed index p =
      if (p, k) ∈ (s.linesFrom axis (index + 1)).flatten then axis.along (· - 1) p else p := by
  have hmem : ∀ p k, (p, k) ∈ (s.linesFrom axis (index + 1)).flatten ↔
      s.idAt? p = some k ∧ index < axis.coord p := fun p k => mem_linesFrom hs.toPlaced axis _
  refine ⟨fun p k h => ((hmem p k).mp h).1, ?_, fun p k hid => ?_⟩
  · refine (ascending_linesFrom hs.toPlaced axis _).imp_of_mem fun {a b} ha _ hab =>
      ⟨hab.1, fun e => ?_⟩
    have hlt := ((hmem a.1 a.2).mp ha).2
    have hcoord := axis.coord_closed index a.1
    rw [← e, if_pos hlt] at hcoord
    omega
  · unfold Axis.closed
    simp only [hmem, hid, true_and]

theorem shifted_delete : Shifted s (axis.closed index)
    (s.shift axis (· - 1) (s.linesFrom axis (index + 1)).flatten) := by
  obtain ⟨hcells, horder, hσ⟩ := orderly_delete hs axis index
  exact shifted_shift hs hcells horder hσ

theorem follows_closingMoves {j : CellId} {c : Cell} (hc : s.cell? j = some c) :
    Position.Follows (axis.closed index) c.snapshot.keys (s.closingMoves axis index j) := by
  obtain ⟨hcells, horder, hσ⟩ := orderly_delete hs axis index
  exact follows_movesFor hs hcells horder hσ hc

/-- the removed cells are discarded one after the other, and then what has read them is dealt with -/
theorem exists_pruned_deleteLine {axis : Axis} {index : Nat}
    (h : s.deleteLine axis index = .ok t) : index < axis.count s ∧ ∃ v orphans seen,
      Discarded ((s.shift axis (· - 1) (s.linesFrom axis (index + 1)).flatten).closeLine axis index)
        (s.removedAt axis index) v ∧
      (∀ o, o ∈ orphans ↔ ∃ i ∈ s.removedAt axis index, s.Reads o i) ∧
      Pruned v seen t ∧ ∀ i, i ∈ seen ↔ v.Lost orphans i := by
  unfold deleteLine at h
  split_ifs at h with hindex
  have hindex' : index < axis.count s := Nat.lt_of_not_le hindex
  have hsh := shifted_delete hs axis index
  have hnd : (s.removedAt axis index).Nodup :=
    List.pairwise_map.mpr (pairwise_line hs.toPlaced axis index)
  obtain ⟨hd, ho⟩ := discarded_foldl hnd (numbered_closeLine (hsh.numbered hs.toNumbered) axis index)
    (fun i hi => discardable_removedAt hs hsh hi) []
  have hsev := severed_of_discarded hs hsh hindex' hd
  obtain ⟨seen, hu, hseen⟩ := exists_pruned_invalidateAll (hsev.heard hs)
    ((s.removedAt axis index).foldl (fun r id => r.1.discard r.2 id)
      ((s.shift axis (· - 1) (s.linesFrom axis (index + 1)).flatten).closeLine axis index, [])).2
  obtain rfl := Except.ok.inj h
  refine ⟨hindex', _, _, seen, hd, fun o => ?_, hu, hseen⟩
  refine (ho o).trans (.trans (or_iff_right List.not_mem_nil) ?_)
  refine exists_congr fun i => and_congr_right fun _ => ?_
  rw [← hsh.reads, Reads, Reads, cell?_closeLine]

theorem deleteLine_spec {axis : Axis} {index : Nat} (h : s.deleteLine axis index = .ok t) :
    t.Wired ∧ Shortened s axis index t := by
  obtain ⟨hindex, v, orphans, seen, hd, horphans, hu, hseen⟩ := exists_pruned_deleteLine hs h
  have hsev := severed_of_discarded hs (shifted_delete hs axis index) hindex hd
  exact ⟨wired_of_pruned hs hsev horphans hu hseen, shortened_of_pruned hs hsev horphans hu hseen⟩

end

end Sheet

end Worksheet
