import Worksheet.Proofs.Sheet.Wiring

/-!
# Lines of a sheet

* `Axis.along`         a position with another coordinate along an axis;
* `Axis.opened`        where a position goes when a line is put in before it, and `Axis.closed`
                       when one is taken out;
* `Sheet.mem_linesFrom` the cells from a line on;
* `Sheet.ascending_linesFrom`, `Sheet.descending_linesFrom`
                       each of them is listed once, in the order of their lines.
-/

namespace Worksheet

namespace Axis

/-! ## coordinates -/

def cross : Axis → Axis
  | row => column
  | column => row

/-- a position whose coordinate changes by `f` -/
def along (axis : Axis) (f : Nat → Nat) (p : Position) : Position :=
  axis.withCoord p (f (axis.coord p))

theorem coord_along (axis : Axis) (f : Nat → Nat) (p : Position) :
    axis.coord (axis.along f p) = f (axis.coord p) :=
  coord_withCoord ..

theorem cross_along (axis : Axis) (f : Nat → Nat) (p : Position) :
    axis.cross.coord (axis.along f p) = axis.cross.coord p := by
  cases axis <;> rfl

theorem ext_coord (axis : Axis) {p q : Position} (h : axis.coord p = axis.coord q)
    (h' : axis.cross.coord p = axis.cross.coord q) : p = q := by
  obtain ⟨r, c⟩ := p
  obtain ⟨r', c'⟩ := q
  cases axis
  · rw [show r = r' from h, show c = c' from h']
  · rw [show c = c' from h, show r = r' from h']

theorem contains_iff (axis : Axis) {s : Sheet} {p : Position} :
    s.contains p = true ↔ axis.coord p < axis.count s ∧ axis.cross.coord p < axis.cross.count s := by
  rw [Sheet.contains, Bool.and_eq_true, decide_eq_true_eq, decide_eq_true_eq]
  cases axis
  · exact Iff.rfl
  · exact And.comm

/-! ## room for a line -/

/-- positions from `index` on make room -/
def opened (axis : Axis) (index : Nat) (p : Position) : Position :=
  if index ≤ axis.coord p then axis.along (· + 1) p else p

/-- positions behind `index` close up -/
def closed (axis : Axis) (index : Nat) (p : Position) : Position :=
  if index < axis.coord p then axis.along (· - 1) p else p

theorem coord_opened (axis : Axis) (index : Nat) (p : Position) :
    axis.coord (axis.opened index p) = if index ≤ axis.coord p then axis.coord p + 1
      else axis.coord p := by
  unfold opened
  split_ifs
  · exact coord_along ..
  · rfl

theorem coord_closed (axis : Axis) (index : Nat) (p : Position) :
    axis.coord (axis.closed index p) = if index < axis.coord p then axis.coord p - 1
      else axis.coord p := by
  unfold closed
  split_ifs
  · exact coord_along ..
  · rfl

theorem cross_opened (axis : Axis) (index : Nat) (p : Position) :
    axis.cross.coord (axis.opened index p) = axis.cross.coord p := by
  unfold opened
  split_ifs
  · exact cross_along ..
  · rfl

theorem cross_closed (axis : Axis) (index : Nat) (p : Position) :
    axis.cross.coord (axis.closed index p) = axis.cross.coord p := by
  unfold closed
  split_ifs
  · exact cross_along ..
  · rfl

theorem coord_opened_ne (axis : Axis) (index : Nat) (p : Position) :
    axis.coord (axis.opened index p) ≠ index := by
  rw [coord_opened]
  split_ifs <;> omega

theorem opened_injective (axis : Axis) (index : Nat) {p q : Position}
    (h : axis.opened index p = axis.opened index q) : p = q := by
  have hc := congrArg axis.coord h
  have hx := congrArg axis.cross.coord h
  rw [coord_opened, coord_opened] at hc
  rw [cross_opened, cross_opened] at hx
  refine ext_coord axis ?_ hx
  split_ifs at hc <;> omega

theorem opened_closed {axis : Axis} {index : Nat} {p : Position} (h : axis.coord p ≠ index) :
    axis.opened index (axis.closed index p) = p := by
  refine ext_coord axis ?_ ?_
  · rw [coord_opened, coord_closed]
    split_ifs <;> omega
  · rw [cross_opened, cross_closed]

/-- positions that are not on the line stay apart when it is taken out -/
theorem closed_injective {axis : Axis} {index : Nat} {p q : Position} (hp : axis.coord p ≠ index)
    (hq : axis.coord q ≠ index) (h : axis.closed index p = axis.closed index q) : p = q := by
  rw [← opened_closed hp, ← opened_closed hq, h]

theorem closed_opened (axis : Axis) (index : Nat) (p : Position) :
    axis.closed index (axis.opened index p) = p := by
  refine ext_coord axis ?_ ?_
  · rw [coord_closed, coord_opened]
    split_ifs <;> omega
  · rw [cross_closed, cross_opened]

/-! ### rows and columns -/

variable (axis : Axis) (index : Nat)

theorem row_opened (p : Position) : (axis.opened index p).row
    = if axis = .row ∧ index ≤ p.row then p.row + 1 else p.row := by
  cases axis with
  | row => exact (row.coord_opened index p).trans (if_congr ⟨fun h => ⟨rfl, h⟩, And.right⟩ rfl rfl)
  | column => exact (column.cross_opened index p).trans (if_neg fun h => nomatch h.1).symm

theorem col_opened (p : Position) : (axis.opened index p).col
    = if axis = .column ∧ index ≤ p.col then p.col + 1 else p.col := by
  cases axis with
  | row => exact (row.cross_opened index p).trans (if_neg fun h => nomatch h.1).symm
  | column => exact (column.coord_opened index p).trans (if_congr ⟨fun h => ⟨rfl, h⟩, And.right⟩ rfl rfl)

theorem opened_lt {p q : Position} (h : p < q) : axis.opened index p < axis.opened index q := by
  rw [Position.lt_def] at *
  cases axis <;> simp only [row_opened, col_opened, true_and, reduceCtorEq, false_and, if_false] <;>
    split_ifs <;> omega

theorem le_opened (p : Position) :
    p.row ≤ (axis.opened index p).row ∧ p.col ≤ (axis.opened index p).col := by
  rw [row_opened, col_opened]
  split_ifs <;> omega

theorem opened_of_lt {p : Position} (h : axis.coord p < index) : axis.opened index p = p :=
  if_neg (by omega)

end Axis

namespace Sheet

/-! ## the order of the cells -/

theorem nodup_places (s : Sheet) : s.places.Nodup := by
  have hidx : ∀ {α : Type} (l : List α), l.zipIdx.Nodup := fun l =>
    List.Nodup.of_map Prod.snd (by rw [List.zipIdx_map_snd]; exact List.nodup_range')
  refine List.nodup_flatMap.mpr ⟨fun row _ => ?_, (hidx s.grid).imp_of_mem ?_⟩
  · refine (hidx row.1).map_on fun a _ b _ h => ?_
    obtain ⟨h1, h2⟩ := Prod.mk.inj h
    exact Prod.ext h2 (Position.mk.inj h1).2
  · intro a b ha hb hab e hea heb
    obtain ⟨x, _, rfl⟩ := List.mem_map.mp hea
    obtain ⟨y, _, h⟩ := List.mem_map.mp heb
    have hrow : b.2 = a.2 := (Position.mk.inj (Prod.mk.inj h).1).1
    have ha' := List.mk_mem_zipIdx_iff_getElem?.mp ha
    have hb' := List.mk_mem_zipIdx_iff_getElem?.mp hb
    rw [hrow, ha'] at hb'
    exact hab (Prod.ext (Option.some.inj hb') hrow.symm)

theorem mem_line {s : Sheet} {axis : Axis} {n : Nat} {e : Position × CellId} :
    e ∈ s.line axis n ↔ s.idAt? e.1 = some e.2 ∧ axis.coord e.1 = n := by
  rw [line, List.mem_filter, mem_places, decide_eq_true_eq]

section
variable {s : Sheet} (hs : s.Placed) (axis : Axis) (index : Nat)
include hs

theorem coord_lt_of_idAt? {p : Position} {id : CellId} (h : s.idAt? p = some id) :
    axis.coord p < axis.count s := by
  have hp : s.contains p = true := by
    rw [← idAt?_isSome hs.rows_length, h]
    rfl
  exact (axis.contains_iff.mp hp).1

theorem mem_linesFrom {p : Position} {id : CellId} :
    (p, id) ∈ (s.linesFrom axis index).flatten ↔ s.idAt? p = some id ∧ index ≤ axis.coord p := by
  simp only [linesFrom, List.mem_flatten, List.mem_map, List.mem_range'_1, exists_exists_and_eq_and,
    mem_line]
  constructor
  · rintro ⟨n, hn, hid, rfl⟩
    exact ⟨hid, hn.1⟩
  · rintro ⟨hid, hle⟩
    have hlt := coord_lt_of_idAt? hs axis hid
    exact ⟨_, ⟨hle, by omega⟩, hid, rfl⟩

theorem eq_of_idAt? {p q : Position} {id : CellId} (hp : s.idAt? p = some id)
    (hq : s.idAt? q = some id) : p = q := by
  obtain ⟨c, hc, rfl⟩ := hs.idAt?_iff.mp hp
  obtain ⟨d, hd, rfl⟩ := hs.idAt?_iff.mp hq
  rw [Option.some.inj (hc.symm.trans hd)]

theorem pairwise_line (n : Nat) : (s.line axis n).Pairwise fun a b => a.2 ≠ b.2 := by
  refine (List.Nodup.filter _ (nodup_places s)).imp_of_mem fun {a b} ha hb hab e => hab ?_
  have ha' := mem_line.mp ha
  have hb' := mem_line.mp hb
  exact Prod.ext (eq_of_idAt? hs ha'.1 (e ▸ hb'.1)) e

theorem pairwise_linesFrom : (s.linesFrom axis index).Pairwise fun l l' =>
    ∀ a ∈ l, ∀ b ∈ l', a.2 ≠ b.2 ∧ axis.coord a.1 < axis.coord b.1 := by
  have hlt : (List.range' index (axis.count s - index)).Pairwise (· < ·) := List.pairwise_lt_range'
  refine List.pairwise_map.mpr (hlt.imp fun {n m} hnm a ha b hb => ?_)
  have ha' := mem_line.mp ha
  have hb' := mem_line.mp hb
  have hlt : axis.coord a.1 < axis.coord b.1 := by omega
  refine ⟨fun e => ?_, hlt⟩
  rw [eq_of_idAt? hs ha'.1 (e ▸ hb'.1)] at hlt
  exact Nat.lt_irrefl _ hlt

theorem ascending_linesFrom : (s.linesFrom axis index).flatten.Pairwise fun a b =>
    a.2 ≠ b.2 ∧ axis.coord a.1 ≤ axis.coord b.1 := by
  refine List.pairwise_flatten.mpr ⟨fun l hl => ?_, (pairwise_linesFrom hs axis index).imp
    fun h a ha b hb => ⟨(h a ha b hb).1, (h a ha b hb).2.le⟩⟩
  obtain ⟨n, _, rfl⟩ := List.mem_map.mp hl
  refine (pairwise_line hs axis n).imp_of_mem fun {a b} ha hb hab => ⟨hab, ?_⟩
  rw [(mem_line.mp ha).2, (mem_line.mp hb).2]

theorem descending_linesFrom : (s.linesFrom axis index).reverse.flatten.Pairwise fun a b =>
    a.2 ≠ b.2 ∧ axis.coord b.1 ≤ axis.coord a.1 := by
  refine List.pairwise_flatten.mpr ⟨fun l hl => ?_, List.pairwise_reverse.mpr
    ((pairwise_linesFrom hs axis index).imp
      fun h a ha b hb => ⟨((h b hb a ha).1).symm, (h b hb a ha).2.le⟩)⟩
  obtain ⟨n, _, rfl⟩ := List.mem_map.mp (List.mem_reverse.mp hl)
  refine (pairwise_line hs axis n).imp_of_mem fun {a b} ha hb hab => ⟨hab, ?_⟩
  rw [(mem_line.mp ha).2, (mem_line.mp hb).2]

end

end Sheet

end Worksheet
