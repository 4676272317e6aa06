import Worksheet.Proofs.Sheet.Allocation
import Worksheet.Proofs.Sheet.Invalidation

/-!
# Cells that are no longer in the grid

* `Sheet.Discardable`  a cell that is not in the grid any more, but may still be listed as a reader;
* `Sheet.Discarded`    the cells in a list are gone, and on no list of readers;
* `Sheet.discarded_foldl` one discardable cell after the other is discarded.
-/

namespace Worksheet

namespace Sheet

/-- the cells in `ids`, of which none is in the grid, are gone -/
structure Discarded (s : Sheet) (ids : List CellId) (t : Sheet) : Prop where
  grid : t.grid = s.grid
  width : t.width = s.width
  numbered : t.Numbered
  gone : ∀ {j}, s.cell? j = none ∨ j ∈ ids → t.cell? j = none
  cell : ∀ {p j d}, s.idAt? p = some j → s.cell? j = some d →
    t.cell? j = some (d.withObservers (d.observers.filter (· ∉ ids)))
  other : ∀ {j}, (∀ p, s.idAt? p ≠ some j) → j ∉ ids → t.cell? j = s.cell? j

/-- The cell `i` is not in the grid, and has the position of each cell that lists it. -/
structure Discardable (s : Sheet) (i : CellId) : Prop where
  live : ∃ c, s.cell? i = some c
  outside : ∀ p, s.idAt? p ≠ some i
  points : ∀ {c p j d}, s.cell? i = some c → s.idAt? p = some j → s.cell? j = some d →
    i ∈ d.observers → ∃ q ∈ c.snapshot.keys, s.idAt? q = some j

theorem idAt?_congr {s t : Sheet} (h : t.grid = s.grid) (p : Position) : t.idAt? p = s.idAt? p := by
  rw [idAt?, idAt?, h]

theorem Discarded.nil {s : Sheet} (hs : s.Numbered) : Discarded s [] s := by
  refine ⟨rfl, rfl, hs, fun h => h.resolve_right List.not_mem_nil, fun {p j d} _ hd => ?_,
    fun _ _ => rfl⟩
  have e : d.observers.filter (· ∉ ([] : List CellId)) = d.observers :=
    List.filter_eq_self.mpr fun _ _ => by simp
  rw [hd, e]
  rfl

theorem Discarded.cons {s t u : Sheet} {id : CellId} {ids : List CellId} (h : Discarded s [id] t)
    (h' : Discarded t ids u) : Discarded s (id :: ids) u where
  grid := h'.grid.trans h.grid
  width := h'.width.trans h.width
  numbered := h'.numbered
  gone {j} hj := by
    refine h'.gone ?_
    rcases hj with hj | hj
    · exact .inl (h.gone (.inl hj))
    · exact (List.mem_cons.mp hj).imp (fun e => h.gone (.inr (List.mem_singleton.mpr e))) fun hj => hj
  cell {p j d} hp hd := by
    rw [h'.cell (idAt?_congr h.grid p ▸ hp) (h.cell hp hd)]
    have e : (d.observers.filter (· ∉ [id])).filter (· ∉ ids) = d.observers.filter (· ∉ id :: ids) := by
      rw [List.filter_filter]
      refine List.filter_congr fun i _ => ?_
      simp [Bool.and_comm]
    exact congrArg (fun os => some (d.withObservers os)) e
  other {j} hj hids := by
    rw [h'.other (fun p => idAt?_congr h.grid p ▸ hj p) fun hm => hids (List.mem_cons_of_mem _ hm),
      h.other hj fun hm => hids (List.mem_singleton.mp hm ▸ List.mem_cons_self ..)]

section
variable {s : Sheet} {id : CellId} {c : Cell} (hid : s.Discardable id) (hc : s.cell? id = some c)
include hid hc

theorem cell?_detachAll_of_discardable (j : CellId) : (s.detachAll id).cell? j
    = if j = id then some c.forget else
      (s.cell? j).map fun d => if ∃ p ∈ c.snapshot.keys, s.idAt? p = some j then d.detach id else d := by
  rw [cell?_detachAll hc]
  by_cases hj : j = id
  · subst hj
    have hat : ¬∃ p ∈ c.snapshot.keys, s.idAt? p = some j := fun ⟨q, _, hq⟩ => hid.outside q hq
    rw [if_pos rfl, hc]
    simp only [Option.map_some, if_true, hat, if_false]
  · simp only [hj, if_false]

theorem discarded_discard (hs : s.Numbered) (orphans : List CellId) :
    Discarded s [id] (s.discard orphans id).1 ∧ (s.discard orphans id).2 = orphans ++ c.observers := by
  have hcell := cell?_detachAll_of_discardable hid hc
  have hframe := sameFrame_detachAll s id
  have hlive : (s.detachAll id).cell? id = some c.forget := (hcell id).trans (if_pos rfl)
  have hnum : (s.detachAll id).Numbered := by
    refine ⟨hframe.vacant ▸ hs.vacant_nodup, fun {j} => ?_⟩
    rw [hframe.vacant, hframe.size, hcell, hs.mem_vacant]
    by_cases hj : j = id
    · rw [hj, if_pos rfl, hc]
      simp
    · rw [if_neg hj, Option.map_eq_none_iff]
  have hdrop : ∀ j, (s.discard orphans id).1.cell? j
      = if j = id then none else (s.detachAll id).cell? j := cell?_retire hlive
  have hgrid : ∀ t : Sheet, (t.retire id).grid = t.grid ∧ (t.retire id).width = t.width := fun t => by
    unfold retire
    split <;> exact ⟨rfl, rfl⟩
  refine ⟨⟨(hgrid _).1.trans hframe.grid, (hgrid _).2.trans hframe.width,
    numbered_retire hnum hlive, fun {j} hj => ?_, fun {p j d} hp hd => ?_, fun {j} hj hne => ?_⟩, ?_⟩
  · rw [hdrop]
    split_ifs with e
    · rfl
    · have hnone := hj.resolve_right fun hm => e (List.mem_singleton.mp hm)
      rw [hcell, if_neg e, hnone]
      rfl
  · have e : j ≠ id := fun e => hid.outside p (e ▸ hp)
    rw [hdrop, if_neg e, hcell, if_neg e, hd]
    have hfilter : d.observers.filter (· ≠ id) = d.observers.filter (· ∉ [id]) :=
      List.filter_congr fun i _ => by simp
    by_cases hat : ∃ q ∈ c.snapshot.keys, s.idAt? q = some j
    · simp only [Option.map_some, hat, if_true]
      exact congrArg (fun os => some (d.withObservers os)) hfilter
    · have hnot : id ∉ d.observers := fun hi => hat (hid.points hc hp hd hi)
      simp only [Option.map_some, hat, if_false]
      rw [← hfilter, show d.observers.filter (· ≠ id) = d.observers from
        congrArg Cell.observers (Cell.detach_of_notMem hnot)]
      rfl
  · have e : j ≠ id := fun e => hne (List.mem_singleton.mpr e)
    have hat : ¬∃ p ∈ c.snapshot.keys, s.idAt? p = some j := fun ⟨q, _, hq⟩ => hj q hq
    rw [hdrop, if_neg e, hcell, if_neg e]
    simp only [hat, if_false, Option.map_id']
  · show orphans ++ ((s.detachAll id).cell? id).elim [] Cell.observers = _
    rw [hlive]
    rfl

end

theorem Discardable.of_discarded {s t : Sheet} {i id : CellId} (hi : s.Discardable i)
    (h : Discarded s [id] t) (hne : i ≠ id) : t.Discardable i := by
  have hcell : t.cell? i = s.cell? i := h.other hi.outside fun hm => hne (List.mem_singleton.mp hm)
  refine ⟨hcell ▸ hi.live, fun p => idAt?_congr h.grid p ▸ hi.outside p,
    fun {c p j d} hc hp hd hmem => ?_⟩
  rw [hcell] at hc
  rw [idAt?_congr h.grid] at hp
  cases hd' : s.cell? j with
  | none =>
    rw [h.gone (.inl hd')] at hd
    cases hd
  | some d' =>
    rw [h.cell hp hd'] at hd
    rw [← Option.some.inj hd] at hmem
    obtain ⟨q, hq, hqj⟩ := hi.points hc hp hd' (List.mem_filter.mp hmem).1
    exact ⟨q, hq, idAt?_congr h.grid q ▸ hqj⟩

theorem discarded_foldl {ids : List CellId} (hnd : ids.Nodup) {s : Sheet} (hs : s.Numbered)
    (hids : ∀ i ∈ ids, s.Discardable i) (orphans : List CellId) :
    Discarded s ids (ids.foldl (fun r id => r.1.discard r.2 id) (s, orphans)).1 ∧
      ∀ o, o ∈ (ids.foldl (fun r id => r.1.discard r.2 id) (s, orphans)).2 ↔
        o ∈ orphans ∨ ∃ i ∈ ids, s.Reads o i := by
  induction ids generalizing s orphans with
  | nil => exact ⟨Discarded.nil hs, fun o => by simp⟩
  | cons id ids ih =>
    obtain ⟨hnot, hnd'⟩ := List.nodup_cons.mp hnd
    have hid := hids id (List.mem_cons_self ..)
    obtain ⟨c, hc⟩ := hid.live
    obtain ⟨h, ho⟩ := discarded_discard hid hc hs orphans
    have hne : ∀ i ∈ ids, i ≠ id := fun i hi e => hnot (e ▸ hi)
    obtain ⟨h', ho'⟩ := ih hnd' h.numbered (fun i hi =>
      (hids i (List.mem_cons_of_mem _ hi)).of_discarded h (hne i hi)) (s.discard orphans id).2
    refine ⟨h.cons h', fun o => (ho' o).trans ?_⟩
    have hreads : ∀ i ∈ ids, (s.discard orphans id).1.Reads o i ↔ s.Reads o i := fun i hi => by
      unfold Reads
      rw [h.other (hids i (List.mem_cons_of_mem _ hi)).outside
        fun hm => hne i hi (List.mem_singleton.mp hm)]
    have hself : s.Reads o id ↔ o ∈ c.observers :=
      ⟨fun ⟨d, hd, hi⟩ => Option.some.inj (hc.symm.trans hd) ▸ hi, fun hi => ⟨c, hc, hi⟩⟩
    rw [ho, List.mem_append, or_assoc, ← hself]
    refine or_congr_right ?_
    simp only [List.mem_cons, exists_eq_or_imp]
    exact or_congr_right (exists_congr fun i => and_congr_right fun hi => hreads i hi)

end Sheet

end Worksheet
