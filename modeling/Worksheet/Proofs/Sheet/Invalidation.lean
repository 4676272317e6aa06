import Mathlib.Algebra.BigOperators.Fin
import Mathlib.Algebra.Order.BigOperators.Group.Finset
import Worksheet.Proofs.Sheet.Wiring

/-!
# Content that is lost

A cell that reads something which is gone loses its content, and so do all that read it, directly or
through others.  The numbers still to be looked at form a work list.

* `Sheet.Lost`         the cells that lose their content;
* `Sheet.Pruned`       a sheet after the cells in a list have been dealt with: they have no content
                       and are on no list of readers;
* `Sheet.Pruned.cons`  one more cell is dealt with;
* `Sheet.pending`      the entries of the lists of readers that can still come onto the work list;
* `Sheet.Underway`     the invariant of the work list;
* `Sheet.underway_invalidateFrom`
                       the steps suffice;
* `Sheet.exists_pruned_invalidateAll`
                       exactly the lost cells have been dealt with.
-/

namespace Worksheet

/-- a cell with another list of readers -/
def Cell.withObservers (c : Cell) (os : List CellId) : Cell := { c with observers := os }

namespace Sheet

/-- cells that read a cell of `start`, directly or through others, and those in `start` -/
def Lost (s : Sheet) (start : List CellId) (i : CellId) : Prop :=
  ∃ o ∈ start, Relation.ReflTransGen s.Reads i o

/-! ## cells that have been dealt with -/

structure Pruned (s : Sheet) (seen : List CellId) (t : Sheet) : Prop extends SameFrame s t where
  gone : ∀ {j}, s.cell? j = none → t.cell? j = none
  cell : ∀ {j d}, s.cell? j = some d → t.cell? j = some
    ((if j ∈ seen then d.invalidate else d).withObservers (d.observers.filter (· ∉ seen)))

theorem Pruned.nil (s : Sheet) : Pruned s [] s where
  toSameFrame := SameFrame.refl s
  gone h := h
  cell {j d} hd := by
    have e : d.observers.filter (· ∉ ([] : List CellId)) = d.observers :=
      List.filter_eq_self.mpr fun _ _ => by simp
    rw [hd, if_neg List.not_mem_nil, e]
    rfl

theorem Pruned.placed {s t : Sheet} {seen : List CellId} (h : Pruned s seen t) (hs : s.Placed) :
    t.Placed where
  rows_length := by rw [h.grid, h.width]; exact hs.rows_length
  vacant_nodup := by rw [h.vacant]; exact hs.vacant_nodup
  mem_vacant := by
    intro j
    rw [h.vacant, h.size, hs.mem_vacant]
    cases hd : s.cell? j with
    | none => rw [h.gone hd]
    | some d =>
      rw [h.cell hd]
      simp
  idAt?_iff := by
    intro p j
    have hpos : ∀ (d : Cell) (os : List CellId), ((if j ∈ seen then d.invalidate else d).withObservers
        os).position = d.position := fun d os => by split_ifs <;> rfl
    rw [h.idAt?, hs.idAt?_iff]
    cases hd : s.cell? j with
    | none => rw [h.gone hd]
    | some d =>
      rw [h.cell hd]
      simp [hpos]

/-- Every reader has the position of the cell among its keys. -/
structure Heard (s : Sheet) : Prop extends Placed s where
  key_of_mem : ∀ {i j c d}, s.cell? i = some c → s.cell? j = some d → i ∈ d.observers →
    d.position ∈ c.snapshot.keys
  live_of_mem : ∀ {i j d}, s.cell? j = some d → i ∈ d.observers → ∃ c, s.cell? i = some c

section
variable {s t : Sheet} (hs : s.Heard) {seen : List CellId} (h : Pruned s seen t) {id : CellId}
include hs h

theorem Pruned.cons_of_none (hid : s.cell? id = none) : Pruned s (id :: seen) t where
  toSameFrame := h.toSameFrame
  gone := h.gone
  cell {j d} hd := by
    have hj : j ≠ id := fun e => by
      rw [e, hid] at hd
      cases hd
    have e : d.observers.filter (· ∉ id :: seen) = d.observers.filter (· ∉ seen) := by
      refine List.filter_congr fun i hi => ?_
      have hi' : i ≠ id := fun e => by
        obtain ⟨c, hc⟩ := hs.live_of_mem hd hi
        rw [e, hid] at hc
        cases hc
      simp [hi']
    rw [h.cell hd, e]
    simp [hj]

theorem Pruned.cell?_detachAll {c : Cell} (hc : s.cell? id = some c) (hseen : id ∉ seen) {j : CellId}
    {d : Cell} (hd : s.cell? j = some d) : (t.detachAll id).cell? j = some
      ((if j = id then d.forget else if j ∈ seen then d.invalidate else d).withObservers
        (d.observers.filter (· ∉ id :: seen))) := by
  have hct : t.cell? id = some (c.withObservers (c.observers.filter (· ∉ seen))) := by
    rw [h.cell hc, if_neg hseen]
  have hfilter : (d.observers.filter (· ∉ seen)).filter (· ≠ id)
      = d.observers.filter (· ∉ id :: seen) := by
    rw [List.filter_filter]
    refine List.filter_congr fun i _ => ?_
    simp
  have hforget : ∀ os, (if j = id then
        ((if j ∈ seen then d.invalidate else d).withObservers os).forget
      else (if j ∈ seen then d.invalidate else d).withObservers os)
      = (if j = id then d.forget else if j ∈ seen then d.invalidate else d).withObservers os := by
    intro os
    by_cases hj : j = id
    · subst hj
      simp only [hseen, if_true, if_false]
      rfl
    · simp only [hj, if_false]
  rw [Sheet.cell?_detachAll hct, h.cell hd]
  show some (if ∃ p ∈ c.snapshot.keys, t.idAt? p = some j then Cell.detach _ id else _) = some _
  rw [hforget]
  by_cases hat : ∃ p ∈ c.snapshot.keys, t.idAt? p = some j
  · rw [if_pos hat, ← hfilter]
    rfl
  · have hnot : id ∉ d.observers := fun hi => hat
      ⟨_, hs.key_of_mem hc hd hi, h.idAt? _ ▸ hs.idAt?_position hd⟩
    have e : d.observers.filter (· ∉ seen) = d.observers.filter (· ∉ id :: seen) := by
      rw [← hfilter, eq_comm, List.filter_eq_self]
      intro i hi
      exact decide_eq_true fun e => hnot (e ▸ (List.mem_filter.mp hi).1)
    rw [if_neg hat, e]

/-- one more cell is taken off all lists and loses its content -/
theorem Pruned.cons {c : Cell} (hc : s.cell? id = some c) (hseen : id ∉ seen) :
    Pruned s (id :: seen) ((t.detachAll id).modify id Cell.invalidate) where
  toSameFrame := (h.toSameFrame.trans (sameFrame_detachAll t id)).trans (sameFrame_modify ..)
  gone {j} hj := by
    have hne : j ≠ id := fun e => by
      rw [e, hc] at hj
      cases hj
    have hct : t.cell? id = some (c.withObservers (c.observers.filter (· ∉ seen))) := by
      rw [h.cell hc, if_neg hseen]
    rw [cell?_modify_of_ne _ _ hne, Sheet.cell?_detachAll hct, h.gone hj]
    rfl
  cell {j d} hd := by
    rw [cell?_modify, h.cell?_detachAll hs hc hseen hd]
    by_cases hj : j = id
    · subst hj
      simp only [if_true, hseen, if_false, List.mem_cons, true_or]
      rfl
    · simp only [hj, if_false, List.mem_cons, false_or]

end

/-! ## the bound on the steps -/

/-- how many entries the lists of readers have together, apart from those of the cells in `seen` -/
def pending (s : Sheet) (seen : List CellId) : Nat :=
  ∑ j ∈ (Finset.range s.slots.size).filter (· ∉ seen), (s.cell? j).elim 0 (·.observers.length)

theorem pending_nil (s : Sheet) : s.pending [] = s.observerCount := by
  have e : (Finset.range s.slots.size).filter (· ∉ ([] : List CellId)) = Finset.range s.slots.size :=
    Finset.filter_true_of_mem fun _ _ => List.not_mem_nil
  rw [pending, e, observerCount, ← List.sum_eq_foldr, Finset.sum_range, ← Fin.sum_univ_getElem]
  refine Fintype.sum_equiv (finCongr (by simp)) _ _ fun j => ?_
  rw [cell?, Array.getElem?_eq_getElem j.isLt]
  simp only [List.getElem_map, Array.getElem_toList, finCongr_apply, Fin.val_cast]
  cases s.slots[(j : Nat)] <;> rfl

theorem pending_cons {s : Sheet} {seen : List CellId} {id : CellId} {c : Cell}
    (hc : s.cell? id = some c) (hseen : id ∉ seen) :
    c.observers.length + s.pending (id :: seen) = s.pending seen := by
  have hmem : id ∈ (Finset.range s.slots.size).filter (· ∉ seen) :=
    Finset.mem_filter.mpr ⟨Finset.mem_range.mpr (lt_size_of_cell? hc), hseen⟩
  have e : (Finset.range s.slots.size).filter (· ∉ id :: seen)
      = ((Finset.range s.slots.size).filter (· ∉ seen)).erase id := by
    ext j
    simp only [Finset.mem_filter, Finset.mem_erase, List.mem_cons, not_or]
    tauto
  rw [pending, pending, e, ← Finset.add_sum_erase _ _ hmem, hc]
  rfl

theorem pending_cons_le (s : Sheet) (seen : List CellId) (id : CellId) :
    s.pending (id :: seen) ≤ s.pending seen := by
  refine Finset.sum_le_sum_of_subset_of_nonneg (fun j hj => ?_) fun _ _ _ => Nat.zero_le _
  obtain ⟨hj1, hj2⟩ := Finset.mem_filter.mp hj
  exact Finset.mem_filter.mpr ⟨hj1, fun h => hj2 (List.mem_cons_of_mem _ h)⟩

/-! ## the work list -/

section
variable {s : Sheet} {id : CellId} {seen work : List CellId} (steps : Nat)

theorem invalidateFrom_of_mem (h : id ∈ seen) :
    invalidateFrom (steps + 1) seen (id :: work) s = invalidateFrom steps seen work s :=
  if_pos h

theorem invalidateFrom_of_none (h : id ∉ seen) (hc : s.cell? id = none) :
    invalidateFrom (steps + 1) seen (id :: work) s = invalidateFrom steps (id :: seen) work s := by
  have hd : s.detachAll id = s := by
    unfold detachAll
    rw [hc]
  rw [invalidateFrom, if_neg h, hd]
  simp only [hc]

theorem invalidateFrom_of_some (h : id ∉ seen) {c : Cell} (hc : (s.detachAll id).cell? id = some c) :
    invalidateFrom (steps + 1) seen (id :: work) s
      = invalidateFrom steps (id :: seen) (c.observers.reverse ++ work)
          ((s.detachAll id).modify id Cell.invalidate) := by
  rw [invalidateFrom, if_neg h]
  simp only [hc]

end

/-- the cells in `seen` have been dealt with, and all that are lost besides can be reached from
those in `work` -/
structure Underway (s : Sheet) (start seen work : List CellId) (t : Sheet) : Prop
    extends Pruned s seen t where
  closed : ∀ {i j}, s.Reads i j → j ∈ seen → i ∈ seen ∨ i ∈ work
  reached : ∀ o ∈ start, o ∈ seen ∨ o ∈ work
  lost : ∀ i, i ∈ seen ∨ i ∈ work → s.Lost start i

namespace Underway
variable {s t : Sheet} {start seen work : List CellId} {id : CellId}

theorem initial (s : Sheet) (start : List CellId) : Underway s start [] start.reverse s where
  toPruned := Pruned.nil s
  closed _ hj := absurd hj List.not_mem_nil
  reached _ ho := .inr (List.mem_reverse.mpr ho)
  lost i hi := ⟨i, List.mem_reverse.mp (hi.resolve_left List.not_mem_nil), .refl⟩

theorem skip (h : Underway s start seen (id :: work) t) (hid : id ∈ seen) :
    Underway s start seen work t := by
  have hmem : ∀ i, i ∈ seen ∨ i ∈ id :: work → i ∈ seen ∨ i ∈ work := fun i hi => by
    rcases hi with hi | hi
    · exact .inl hi
    · rcases List.mem_cons.mp hi with rfl | hi
      · exact .inl hid
      · exact .inr hi
  exact ⟨h.toPruned, fun hr hj => hmem _ (h.closed hr hj), fun o ho => hmem o (h.reached o ho),
    fun i hi => h.lost i (hi.imp_right (List.mem_cons_of_mem _))⟩

theorem mem_cons_or {i : CellId} (hi : i ∈ seen ∨ i ∈ id :: work) : i ∈ id :: seen ∨ i ∈ work := by
  rcases hi with hi | hi
  · exact .inl (List.mem_cons_of_mem _ hi)
  · rcases List.mem_cons.mp hi with rfl | hi
    · exact .inl (List.mem_cons_self ..)
    · exact .inr hi

variable (hs : s.Heard) (h : Underway s start seen (id :: work) t)
include hs h

theorem pass (hc : s.cell? id = none) : Underway s start (id :: seen) work t where
  toPruned := h.cons_of_none hs hc
  closed {i j} hr hj := by
    rcases List.mem_cons.mp hj with rfl | hj
    · obtain ⟨d, hd, _⟩ := hr
      rw [hc] at hd
      cases hd
    · exact mem_cons_or (h.closed hr hj)
  reached o ho := mem_cons_or (h.reached o ho)
  lost i hi := h.lost i (by
    rcases hi with hi | hi
    · exact (List.mem_cons.mp hi).elim (fun e => .inr (e ▸ List.mem_cons_self ..)) .inl
    · exact .inr (List.mem_cons_of_mem _ hi))

theorem take {c : Cell} (hc : s.cell? id = some c) (hid : id ∉ seen) :
    Underway s start (id :: seen) ((c.observers.filter (· ∉ id :: seen)).reverse ++ work)
      ((t.detachAll id).modify id Cell.invalidate) := by
  have hmem : ∀ i, i ∈ (c.observers.filter (· ∉ id :: seen)).reverse ++ work ↔
      (i ∈ c.observers ∧ i ∉ id :: seen) ∨ i ∈ work := fun i => by
    rw [List.mem_append, List.mem_reverse, List.mem_filter, decide_eq_true_eq]
  have hlost : s.Lost start id := h.lost id (.inr (List.mem_cons_self ..))
  refine ⟨h.cons hs hc hid, fun {i j} hr hj => ?_, fun o ho => ?_, fun i hi => ?_⟩
  · rw [hmem]
    by_cases hi : i ∈ id :: seen
    · exact .inl hi
    · rcases List.mem_cons.mp hj with rfl | hj
      · obtain ⟨d, hd, hi'⟩ := hr
        exact .inr (.inl ⟨Option.some.inj (hc.symm.trans hd) ▸ hi', hi⟩)
      · exact (mem_cons_or (h.closed hr hj)).imp_right .inr
  · rw [hmem]
    exact (mem_cons_or (h.reached o ho)).imp_right .inr
  · rw [hmem] at hi
    rcases hi with hi | hi | hi
    · exact (List.mem_cons.mp hi).elim (fun e => e ▸ hlost) fun hi => h.lost i (.inl hi)
    · obtain ⟨o, ho, hp⟩ := hlost
      exact ⟨o, ho, hp.head ⟨c, hc, hi.1⟩⟩
    · exact h.lost i (.inr (List.mem_cons_of_mem _ hi))

end Underway

/-- Each step takes a number off the work list, and puts only such on it as are no longer pending. -/
theorem underway_invalidateFrom {s : Sheet} (hs : s.Heard) {start : List CellId} (steps : Nat)
    {seen work : List CellId} {t : Sheet} (h : Underway s start seen work t)
    (hsteps : work.length + s.pending seen ≤ steps) :
    ∃ seen', Underway s start seen' [] (invalidateFrom steps seen work t) := by
  induction steps generalizing seen work t with
  | zero =>
    obtain rfl : work = [] := List.eq_nil_of_length_eq_zero (by omega)
    exact ⟨seen, h⟩
  | succ steps ih =>
    cases work with
    | nil => exact ⟨seen, h⟩
    | cons id work =>
      rw [List.length_cons] at hsteps
      by_cases hid : id ∈ seen
      · rw [invalidateFrom_of_mem steps hid]
        exact ih (h.skip hid) (by omega)
      · cases hc : s.cell? id with
        | none =>
          rw [invalidateFrom_of_none steps hid (h.gone hc)]
          have hle := s.pending_cons_le seen id
          exact ih (h.pass hs hc) (by omega)
        | some c =>
          rw [invalidateFrom_of_some steps hid (h.cell?_detachAll hs hc hid hc)]
          have heq := s.pending_cons hc hid
          have hle := List.length_filter_le (fun i => decide (i ∉ id :: seen)) c.observers
          refine ih (h.take hs hc hid) ?_
          show ((c.observers.filter (· ∉ id :: seen)).reverse ++ work).length + _ ≤ steps
          rw [List.length_append, List.length_reverse]
          omega

theorem exists_pruned_invalidateAll {s : Sheet} (hs : s.Heard) (start : List CellId) :
    ∃ seen, Pruned s seen (s.invalidateAll start) ∧ ∀ i, i ∈ seen ↔ s.Lost start i := by
  obtain ⟨seen, h⟩ := underway_invalidateFrom hs (start.length + s.observerCount)
    (Underway.initial s start) (by rw [List.length_reverse, pending_nil])
  refine ⟨seen, h.toPruned, fun i => ⟨fun hi => h.lost i (.inl hi), fun hi => ?_⟩⟩
  obtain ⟨o, ho, hp⟩ := hi
  have hclosed : ∀ {i j}, s.Reads i j → j ∈ seen → i ∈ seen := fun hr hj =>
    (h.closed hr hj).resolve_right List.not_mem_nil
  induction hp using Relation.ReflTransGen.head_induction_on with
  | refl => exact (h.reached o ho).resolve_right List.not_mem_nil
  | head hr _ ih => exact hclosed hr ih

end Sheet

end Worksheet
