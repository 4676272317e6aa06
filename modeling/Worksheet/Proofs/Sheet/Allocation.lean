import Worksheet.Proofs.Sheet.Wiring

/-!
# Numbers that are given out and given up

* `Sheet.Allocated`    cells are new at given positions, under numbers that no cell had;
* `Sheet.alloc_spec`, `Sheet.allocAll_spec`
                       the numbers given out, one or many;
* `Sheet.cell?_retire`, `Sheet.numbered_retire`
                       a number given up.

A number that was given up before is no exception: its new cell is empty.
-/

namespace Worksheet

namespace Sheet

structure Allocated (s : Sheet) (ps : List Position) (t : Sheet) (ids : List CellId) : Prop where
  grid : t.grid = s.grid
  width : t.width = s.width
  defaultColor : t.defaultColor = s.defaultColor
  numbered : t.Numbered
  length : ids.length = ps.length
  nodup : ids.Nodup
  fresh : ∀ id ∈ ids, s.cell? id = none
  cell : ∀ {k : Nat} {id}, ids[k]? = some id →
    ∃ p, ps[k]? = some p ∧ t.cell? id = some (Cell.blank p s.defaultColor)
  others : ∀ j, j ∉ ids → t.cell? j = s.cell? j

theorem cell?_setIfInBounds (s : Sheet) (id : CellId) (slot : Option Cell) (v : List CellId)
    (j : CellId) :
    Sheet.cell? { s with slots := s.slots.setIfInBounds id slot, vacant := v } j
      = if j = id ∧ id < s.slots.size then slot else s.cell? j := by
  show ((s.slots.setIfInBounds id slot)[j]?).join = _
  rw [Array.getElem?_setIfInBounds]
  by_cases h : j = id
  · subst h
    by_cases hlt : j < s.slots.size
    · rw [if_pos rfl, if_pos hlt, if_pos ⟨rfl, hlt⟩]
      rfl
    · rw [if_pos rfl, if_neg hlt, if_neg fun h => hlt h.2, cell?,
        Array.getElem?_eq_none (Nat.le_of_not_lt hlt)]
  · rw [if_neg (Ne.symm h), if_neg fun h' => h h'.1, cell?]

theorem cell?_push (s : Sheet) (slot : Option Cell) (j : CellId) :
    Sheet.cell? { s with slots := s.slots.push slot } j
      = if j = s.slots.size then slot else s.cell? j := by
  show ((s.slots.push slot)[j]?).join = _
  rw [Array.getElem?_push]
  split_ifs
  · rfl
  · rfl

theorem alloc_of_cons {s : Sheet} {id : CellId} {vacant : List CellId} (h : s.vacant = id :: vacant)
    (p : Position) : s.alloc p = ({ s with
      slots := s.slots.setIfInBounds id (some (Cell.blank p s.defaultColor))
      vacant := vacant }, id) := by
  unfold alloc
  rw [h]

theorem alloc_of_nil {s : Sheet} (h : s.vacant = []) (p : Position) :
    s.alloc p = ({ s with slots := s.slots.push (some (Cell.blank p s.defaultColor)) },
      s.slots.size) := by
  unfold alloc
  split
  · next h' => rw [h] at h'; cases h'
  · rfl

theorem alloc_spec {s : Sheet} (hs : s.Numbered) (p : Position) :
    Allocated s [p] (s.alloc p).1 [(s.alloc p).2] := by
  cases hv : s.vacant with
  | cons id vacant =>
    rw [alloc_of_cons hv]
    have hmem : id ∈ s.vacant := hv ▸ List.mem_cons_self ..
    obtain ⟨hlt, hnone⟩ := hs.mem_vacant.mp hmem
    have hnd := List.nodup_cons.mp (hv ▸ hs.vacant_nodup)
    refine ⟨rfl, rfl, rfl, ⟨hnd.2, fun {j} => ?_⟩, rfl, List.nodup_singleton _, ?_, ?_, ?_⟩
    · show j ∈ vacant ↔ j < (s.slots.setIfInBounds id _).size ∧ Sheet.cell? _ j = none
      rw [cell?_setIfInBounds, Array.size_setIfInBounds]
      by_cases hj : j = id
      · subst hj
        simp [hnd.1, hlt]
      · have hiff : j ∈ vacant ↔ j ∈ s.vacant := by rw [hv]; simp [hj]
        rw [if_neg fun h => hj h.1, hiff, hs.mem_vacant]
    · intro j hj
      rw [List.mem_singleton.mp hj, hnone]
    · intro k j hk
      cases k with
      | zero =>
        obtain rfl := Option.some.inj hk
        exact ⟨p, rfl, by rw [cell?_setIfInBounds, if_pos ⟨rfl, hlt⟩]⟩
      | succ k => cases hk
    · intro j hj
      rw [cell?_setIfInBounds, if_neg fun h => hj (List.mem_singleton.mpr h.1)]
  | nil =>
    rw [alloc_of_nil hv]
    have hnone : s.cell? s.slots.size = none := by
      rw [cell?, Array.getElem?_eq_none (Nat.le_refl _)]
      rfl
    refine ⟨rfl, rfl, rfl, ⟨hs.vacant_nodup, fun {j} => ?_⟩, rfl, List.nodup_singleton _, ?_, ?_, ?_⟩
    · show j ∈ s.vacant ↔ j < (s.slots.push _).size ∧ Sheet.cell? _ j = none
      rw [cell?_push, Array.size_push, hs.mem_vacant]
      by_cases hj : j = s.slots.size
      · subst hj
        simp
      · rw [if_neg hj, Nat.lt_succ_iff_lt_or_eq, or_iff_left hj]
    · intro j hj
      rw [List.mem_singleton.mp hj, hnone]
    · intro k j hk
      cases k with
      | zero =>
        obtain rfl := Option.some.inj hk
        exact ⟨p, rfl, by rw [cell?_push, if_pos rfl]⟩
      | succ k => cases hk
    · intro j hj
      rw [cell?_push, if_neg fun h => hj (List.mem_singleton.mpr h)]

theorem allocAll_spec {s : Sheet} (hs : s.Numbered) (ps : List Position) :
    Allocated s ps (s.allocAll ps).1 (s.allocAll ps).2 := by
  induction ps generalizing s with
  | nil =>
    exact ⟨rfl, rfl, rfl, hs, rfl, List.nodup_nil, fun _ h => absurd h List.not_mem_nil,
      fun h => (by cases h), fun _ _ => rfl⟩
  | cons p ps ih =>
    have h := alloc_spec hs p
    have h' := ih h.numbered
    show Allocated s (p :: ps) ((s.alloc p).1.allocAll ps).1
      ((s.alloc p).2 :: ((s.alloc p).1.allocAll ps).2)
    generalize s.alloc p = r at h h' ⊢
    generalize r.1.allocAll ps = r' at h' ⊢
    obtain ⟨_, hp, hlive⟩ := h.cell (List.getElem?_cons_zero ..)
    obtain rfl := Option.some.inj hp
    have hnot : r.2 ∉ r'.2 := fun hmem => by
      have := h'.fresh _ hmem
      rw [hlive] at this
      cases this
    refine ⟨h'.grid.trans h.grid, h'.width.trans h.width, h'.defaultColor.trans h.defaultColor,
      h'.numbered, congrArg (· + 1) h'.length, List.nodup_cons.mpr ⟨hnot, h'.nodup⟩, ?_, ?_, ?_⟩
    · intro j hj
      rcases List.mem_cons.mp hj with rfl | hj
      · exact h.fresh _ (List.mem_singleton.mpr rfl)
      · by_cases e : j = r.2
        · exact absurd hj (e ▸ hnot)
        · rw [← h.others j fun hm => e (List.mem_singleton.mp hm)]
          exact h'.fresh j hj
    · intro k j hk
      cases k with
      | zero =>
        obtain rfl := Option.some.inj hk
        exact ⟨_, rfl, by rw [h'.others _ hnot, hlive]⟩
      | succ k =>
        obtain ⟨q, hq, hcell⟩ := h'.cell hk
        exact ⟨q, hq, by rw [hcell, h.defaultColor]⟩
    · intro j hj
      have hj' := not_or.mp (fun h => hj (List.mem_cons.mpr h))
      rw [h'.others j hj'.2, h.others j fun hm => hj'.1 (List.mem_singleton.mp hm)]

/-! ## cells that are given up -/

theorem cell?_retire {s : Sheet} {id : CellId} {c : Cell} (hc : s.cell? id = some c) (j : CellId) :
    (s.retire id).cell? j = if j = id then none else s.cell? j := by
  unfold retire
  rw [hc]
  show Sheet.cell? { s with slots := _, vacant := _ } j = _
  rw [cell?_setIfInBounds]
  simp only [lt_size_of_cell? hc, and_true]

theorem numbered_retire {s : Sheet} (hs : s.Numbered) {id : CellId} {c : Cell}
    (hc : s.cell? id = some c) : (s.retire id).Numbered := by
  have hcell := cell?_retire hc
  have hvac : (s.retire id).vacant = id :: s.vacant := by
    unfold retire
    rw [hc]
  have hsize : (s.retire id).slots.size = s.slots.size := by
    unfold retire
    rw [hc]
    exact Array.size_setIfInBounds
  refine ⟨?_, fun {j} => ?_⟩
  · rw [hvac]
    refine List.nodup_cons.mpr ⟨fun hm => ?_, hs.vacant_nodup⟩
    rw [(hs.mem_vacant.mp hm).2] at hc
    cases hc
  · rw [hvac, hsize, hcell, List.mem_cons, hs.mem_vacant]
    by_cases hj : j = id
    · subst hj
      simp [lt_size_of_cell? hc]
    · simp [hj]

end Sheet

end Worksheet
