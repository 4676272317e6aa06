import Mathlib.Data.List.Nodup
import Worksheet.Proofs.Snapshot
import Worksheet.Sheet.Content
import Worksheet.Sheet.Lines

/-!
# The cells of a sheet after a change

Every change of a sheet is put together from changes of single cells.  Here the cell with each
number is computed from the one that had it before.

* `Sheet.cell?_modify`  after a change of one cell;
* `Sheet.cell?_foldl_modify`
                       after the same change of several cells;
* `Sheet.cell?_foldl_modifyAt`
                       after the same change of the cells at several positions;
* `Sheet.cell?_detachAll`, `Sheet.cell?_attachAll`
                       after a cell has ceased or begun to read others;
* `Sheet.get?_seed`    the values that a cell begins with;
* `Sheet.SameFrame`    two sheets with the same numbers at the same places, which are the same if
                       their cells are (`Sheet.eq_of_cell?`).
-/

namespace Worksheet

namespace Cell

/-- a cell that reads nothing any more -/
def forget (c : Cell) : Cell := { c with snapshot := ∅ }

theorem observers_detach (c : Cell) (id : CellId) :
    (c.detach id).observers = c.observers.filter (· ≠ id) := rfl

theorem detach_detach (c : Cell) (id : CellId) : (c.detach id).detach id = c.detach id := by
  show ({ c with observers := _ } : Cell) = { c with observers := _ }
  rw [observers_detach, List.filter_filter]
  simp only [Bool.and_self]

theorem mem_observers_detach {c : Cell} {id i : CellId} :
    i ∈ (c.detach id).observers ↔ i ∈ c.observers ∧ i ≠ id := by
  rw [observers_detach, List.mem_filter, decide_eq_true_eq]

theorem detach_of_notMem {c : Cell} {id : CellId} (h : id ∉ c.observers) : c.detach id = c := by
  have e : c.observers.filter (· ≠ id) = c.observers :=
    List.filter_eq_self.mpr fun i hi => decide_eq_true fun he => h (he ▸ hi)
  show ({ c with observers := c.observers.filter (· ≠ id) } : Cell) = c
  rw [e]

theorem attach_eq (c : Cell) (id : CellId) :
    c.attach id = { c with
      observers := if id ∈ c.observers then c.observers else c.observers ++ [id] } := by
  unfold attach
  split_ifs <;> rfl

theorem mem_observers_attach {c : Cell} {id i : CellId} :
    i ∈ (c.attach id).observers ↔ i ∈ c.observers ∨ i = id := by
  unfold attach
  split_ifs with h
  · exact ⟨.inl, fun hi => hi.elim (fun hi => hi) fun e => e ▸ h⟩
  · simp only [List.mem_append, List.mem_singleton]

theorem mem_observers_reattach {c : Cell} {id i : CellId} {P : Prop} [Decidable P] :
    i ∈ (if P then (c.detach id).attach id else c.detach id).observers
      ↔ if i = id then P else i ∈ c.observers := by
  by_cases hP : P
  · rw [if_pos hP, mem_observers_attach, mem_observers_detach]
    by_cases hi : i = id <;> simp [hi, hP]
  · rw [if_neg hP, mem_observers_detach]
    by_cases hi : i = id <;> simp [hi, hP]

theorem attach_of_mem {c : Cell} {id : CellId} (h : id ∈ c.observers) : c.attach id = c := if_pos h

theorem attach_attach (c : Cell) (id : CellId) : (c.attach id).attach id = c.attach id :=
  attach_of_mem (mem_observers_attach.mpr (.inr rfl))

theorem nodup_observers_attach {c : Cell} (id : CellId) (h : c.observers.Nodup) :
    (c.attach id).observers.Nodup := by
  unfold attach
  split_ifs with hi
  · exact h
  · exact List.nodup_append.mpr ⟨h, List.nodup_singleton _, fun a ha b hb => by
      rw [List.mem_singleton.mp hb]; exact fun e => hi (e ▸ ha)⟩

end Cell

namespace Sheet

/-! ## the frame of a sheet -/

/-- the same numbers stand at the same places, and the same are vacant -/
structure SameFrame (s t : Sheet) : Prop where
  grid : t.grid = s.grid
  width : t.width = s.width
  vacant : t.vacant = s.vacant
  defaultColor : t.defaultColor = s.defaultColor
  size : t.slots.size = s.slots.size

namespace SameFrame
variable {s t u : Sheet}

theorem refl (s : Sheet) : SameFrame s s := ⟨rfl, rfl, rfl, rfl, rfl⟩

theorem trans (h : SameFrame s t) (h' : SameFrame t u) : SameFrame s u :=
  ⟨h'.grid.trans h.grid, h'.width.trans h.width, h'.vacant.trans h.vacant,
    h'.defaultColor.trans h.defaultColor, h'.size.trans h.size⟩

theorem symm (h : SameFrame s t) : SameFrame t s :=
  ⟨h.grid.symm, h.width.symm, h.vacant.symm, h.defaultColor.symm, h.size.symm⟩

theorem idAt? (h : SameFrame s t) (p : Position) : t.idAt? p = s.idAt? p := by
  rw [Sheet.idAt?, Sheet.idAt?, h.grid]

theorem contains (h : SameFrame s t) (p : Position) : t.contains p = s.contains p := by
  rw [Sheet.contains, Sheet.contains, rows, rows, cols, cols, h.grid, h.width]

theorem count (h : SameFrame s t) (axis : Axis) : axis.count t = axis.count s := by
  cases axis
  · exact congrArg List.length h.grid
  · exact h.width

theorem foldl {α : Type} {f : Sheet → α → Sheet} (hf : ∀ s a, SameFrame s (f s a)) (as : List α)
    (s : Sheet) : SameFrame s (as.foldl f s) := by
  induction as generalizing s with
  | nil => exact refl s
  | cons a as ih => exact (hf s a).trans (ih (f s a))

end SameFrame

theorem sameFrame_modify (s : Sheet) (id : CellId) (f : Cell → Cell) :
    SameFrame s (s.modify id f) :=
  ⟨rfl, rfl, rfl, rfl, Array.size_modify⟩

/-! ## changed cells -/

theorem lt_size_of_cell? {s : Sheet} {id : CellId} {c : Cell} (h : s.cell? id = some c) :
    id < s.slots.size := by
  by_contra hlt
  rw [cell?, Array.getElem?_eq_none (Nat.le_of_not_lt hlt)] at h
  cases h

theorem cell?_modify (s : Sheet) (id : CellId) (f : Cell → Cell) (j : CellId) :
    (s.modify id f).cell? j = if j = id then (s.cell? j).map f else s.cell? j := by
  show ((s.slots.modify id (Option.map f))[j]?).join = _
  rw [Array.getElem?_modify]
  by_cases h : j = id
  · subst h
    rw [if_pos rfl, if_pos rfl, cell?]
    cases s.slots[j]? <;> rfl
  · rw [if_neg (Ne.symm h), if_neg h]
    rfl

theorem cell?_modify_self (s : Sheet) (id : CellId) (f : Cell → Cell) :
    (s.modify id f).cell? id = (s.cell? id).map f := by
  rw [cell?_modify, if_pos rfl]

theorem cell?_modify_of_ne (s : Sheet) {id j : CellId} (f : Cell → Cell) (h : j ≠ id) :
    (s.modify id f).cell? j = s.cell? j := by
  rw [cell?_modify, if_neg h]

/-- sheets with the same frame and the same cells are the same -/
theorem eq_of_cell? {s t : Sheet} (h : SameFrame s t) (hcell : ∀ j, t.cell? j = s.cell? j) :
    t = s := by
  have hslots : t.slots = s.slots := by
    refine Array.ext h.size fun j ht hs => ?_
    have hj := hcell j
    rwa [cell?, cell?, Array.getElem?_eq_getElem ht, Array.getElem?_eq_getElem hs] at hj
  obtain ⟨hgrid, hwidth, hvacant, hcolor, -⟩ := h
  cases s
  cases t
  cases hslots
  cases hgrid
  cases hwidth
  cases hvacant
  cases hcolor
  rfl

theorem modify_eq_self {s : Sheet} {id : CellId} {f : Cell → Cell}
    (h : ∀ c, s.cell? id = some c → f c = c) : s.modify id f = s := by
  refine eq_of_cell? (sameFrame_modify s id f) fun j => ?_
  rw [cell?_modify]
  split_ifs with hj
  · cases hc : s.cell? j with
    | none => rfl
    | some c => exact congrArg some (h c (hj ▸ hc))
  · rfl

theorem cell?_foldl_modify (f : Cell → Cell) {ids : List CellId} (h : ids.Nodup) (s : Sheet)
    (j : CellId) :
    (ids.foldl (fun s i => s.modify i f) s).cell? j
      = if j ∈ ids then (s.cell? j).map f else s.cell? j := by
  induction ids generalizing s with
  | nil => rfl
  | cons i ids ih =>
    have hnd := List.nodup_cons.mp h
    rw [List.foldl_cons, ih hnd.2, cell?_modify]
    by_cases e : j = i
    · subst e
      rw [if_neg hnd.1, if_pos rfl, if_pos (List.mem_cons_self ..)]
    · simp only [e, if_false, List.mem_cons, false_or]

/-- a change of the cell at a position, if there is one -/
def modifyAt (s : Sheet) (p : Position) (f : Cell → Cell) : Sheet :=
  match s.idAt? p with
  | some id => s.modify id f
  | none => s

theorem sameFrame_modifyAt (s : Sheet) (p : Position) (f : Cell → Cell) :
    SameFrame s (s.modifyAt p f) := by
  unfold modifyAt
  split
  · exact sameFrame_modify ..
  · exact SameFrame.refl s

theorem cell?_modifyAt (s : Sheet) (p : Position) (f : Cell → Cell) (j : CellId) :
    (s.modifyAt p f).cell? j = if s.idAt? p = some j then (s.cell? j).map f else s.cell? j := by
  unfold modifyAt
  cases h : s.idAt? p with
  | none => rfl
  | some id =>
    show (s.modify id f).cell? j = _
    rw [cell?_modify]
    simp only [Option.some.injEq, eq_comm]

/-- a change that has no further effect when it is made again -/
theorem cell?_foldl_modifyAt {f : Cell → Cell} (hf : ∀ c, f (f c) = f c) (ps : List Position)
    (s : Sheet) (j : CellId) :
    (ps.foldl (fun s p => s.modifyAt p f) s).cell? j
      = if ∃ p ∈ ps, s.idAt? p = some j then (s.cell? j).map f else s.cell? j := by
  induction ps generalizing s with
  | nil => rfl
  | cons p ps ih =>
    have hid : ∀ q, (s.modifyAt p f).idAt? q = s.idAt? q := (sameFrame_modifyAt s p f).idAt?
    rw [List.foldl_cons, ih, cell?_modifyAt]
    simp only [hid, List.mem_cons, exists_eq_or_imp]
    by_cases h : s.idAt? p = some j
    · simp only [h, if_true, true_or, Option.map_map, Function.comp_def, hf, ite_self]
    · simp only [h, if_false, false_or]

/-! ## reading and ceasing to read -/

theorem sameFrame_detachAll (s : Sheet) (id : CellId) : SameFrame s (s.detachAll id) := by
  unfold detachAll
  split
  · exact (sameFrame_modify ..).trans (SameFrame.foldl (fun s p => sameFrame_modifyAt s p _) _ _)
  · exact SameFrame.refl s

theorem sameFrame_attachAll (s : Sheet) (id : CellId) (ps : List Position) :
    SameFrame s (s.attachAll id ps) :=
  SameFrame.foldl (fun s p => sameFrame_modifyAt s p _) ps s

theorem cell?_detachAll {s : Sheet} {id : CellId} {c : Cell} (h : s.cell? id = some c)
    (j : CellId) :
    (s.detachAll id).cell? j = (s.cell? j).map fun d =>
      let d := if j = id then d.forget else d
      if ∃ p ∈ c.snapshot.keys, s.idAt? p = some j then d.detach id else d := by
  have e : s.detachAll id = c.snapshot.keys.foldl (fun s p => s.modifyAt p (·.detach id))
      (s.modify id Cell.forget) := by
    unfold detachAll; rw [h]; rfl
  rw [e, cell?_foldl_modifyAt (fun c => c.detach_detach id), cell?_modify]
  simp only [idAt?_modify]
  cases s.cell? j with
  | none => simp
  | some d => by_cases hj : j = id <;> simp only [hj, if_true, if_false, Option.map_some] <;>
      split_ifs <;> rfl

theorem cell?_attachAll (s : Sheet) (id : CellId) (ps : List Position) (j : CellId) :
    (s.attachAll id ps).cell? j
      = if ∃ p ∈ ps, s.idAt? p = some j then (s.cell? j).map (·.attach id) else s.cell? j :=
  cell?_foldl_modifyAt (fun c => c.attach_attach id) ps s j

theorem get?_seed (s : Sheet) (ps : List Position) (p : Position) :
    (s.seed ps).get? p = if p ∈ ps then s.shownAt? p else none := by
  have h : ∀ e ∈ ps.filterMap fun p => (s.shownAt? p).map fun v => (p, v),
      s.shownAt? e.1 = some e.2 := by
    intro e he
    obtain ⟨q, _, hq⟩ := List.mem_filterMap.mp he
    obtain ⟨v, hv, rfl⟩ := Option.map_eq_some_iff.mp hq
    exact hv
  rw [seed, Snapshot.get?_ofList s.shownAt? _ h]
  by_cases hp : p ∈ ps
  · rw [if_pos hp]
    cases hv : s.shownAt? p with
    | none => exact ite_self _
    | some v =>
      refine if_pos (List.mem_map.mpr ⟨(p, v), List.mem_filterMap.mpr ⟨p, hp, ?_⟩, rfl⟩)
      rw [hv]; rfl
  · rw [if_neg hp, if_neg]
    rintro hm
    obtain ⟨e, he, rfl⟩ := List.mem_map.mp hm
    obtain ⟨q, hq, hqe⟩ := List.mem_filterMap.mp he
    obtain ⟨v, _, rfl⟩ := Option.map_eq_some_iff.mp hqe
    exact hp hq

end Sheet

end Worksheet
