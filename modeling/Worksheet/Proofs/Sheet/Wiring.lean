import Mathlib.Data.Finset.Card
import Mathlib.Data.Finset.Range
import Mathlib.Logic.Relation
import Worksheet.Proofs.Sheet.Cells

/-!
# The wiring of a sheet

A cell knows the positions it reads and the numbers of the cells that read it, and the grid knows
which number stands where.  These belong together:

* `Sheet.Numbered`     the numbers without a cell are the vacant ones, each listed once;
* `Sheet.Placed`       besides, the grid is a rectangle, and each number in it has a cell that knows
                       its place;
* `Sheet.Mirrored`     a cell reads a position exactly if the cell there lists it as a reader;
* `Sheet.Reads`        one cell reads another, by their numbers;
* `Sheet.Acyclic`      no cell reads itself, directly or through others;
* `Sheet.Wired`        placed, mirrored and acyclic;
* `Sheet.Alike`        two sheets that differ at most in the values seen and shown, of which both
                       are wired if one is (`Sheet.Alike.wired`);
* `Sheet.dependents`   the cells that read a cell, directly or through others, of which a reader has
                       fewer (`Sheet.card_dependents_lt`);
* `Sheet.induction_reads` what is true of a cell if it is true of all that it reads is true of all.
-/

namespace Worksheet

/-! ## what a cell is apart from values -/

structure Outline where
  position : Position
  raw : Text
  color : Text
  keys : List Position
  observers : List CellId

def Cell.outline (c : Cell) : Outline := ⟨c.position, c.raw, c.color, c.snapshot.keys, c.observers⟩

namespace Sheet

/-- two sheets that differ at most in the values that their cells have seen and show -/
structure Alike (s t : Sheet) : Prop extends SameFrame s t where
  outline : ∀ id, (t.cell? id).map Cell.outline = (s.cell? id).map Cell.outline

namespace Alike
variable {s t u : Sheet}

theorem refl (s : Sheet) : Alike s s := ⟨SameFrame.refl s, fun _ => rfl⟩

theorem trans (h : Alike s t) (h' : Alike t u) : Alike s u :=
  ⟨h.toSameFrame.trans h'.toSameFrame, fun id => (h'.outline id).trans (h.outline id)⟩

theorem symm (h : Alike s t) : Alike t s :=
  ⟨h.toSameFrame.symm, fun id => (h.outline id).symm⟩

theorem cell (h : Alike s t) {id : CellId} {d : Cell} (hd : t.cell? id = some d) :
    ∃ c, s.cell? id = some c ∧ c.outline = d.outline := by
  have e := h.outline id
  rw [hd] at e
  exact Option.map_eq_some_iff.mp e.symm

end Alike

/-- a change of values alone -/
theorem alike_modify {s : Sheet} {id : CellId} {f : Cell → Cell}
    (hf : ∀ c, s.cell? id = some c → (f c).outline = c.outline) : Alike s (s.modify id f) := by
  refine ⟨sameFrame_modify s id f, fun j => ?_⟩
  by_cases h : j = id
  · subst h
    rw [cell?_modify_self]
    cases hc : s.cell? j with
    | none => rfl
    | some c => exact congrArg some (hf c hc)
  · rw [cell?_modify_of_ne s f h]

/-! ## cells in their places -/

structure Numbered (s : Sheet) : Prop where
  vacant_nodup : s.vacant.Nodup
  mem_vacant : ∀ {id}, id ∈ s.vacant ↔ id < s.slots.size ∧ s.cell? id = none

structure Placed (s : Sheet) : Prop extends Numbered s where
  rows_length : ∀ ids ∈ s.grid, ids.length = s.width
  idAt?_iff : ∀ {p id}, s.idAt? p = some id ↔ ∃ c, s.cell? id = some c ∧ c.position = p

theorem idAt?_isSome {s : Sheet} (h : ∀ ids ∈ s.grid, ids.length = s.width) (p : Position) :
    (s.idAt? p).isSome = s.contains p := by
  rw [idAt?, contains, rows, cols]
  by_cases hr : p.row < s.grid.length
  · rw [List.getElem?_eq_getElem hr, decide_eq_true hr, Bool.true_and]
    show (s.grid[p.row][p.col]?).isSome = _
    have e := h _ (List.getElem_mem hr)
    by_cases hc : p.col < s.width
    · rw [List.getElem?_eq_getElem (e ▸ hc), decide_eq_true hc]
      rfl
    · rw [List.getElem?_eq_none (e ▸ Nat.le_of_not_lt hc), decide_eq_false hc]
      rfl
  · rw [List.getElem?_eq_none (Nat.le_of_not_lt hr), decide_eq_false hr]
    rfl

namespace Placed
variable {s : Sheet}

theorem idAt?_position (h : Placed s) {id : CellId} {c : Cell} (hc : s.cell? id = some c) :
    s.idAt? c.position = some id :=
  h.idAt?_iff.mpr ⟨c, hc, rfl⟩

/-- one of the positions is that of the cell -/
theorem exists_idAt?_iff (h : Placed s) {id : CellId} {c : Cell} (hc : s.cell? id = some c)
    {ps : List Position} : (∃ p ∈ ps, s.idAt? p = some id) ↔ c.position ∈ ps := by
  constructor
  · rintro ⟨p, hp, hid⟩
    obtain ⟨d, hd, rfl⟩ := h.idAt?_iff.mp hid
    exact Option.some.inj (hc.symm.trans hd) ▸ hp
  · exact fun hp => ⟨_, hp, h.idAt?_position hc⟩

theorem eq_of_position (h : Placed s) {i j : CellId} {c d : Cell} (hc : s.cell? i = some c)
    (hd : s.cell? j = some d) (e : c.position = d.position) : i = j := by
  have hi := h.idAt?_position hc
  rw [e, h.idAt?_position hd] at hi
  exact (Option.some.inj hi).symm

theorem exists_of_contains (h : Placed s) {p : Position} (hp : s.contains p = true) :
    ∃ id c, s.idAt? p = some id ∧ s.cell? id = some c ∧ c.position = p := by
  rw [← idAt?_isSome h.rows_length] at hp
  obtain ⟨id, hid⟩ := Option.isSome_iff_exists.mp hp
  obtain ⟨c, hc, e⟩ := h.idAt?_iff.mp hid
  exact ⟨id, c, hid, hc, e⟩

theorem cellAt?_position (h : Placed s) {id : CellId} {c : Cell} (hc : s.cell? id = some c) :
    s.cellAt? c.position = some c := by
  rw [cellAt?, h.idAt?_position hc]
  exact hc

theorem cellAt?_eq_some (h : Placed s) {p : Position} {c : Cell} :
    s.cellAt? p = some c ↔ ∃ id, s.cell? id = some c ∧ c.position = p := by
  refine ⟨fun hc => ?_, fun ⟨id, hc, e⟩ => e ▸ h.cellAt?_position hc⟩
  obtain ⟨id, hid, hc⟩ := Option.bind_eq_some_iff.mp hc
  obtain ⟨d, hd, e⟩ := h.idAt?_iff.mp hid
  rw [hd] at hc
  exact ⟨id, hc ▸ hd, Option.some.inj hc ▸ e⟩

end Placed

/-! ## positions read and readers -/

structure Mirrored (s : Sheet) : Prop where
  mem_keys_iff : ∀ {i j c d}, s.cell? i = some c → s.cell? j = some d →
    (d.position ∈ c.snapshot.keys ↔ i ∈ d.observers)
  key_inside : ∀ {i c q}, s.cell? i = some c → q ∈ c.snapshot.keys → s.contains q = true
  observer_live : ∀ {i j d}, s.cell? j = some d → i ∈ d.observers → ∃ c, s.cell? i = some c
  observers_nodup : ∀ {j d}, s.cell? j = some d → d.observers.Nodup

/-- the cell `i` reads the cell `j` -/
def Reads (s : Sheet) (i j : CellId) : Prop := ∃ d, s.cell? j = some d ∧ i ∈ d.observers

instance (s : Sheet) (i j : CellId) : Decidable (s.Reads i j) :=
  match h : s.cell? j with
  | some d => decidable_of_iff (i ∈ d.observers) (by simp [Reads, h])
  | none => .isFalse (by simp [Reads, h])

/-- the cell `i` reads the cell `j`, directly or through others -/
abbrev ReadsOn (s : Sheet) : CellId → CellId → Prop := Relation.TransGen s.Reads

def Acyclic (s : Sheet) : Prop := ∀ i, ¬s.ReadsOn i i

structure Wired (s : Sheet) : Prop extends Placed s, Mirrored s where
  acyclic : s.Acyclic

theorem Reads.congr {s t : Sheet} (h : Alike s t) {i j : CellId} (hr : t.Reads i j) :
    s.Reads i j := by
  obtain ⟨d, hd, hi⟩ := hr
  obtain ⟨c, hc, e⟩ := h.cell hd
  have eo : c.observers = d.observers := congrArg Outline.observers e
  exact ⟨c, hc, eo ▸ hi⟩

theorem Alike.reads {s t : Sheet} (h : Alike s t) : t.Reads = s.Reads := by
  funext i j
  exact propext ⟨fun hr => hr.congr h, fun hr => hr.congr h.symm⟩

theorem Alike.placed {s t : Sheet} (h : Alike s t) (hs : s.Placed) : t.Placed where
  rows_length := by rw [h.grid, h.width]; exact hs.rows_length
  idAt?_iff := by
    intro p id
    rw [h.idAt?, hs.idAt?_iff]
    constructor
    · rintro ⟨c, hc, rfl⟩
      obtain ⟨d, hd, e⟩ := h.symm.cell hc
      exact ⟨d, hd, congrArg Outline.position e⟩
    · rintro ⟨d, hd, rfl⟩
      obtain ⟨c, hc, e⟩ := h.cell hd
      exact ⟨c, hc, congrArg Outline.position e⟩
  vacant_nodup := by rw [h.vacant]; exact hs.vacant_nodup
  mem_vacant := by
    intro id
    rw [h.vacant, h.size, hs.mem_vacant]
    have e := h.outline id
    cases hs : s.cell? id <;> cases ht : t.cell? id <;> simp_all

theorem Alike.mirrored {s t : Sheet} (h : Alike s t) (hs : s.Mirrored) : t.Mirrored where
  mem_keys_iff := by
    intro i j c d hc hd
    obtain ⟨c', hc', e⟩ := h.cell hc
    obtain ⟨d', hd', e'⟩ := h.cell hd
    have h1 : c'.snapshot.keys = c.snapshot.keys := congrArg Outline.keys e
    have h2 : d'.position = d.position := congrArg Outline.position e'
    have h3 : d'.observers = d.observers := congrArg Outline.observers e'
    rw [← h1, ← h2, ← h3]
    exact hs.mem_keys_iff hc' hd'
  key_inside := by
    intro i c q hc hq
    obtain ⟨c', hc', e⟩ := h.cell hc
    have h1 : c'.snapshot.keys = c.snapshot.keys := congrArg Outline.keys e
    rw [h.contains]
    exact hs.key_inside hc' (h1 ▸ hq)
  observer_live := by
    intro i j d hd hi
    obtain ⟨c, hc⟩ := (Reads.congr h ⟨d, hd, hi⟩).elim fun d' hd' => hs.observer_live hd'.1 hd'.2
    exact (h.symm.cell hc).imp fun _ he => he.1
  observers_nodup := by
    intro j d hd
    obtain ⟨d', hd', e⟩ := h.cell hd
    have h1 : d'.observers = d.observers := congrArg Outline.observers e
    exact h1 ▸ hs.observers_nodup hd'

theorem Alike.wired {s t : Sheet} (h : Alike s t) (hs : s.Wired) : t.Wired where
  toPlaced := h.placed hs.toPlaced
  toMirrored := h.mirrored hs.toMirrored
  acyclic := by
    unfold Acyclic ReadsOn
    rw [h.reads]
    exact hs.acyclic

namespace Wired
variable {s : Sheet}

theorem live_of_reads (hs : s.Wired) {i j : CellId} (h : s.Reads i j) : ∃ c, s.cell? i = some c :=
  h.elim fun _ hd => hs.observer_live hd.1 hd.2

theorem live_of_readsOn (hs : s.Wired) {i j : CellId} (h : s.ReadsOn i j) :
    ∃ c, s.cell? i = some c := by
  obtain ⟨k, hik, _⟩ := Relation.TransGen.head'_iff.mp h
  exact hs.live_of_reads hik

/-- the position of a cell is read by exactly its readers -/
theorem reads_iff (hs : s.Wired) {i j : CellId} {c d : Cell} (hc : s.cell? i = some c)
    (hd : s.cell? j = some d) : s.Reads i j ↔ d.position ∈ c.snapshot.keys := by
  rw [hs.mem_keys_iff hc hd]
  refine ⟨fun ⟨d', hd', hi⟩ => ?_, fun hi => ⟨d, hd, hi⟩⟩
  rw [hd] at hd'
  exact Option.some.inj hd' ▸ hi

theorem ne_of_reads (hs : s.Wired) {i j : CellId} (h : s.Reads i j) : i ≠ j := fun e =>
  hs.acyclic i (.single (e ▸ h))

end Wired

/-! ## new edges -/

/-- Edges from `a` to nodes from which `a` cannot be reached close no cycle. -/
theorem not_transGen_self {α : Type} {r r' : α → α → Prop} {a : α} {T : α → Prop}
    (hr : ∀ i, ¬Relation.TransGen r i i) (hT : ∀ x, T x → ¬Relation.ReflTransGen r x a)
    (h : ∀ i j, r' i j → r i j ∨ i = a ∧ T j) (i : α) : ¬Relation.TransGen r' i i := by
  -- a path that starts beyond a new edge never comes back to `a`, so it is an old one
  have old : ∀ x, T x → ∀ k, Relation.ReflTransGen r' x k → Relation.ReflTransGen r x k := by
    intro x hx k hk
    induction hk with
    | refl => exact .refl
    | tail _ hbc ih =>
      rcases h _ _ hbc with hbc | ⟨rfl, _⟩
      · exact ih.tail hbc
      · exact absurd ih (hT x hx)
  have cut : ∀ k, Relation.TransGen r' i k →
      Relation.TransGen r i k ∨ Relation.ReflTransGen r' i a ∧ ∃ x, T x ∧
        Relation.ReflTransGen r' x k := by
    intro k hk
    induction hk with
    | single hik =>
      rcases h _ _ hik with hik | ⟨rfl, hx⟩
      · exact .inl (.single hik)
      · exact .inr ⟨.refl, _, hx, .refl⟩
    | tail hib hbc ih =>
      rcases ih with ih | ⟨ha, x, hx, hxb⟩
      · rcases h _ _ hbc with hbc | ⟨rfl, hx⟩
        · exact .inl (ih.tail hbc)
        · exact .inr ⟨hib.to_reflTransGen, _, hx, .refl⟩
      · exact .inr ⟨ha, x, hx, hxb.tail hbc⟩
  intro hi
  rcases cut i hi with hi | ⟨ha, x, hx, hxi⟩
  · exact hr i hi
  · exact hT x hx (old x hx a (hxi.trans ha))

/-! ## dependents -/

open Classical in
/-- the numbers of the cells that read a cell, directly or through others -/
noncomputable def dependents (s : Sheet) (id : CellId) : Finset CellId :=
  {i ∈ Finset.range s.slots.size | s.ReadsOn i id}

open Classical in
theorem mem_dependents {s : Sheet} (hs : s.Wired) {i id : CellId} :
    i ∈ s.dependents id ↔ s.ReadsOn i id := by
  rw [dependents, Finset.mem_filter, Finset.mem_range]
  refine ⟨And.right, fun h => ⟨?_, h⟩⟩
  obtain ⟨c, hc⟩ := hs.live_of_readsOn h
  exact lt_size_of_cell? hc

open Classical in
theorem card_dependents_le (s : Sheet) (id : CellId) : (s.dependents id).card ≤ s.slots.size :=
  (Finset.card_filter_le _ _).trans_eq (Finset.card_range _)

theorem card_dependents_lt {s : Sheet} (hs : s.Wired) {i j : CellId} (h : s.Reads i j) :
    (s.dependents i).card < (s.dependents j).card := by
  refine Finset.card_lt_card (Finset.ssubset_iff_of_subset ?_ |>.mpr ?_)
  · intro k hk
    exact (mem_dependents hs).mpr (((mem_dependents hs).mp hk).tail h)
  · exact ⟨i, (mem_dependents hs).mpr (.single h), fun hi => hs.acyclic i ((mem_dependents hs).mp hi)⟩

theorem induction_reads {s : Sheet} (hs : s.Wired) {P : CellId → Prop}
    (h : ∀ i, (∀ j, s.Reads i j → P j) → P i) (i : CellId) : P i := by
  -- what is read has more dependents, of which there cannot be more than there are cells
  induction hn : s.slots.size - (s.dependents i).card using Nat.strong_induction_on generalizing i
    with
  | h n ih =>
    refine h i fun j hij => ih _ ?_ j rfl
    have hlt := card_dependents_lt hs hij
    have hle := card_dependents_le s j
    omega

theorem Alike.dependents {s t : Sheet} (h : Alike s t) : t.dependents = s.dependents := by
  funext id
  unfold Sheet.dependents ReadsOn
  rw [h.reads, h.size]

end Sheet

end Worksheet
