import Worksheet.Proofs.Sheet.Wiring

/-!
# One cell reads other positions than before

* `Sheet.Rewired`      the cell reads the positions given, and all else of the wiring is as it was;
* `Sheet.Rewired.wired` a rewired sheet is wired, if no cell at the new positions reads the cell.

Content that is written rewires a cell, and so does a range that is extended.
-/

namespace Worksheet

namespace Sheet

/-- a cell begins with values for all positions that it is to read -/
theorem mem_keys_seed {s : Sheet} (hs : s.Wired) {ps : List Position}
    (hps : ∀ p ∈ ps, s.contains p = true) (q : Position) : q ∈ (s.seed ps).keys ↔ q ∈ ps := by
  rw [Snapshot.mem_keys, get?_seed]
  by_cases hq : q ∈ ps
  · obtain ⟨j, d, _, hd, rfl⟩ := hs.exists_of_contains (hps q hq)
    rw [if_pos hq, shownAt?, hs.cellAt?_position hd]
    exact ⟨fun _ => hq, fun _ => ⟨_, rfl⟩⟩
  · rw [if_neg hq]
    exact ⟨fun ⟨_, h⟩ => (by cases h), fun h => absurd h hq⟩

structure Rewired (s : Sheet) (id : CellId) (ps : List Position) (t : Sheet) : Prop
    extends SameFrame s t where
  gone : ∀ {j}, s.cell? j = none → t.cell? j = none
  cell : ∀ {j d}, s.cell? j = some d → ∃ e, t.cell? j = some e ∧ e.position = d.position ∧
    (∀ i, i ∈ e.observers ↔ if i = id then d.position ∈ ps else i ∈ d.observers) ∧
    (d.observers.Nodup → e.observers.Nodup) ∧
    ∀ q, q ∈ e.snapshot.keys ↔ if j = id then q ∈ ps else q ∈ d.snapshot.keys

namespace Rewired
variable {s t : Sheet} {id : CellId} {ps : List Position}

theorem of_cell (h : Rewired s id ps t) {j : CellId} {e : Cell} (he : t.cell? j = some e) :
    ∃ d, s.cell? j = some d ∧ e.position = d.position ∧
      (∀ i, i ∈ e.observers ↔ if i = id then d.position ∈ ps else i ∈ d.observers) ∧
      (d.observers.Nodup → e.observers.Nodup) ∧
      ∀ q, q ∈ e.snapshot.keys ↔ if j = id then q ∈ ps else q ∈ d.snapshot.keys := by
  cases hd : s.cell? j with
  | none => rw [h.gone hd] at he; cases he
  | some d =>
    obtain ⟨e', he', hrest⟩ := h.cell hd
    rw [he] at he'
    exact ⟨d, rfl, Option.some.inj he' ▸ hrest⟩

theorem placed (h : Rewired s id ps t) (hs : s.Placed) : t.Placed where
  rows_length := by rw [h.grid, h.width]; exact hs.rows_length
  idAt?_iff := by
    intro p j
    rw [h.idAt?, hs.idAt?_iff]
    constructor
    · rintro ⟨d, hd, rfl⟩
      obtain ⟨e, he, hp, _⟩ := h.cell hd
      exact ⟨e, he, hp⟩
    · rintro ⟨e, he, rfl⟩
      obtain ⟨d, hd, hp, _⟩ := h.of_cell he
      exact ⟨d, hd, hp.symm⟩
  vacant_nodup := by rw [h.vacant]; exact hs.vacant_nodup
  mem_vacant := by
    intro j
    rw [h.vacant, h.size, hs.mem_vacant]
    cases hd : s.cell? j with
    | none => rw [h.gone hd]
    | some d =>
      obtain ⟨e, he, _⟩ := h.cell hd
      rw [he]
      simp

theorem mirrored (h : Rewired s id ps t) (hs : s.Mirrored) (hlive : ∃ c, s.cell? id = some c)
    (hps : ∀ p ∈ ps, s.contains p = true) : t.Mirrored where
  mem_keys_iff := by
    intro i j c d hc hd
    obtain ⟨c', hc', _, _, _, hk⟩ := h.of_cell hc
    obtain ⟨d', hd', hp, ho, _⟩ := h.of_cell hd
    rw [hk, hp, ho]
    by_cases hi : i = id
    · rw [if_pos hi, if_pos hi]
    · rw [if_neg hi, if_neg hi, hs.mem_keys_iff hc' hd']
  key_inside := by
    intro i c q hc hq
    obtain ⟨c', hc', _, _, _, hk⟩ := h.of_cell hc
    rw [hk] at hq
    rw [h.contains]
    split_ifs at hq
    · exact hps q hq
    · exact hs.key_inside hc' hq
  observer_live := by
    intro i j d hd hi
    obtain ⟨d', hd', _, ho, _⟩ := h.of_cell hd
    rw [ho] at hi
    have hold : ∃ c, s.cell? i = some c := by
      split_ifs at hi with e
      · exact e ▸ hlive
      · exact hs.observer_live hd' hi
    exact hold.elim fun c hc => (h.cell hc).imp fun _ he => he.1
  observers_nodup := by
    intro j d hd
    obtain ⟨d', hd', _, _, hn, _⟩ := h.of_cell hd
    exact hn (hs.observers_nodup hd')

theorem wired (h : Rewired s id ps t) (hs : s.Wired) (hlive : ∃ c, s.cell? id = some c)
    (hps : ∀ p ∈ ps, s.contains p = true)
    (hnew : ∀ j d, s.cell? j = some d → d.position ∈ ps → ¬Relation.ReflTransGen s.Reads j id) :
    t.Wired where
  toPlaced := h.placed hs.toPlaced
  toMirrored := h.mirrored hs.toMirrored hlive hps
  acyclic := by
    refine not_transGen_self (T := fun j => ∃ d, s.cell? j = some d ∧ d.position ∈ ps) hs.acyclic
      (fun j ⟨d, hd, hp⟩ => hnew j d hd hp) fun i j ⟨e, he, hi⟩ => ?_
    obtain ⟨d, hd, _, ho, _⟩ := h.of_cell he
    rw [ho] at hi
    split_ifs at hi with hid
    · exact .inr ⟨hid, d, hd, hi⟩
    · exact .inl ⟨d, hd, hi⟩

end Rewired

end Sheet

end Worksheet
