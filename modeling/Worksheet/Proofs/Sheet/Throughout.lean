import Worksheet.Proofs.Sheet.Run

/-!
# What holds of every text and the positions read

What can be said of a cell by its text and the positions it reads is kept by all that changes only
values.  It is left to see what content that is written brings with it, and what the moves of an
insertion or a deletion make of it.

* `Sheet.Throughout`   every cell that reads anything has a property of its text and the positions
                       it reads;
* `Sheet.throughout_blank`, `Sheet.throughout_set`, `Sheet.throughout_recolor`,
  `Sheet.throughout_insertLine`, `Sheet.throughout_deleteLine`
                       such a property after each operation.
-/

namespace Worksheet

namespace Sheet

def Throughout (P : Text → List Position → Prop) (s : Sheet) : Prop :=
  ∀ i c, s.cell? i = some c → c.snapshot.keys ≠ [] → P c.raw c.snapshot.keys

section
variable {P : Text → List Position → Prop}

theorem Throughout.alike {s t : Sheet} (h : s.Throughout P) (hal : Alike s t) :
    t.Throughout P := by
  intro i d hd hk
  obtain ⟨c, hc, e⟩ := hal.cell hd
  have hraw : c.raw = d.raw := congrArg Outline.raw e
  have hkeys : c.snapshot.keys = d.snapshot.keys := congrArg Outline.keys e
  rw [← hraw, ← hkeys]
  exact h i c hc (hkeys ▸ hk)

theorem throughout_blank (width height : Nat) (color : Text) :
    (blank width height color).Throughout P := by
  intro i c hc hk
  rw [(cell_of_blank _ _ _ hc).1] at hk
  exact absurd rfl hk

variable {s : Sheet} (hs : s.Wired) (h : s.Throughout P)
include hs h

/-! ## content that is written -/

theorem throughout_reject {id : CellId} {c : Cell} (hc : s.cell? id = some c) (content : Text)
    (f : Fault) : (s.reject id content f).Throughout P := by
  intro i d hd hk
  rw [cell?_reject hs hc] at hd
  obtain ⟨d', hd', rfl⟩ := Option.map_eq_some_iff.mp hd
  split_ifs at hk ⊢
  · exact absurd rfl hk
  · exact h i d' hd' hk

theorem throughout_rewire {id : CellId} {c : Cell} (hc : s.cell? id = some c) {content : Text}
    {ps : List Position} (hps : ∀ p ∈ ps, s.contains p = true)
    (hP : ∀ keys, (∀ q, q ∈ keys ↔ q ∈ ps) → P content keys) :
    (s.rewire id content ps).Throughout P := by
  intro i d hd hk
  rw [cell?_rewire hs hc] at hd
  obtain ⟨d', hd', rfl⟩ := Option.map_eq_some_iff.mp hd
  by_cases hi : i = id
  · simp only [if_pos hi]
    exact hP _ (mem_keys_seed hs hps)
  · simp only [if_neg hi, Cell.attach_eq] at hk ⊢
    split_ifs at hk ⊢ <;> exact h i d' hd' hk

theorem throughout_set {p : Position} {content : Text}
    (hP : ∀ ps, s.targets p content = .ok ps → s.closesCycle p ps = false →
      ∀ keys, (∀ q, q ∈ keys ↔ q ∈ ps) → P content keys) : (s.set p content).Throughout P := by
  refine set_cases hs (fun _ => h) (fun {id c f} hc _ _ => ?_)
    (fun _ _ _ _ => h.alike (alike_modify fun _ _ => rfl)) fun {id c ps} hc hp ht hcyc => ?_
  · exact (throughout_reject hs h hc content f).alike
      (alike_notify (wired_reject hs hc content f) id)
  · subst hp
    exact (throughout_rewire hs h hc (fun _ hp => inside_of_mem_targets ht hp)
      (hP ps ht hcyc)).alike (alike_notify (wired_rewire hs hc ht hcyc) id)

omit hs in
theorem throughout_recolor (p : Position) (color : Text) : (s.recolor p color).Throughout P := by
  intro i d hd hk
  obtain ⟨paint, hcell⟩ := cell?_recolor s p color i
  rw [hcell] at hd
  obtain ⟨d', hd', rfl⟩ := Option.map_eq_some_iff.mp hd
  exact h i d' hd' hk

/-! ## lines that are put in and taken out -/

theorem throughout_insertLine {axis : Axis} {index : Nat} {t : Sheet}
    (ht : s.insertLine axis index = .ok t) (hP : ∀ {c : Cell} {ms : List (Position × Position)}
      {keys : List Position}, P c.raw c.snapshot.keys →
      Position.Follows (axis.opened index) c.snapshot.keys ms →
      (∀ k ∈ (c.followAll ms).snapshot.keys, t.contains k = true) →
      (∀ q, q ∈ keys ↔ q ∈ (c.followAll ms).snapshot.keys ∨
        axis.coord q = index ∧ t.contains q = true ∧ Ranged (c.followAll ms).raw q) →
      P (c.followAll ms).raw keys) : t.Throughout P := by
  intro j e he hk
  obtain ⟨c, hc, hck⟩ := reads_of_insertLine hs ht he hk
  obtain ⟨ms, e', hms, he', hraw, hin, hkeys⟩ := cell_of_insertLine hs ht hc hck
  obtain rfl := Option.some.inj (he.symm.trans he')
  rw [hraw]
  exact hP (h j c hc hck) hms hin hkeys

theorem throughout_deleteLine {axis : Axis} {index : Nat} {t : Sheet}
    (ht : s.deleteLine axis index = .ok t) (hP : ∀ {c : Cell} {ms : List (Position × Position)},
      P c.raw c.snapshot.keys → Position.Follows (axis.closed index) c.snapshot.keys ms →
      (∀ k ∈ c.snapshot.keys, axis.coord k ≠ index) →
      P (c.followAll ms).raw (c.followAll ms).snapshot.keys) : t.Throughout P := by
  intro j e he hk
  obtain ⟨c, ms, hc, _, hms, _, hrest⟩ := (deleteLine_spec hs ht).2.of_cell he
  obtain ⟨hline, hraw, hsnap⟩ := hrest.resolve_left hk
  rw [hsnap] at hk
  rw [hraw, hsnap]
  exact hP (h j c hc (mt Cell.keys_followAll_eq_nil.mpr hk)) hms hline

end

end Sheet

end Worksheet
