import Worksheet.Proofs.Sheet.Deletion
import Worksheet.Proofs.Sheet.Extension
import Worksheet.Proofs.Sheet.Writing

/-!
# Runs

* `Operation`          what can be done to a sheet;
* `Sheet.ReachableBy`  the sheets that runs of allowed operations lead to, each from a blank sheet;
* `Sheet.wired_blank`, `Sheet.wired_apply`
                       a blank sheet is wired, and every operation keeps a sheet wired;
* `Sheet.acyclic_and_notifies` no position reads itself, and every notification comes to an end;
* `Sheet.mirrored_and_unheard` positions read and readers mirror each other, and a number that is
                       given out again has kept nothing of the cell that had it before.
-/

namespace Worksheet

inductive Operation where
  | set (p : Position) (content : Text)
  | clear (p : Position)
  | recolor (p : Position) (color : Text)
  | insert (axis : Axis) (index : Nat)
  | delete (axis : Axis) (index : Nat)
  deriving DecidableEq, Repr

namespace Sheet

/-- a line that there is not changes nothing -/
def apply (s : Sheet) : Operation → Sheet
  | .set p content => s.set p content
  | .clear p => s.clear p
  | .recolor p color => s.recolor p color
  | .insert axis index => (s.insertLine axis index).toOption.getD s
  | .delete axis index => (s.deleteLine axis index).toOption.getD s

inductive ReachableBy (allowed : Sheet → Operation → Prop) : Sheet → Prop
  | blank (width height : Nat) (color : Text) : ReachableBy allowed (Sheet.blank width height color)
  | step {s : Sheet} (o : Operation) : ReachableBy allowed s → allowed s o →
      ReachableBy allowed (s.apply o)

abbrev Reachable : Sheet → Prop := ReachableBy fun _ _ => True

/-! ## blank sheets -/

theorem flatMap_range {α : Type} (f : Nat → Nat → α) (width height : Nat) :
    ((List.range height).flatMap fun row => (List.range width).map (f row))
      = (List.range (height * width)).map fun i => f (i / width) (i % width) := by
  induction height with
  | zero => simp
  | succ height ih =>
    rw [List.range_succ, List.flatMap_append, ih, Nat.succ_mul, List.range_add, List.map_append,
      List.map_map, List.flatMap_singleton]
    congr 1
    refine List.map_congr_left fun i hi => ?_
    have hlt : i < width := List.mem_range.mp hi
    have hpos : 0 < width := Nat.lt_of_le_of_lt (Nat.zero_le _) hlt
    show f height i = f ((height * width + i) / width) ((height * width + i) % width)
    rw [Nat.add_comm, Nat.add_mul_div_right _ _ hpos, Nat.div_eq_of_lt hlt, Nat.zero_add,
      Nat.add_mul_mod_self_right, Nat.mod_eq_of_lt hlt]

section
variable (width height : Nat) (color : Text)

theorem slots_blank : (blank width height color).slots
    = ((List.range (height * width)).map fun i =>
      some (Cell.blank ⟨i / width, i % width⟩ color)).toArray := by
  rw [blank, flatMap_range fun row col => some (Cell.blank ⟨row, col⟩ color)]

theorem cell?_blank (j : CellId) : (blank width height color).cell? j
    = if j < height * width then some (Cell.blank ⟨j / width, j % width⟩ color) else none := by
  rw [cell?, slots_blank, List.getElem?_toArray, List.getElem?_map]
  split_ifs with h
  · rw [List.getElem?_range h]
    rfl
  · rw [List.getElem?_eq_none (by rw [List.length_range]; exact Nat.le_of_not_lt h)]
    rfl

theorem idAt?_blank (p : Position) : (blank width height color).idAt? p
    = if p.row < height ∧ p.col < width then some (p.row * width + p.col) else none := by
  show (((List.range height).map _)[p.row]?).bind (fun ids => ids[p.col]?) = _
  rw [List.getElem?_map]
  by_cases hr : p.row < height
  · rw [List.getElem?_range hr]
    show ((List.range width).map _)[p.col]? = _
    rw [List.getElem?_map]
    by_cases hc : p.col < width
    · rw [List.getElem?_range hc, if_pos ⟨hr, hc⟩]
      rfl
    · rw [List.getElem?_eq_none (by rw [List.length_range]; exact Nat.le_of_not_lt hc),
        if_neg fun h => hc h.2]
      rfl
  · rw [List.getElem?_eq_none (by rw [List.length_range]; exact Nat.le_of_not_lt hr),
      if_neg fun h => hr h.1]
    rfl

theorem placed_blank : (blank width height color).Placed where
  vacant_nodup := List.nodup_nil
  mem_vacant := by
    intro j
    rw [cell?_blank, slots_blank, List.size_toArray, List.length_map, List.length_range]
    refine ⟨fun h => absurd h List.not_mem_nil, fun ⟨hlt, hnone⟩ => ?_⟩
    rw [if_pos hlt] at hnone
    cases hnone
  rows_length := by
    intro ids hids
    obtain ⟨row, _, rfl⟩ := List.mem_map.mp hids
    exact (List.length_map _).trans List.length_range
  idAt?_iff := by
    intro p j
    rw [idAt?_blank, cell?_blank]
    constructor
    · intro h
      split_ifs at h with hin
      obtain rfl := Option.some.inj h
      have hpos : 0 < width := Nat.lt_of_le_of_lt (Nat.zero_le _) hin.2
      have hlt : p.row * width + p.col < height * width := by
        have := Nat.mul_le_mul_right width (Nat.succ_le_of_lt hin.1)
        rw [Nat.succ_mul] at this
        omega
      refine ⟨_, if_pos hlt, ?_⟩
      show (⟨_, _⟩ : Position) = p
      rw [Nat.add_comm, Nat.add_mul_div_right _ _ hpos, Nat.div_eq_of_lt hin.2, Nat.zero_add,
        Nat.add_mul_mod_self_right, Nat.mod_eq_of_lt hin.2]
    · rintro ⟨c, hc, rfl⟩
      split_ifs at hc with hlt
      obtain rfl := Option.some.inj hc
      have hpos : 0 < width := Nat.pos_of_ne_zero fun e => by
        rw [e, Nat.mul_zero] at hlt
        exact absurd hlt (Nat.not_lt_zero _)
      show (if j / width < height ∧ j % width < width then some (j / width * width + j % width)
        else none) = some j
      rw [if_pos ⟨Nat.div_lt_of_lt_mul (by rwa [Nat.mul_comm]), Nat.mod_lt _ hpos⟩,
        Nat.div_add_mod']

theorem cell_of_blank {j : CellId} {c : Cell} (h : (blank width height color).cell? j = some c) :
    c.snapshot = ∅ ∧ c.observers = [] ∧ c.raw = [] ∧ c.shown = [] := by
  rw [cell?_blank] at h
  split_ifs at h
  obtain rfl := Option.some.inj h
  exact ⟨rfl, rfl, rfl, rfl⟩

theorem wired_blank : (blank width height color).Wired where
  toPlaced := placed_blank width height color
  mem_keys_iff hc hd := by
    rw [(cell_of_blank _ _ _ hc).1, (cell_of_blank _ _ _ hd).2.1]
    exact ⟨fun h => absurd h List.not_mem_nil, fun h => absurd h List.not_mem_nil⟩
  key_inside hc hq := by
    rw [(cell_of_blank _ _ _ hc).1] at hq
    cases hq
  observer_live hd hi := by
    rw [(cell_of_blank _ _ _ hd).2.1] at hi
    cases hi
  observers_nodup hd := by
    rw [(cell_of_blank _ _ _ hd).2.1]
    exact List.nodup_nil
  acyclic i hi := by
    obtain ⟨j, ⟨d, hd, hmem⟩, _⟩ := Relation.TransGen.head'_iff.mp hi
    rw [(cell_of_blank _ _ _ hd).2.1] at hmem
    cases hmem

end

/-! ## every operation -/

theorem sameFrame_recolor (s : Sheet) (p : Position) (color : Text) :
    SameFrame s (s.recolor p color) := by
  unfold recolor
  split
  · exact sameFrame_modify ..
  · exact SameFrame.refl s

/-- a cell that has another color, or the same -/
theorem cell?_recolor (s : Sheet) (p : Position) (color : Text) (j : CellId) :
    ∃ paint : Cell → Text, (s.recolor p color).cell? j
      = (s.cell? j).map fun c => { c with color := paint c } := by
  unfold recolor
  split
  · next id _ =>
    refine ⟨fun c => if j = id then color else c.color, ?_⟩
    rw [cell?_modify]
    by_cases h : j = id
    · simp only [h, if_true]
    · simp only [h, if_false, Option.map_id']
  · exact ⟨Cell.color, Option.map_id'.symm⟩

theorem wired_recolor {s : Sheet} (hs : s.Wired) (p : Position) (color : Text) :
    (s.recolor p color).Wired := by
  cases hid : s.idAt? p with
  | none => rwa [recolor, hid]
  | some id =>
    obtain ⟨c, hc, _⟩ := hs.idAt?_iff.mp hid
    have h : Rewired s id c.snapshot.keys (s.recolor p color) := by
      refine ⟨sameFrame_recolor s p color, fun {j} hj => ?_, fun {j d} hd => ?_⟩
      · obtain ⟨paint, hcell⟩ := cell?_recolor s p color j
        rw [hcell, hj]
        rfl
      · obtain ⟨paint, hcell⟩ := cell?_recolor s p color j
        refine ⟨_, hcell.trans (congrArg _ hd), rfl, fun i => ?_, fun hn => hn, fun q => ?_⟩
        · split_ifs with hi
          · rw [hi, hs.mem_keys_iff hc hd]
          · rfl
        · split_ifs with hj
          · subst hj
            rw [Option.some.inj (hc.symm.trans hd)]
          · rfl
    exact h.wired hs ⟨c, hc⟩ (fun q hq => hs.key_inside hc hq) fun j d hd hq hpath =>
      hs.acyclic id (Relation.TransGen.head' ((hs.reads_iff hc hd).mpr hq) hpath)

section
variable {s : Sheet} {axis : Axis} {index : Nat} {motive : Sheet → Prop} (hs : motive s)
include hs

/-- a line is put in, or nothing changes -/
theorem apply_insert (h : ∀ t, s.insertLine axis index = .ok t → motive t) :
    motive (s.apply (.insert axis index)) := by
  rw [apply]
  cases ht : s.insertLine axis index with
  | error e => exact hs
  | ok t => exact h t ht

theorem apply_delete (h : ∀ t, s.deleteLine axis index = .ok t → motive t) :
    motive (s.apply (.delete axis index)) := by
  rw [apply]
  cases ht : s.deleteLine axis index with
  | error e => exact hs
  | ok t => exact h t ht

end

theorem wired_apply {s : Sheet} (hs : s.Wired) (o : Operation) : (s.apply o).Wired := by
  cases o with
  | set p content => exact wired_set hs p content
  | clear p => exact wired_set hs p []
  | recolor p color => exact wired_recolor hs p color
  | insert axis index => exact apply_insert hs fun _ ht => (extended_insertLine hs ht).toWired
  | delete axis index => exact apply_delete hs fun _ ht => (deleteLine_spec hs ht).1

theorem ReachableBy.wired {allowed : Sheet → Operation → Prop} {s : Sheet}
    (h : ReachableBy allowed s) : s.Wired := by
  induction h with
  | blank width height color => exact wired_blank width height color
  | step o _ _ ih => exact wired_apply ih o

/-! ## positions that read themselves -/

/-- no position reads itself, directly or through others, and so every notification comes to an
end -/
theorem acyclic_and_notifies {s : Sheet} (h : s.Reachable) :
    (∀ p, ¬Relation.TransGen (fun p q => q ∈ s.readsAt p) p p) ∧
      ∀ id, Notifies s id (s.notify id) :=
  ⟨acyclic_readsAt h.wired, notifies_notify h.wired⟩

/-- a formula that reads another, of which the range has grown by a row -/
theorem acyclic_and_notifies_grown : ∃ s : Sheet, s.Reachable ∧ s.readsAt ⟨0, 1⟩ = [⟨2, 2⟩] ∧
    s.readsAt ⟨2, 2⟩ = [⟨0, 0⟩, ⟨1, 0⟩, ⟨2, 0⟩] ∧
    (∀ p, ¬Relation.TransGen (fun p q => q ∈ s.readsAt p) p p) ∧
      ∀ id, Notifies s id (s.notify id) := by
  have h : Reachable ((((blank 3 2 []).apply (.set ⟨0, 1⟩ "=REF(C2)".toList)).apply
      (.set ⟨1, 2⟩ "=SUM(A1:A2)".toList)).apply (.insert .row 1)) :=
    .step _ (.step _ (.step _ (.blank 3 2 []) trivial) trivial) trivial
  exact ⟨_, h, by decide +kernel, by decide +kernel, acyclic_and_notifies h⟩

/-! ## numbers that are given out again -/

section
variable {s t : Sheet} (hs : s.Wired) {axis : Axis} {index : Nat}
  (h : s.insertLine axis index = .ok t) {id : CellId} (hid : s.cell? id = none) {d : Cell}
  (hd : t.cell? id = some d)
include hs h hid hd

/-- a new cell is empty, is on no list of readers, and is read by such formulas only as have a range
that covers it -/
theorem new_of_insertLine : d.raw = [] ∧ d.snapshot = ∅ ∧
    (∀ j e, t.cell? j = some e → id ∉ e.observers) ∧
    ∀ i ∈ d.observers, ∃ c, t.cell? i = some c ∧ Ranged c.raw d.position := by
  have hindex := (insertLine_eq_ok.mp h).1
  have hop := opened_openedAt hs axis index hindex
  have hu := wired_openedAt hs axis index hindex
  have ht := extended_insertLine hs h
  obtain ⟨b, hb, hp, hraw, hkeys⟩ := ht.of_cell hd
  obtain ⟨-, hblank⟩ := hop.new hid hb
  have hnil : b.snapshot.keys = [] := by
    rw [hblank]
    rfl
  have hnil' : d.snapshot.keys = [] := List.eq_nil_iff_forall_not_mem.mpr fun q hq => by
    rcases (hkeys q).mp hq with hq | hq
    · rw [hnil] at hq
      cases hq
    · exact hq.1 hnil
  refine ⟨hraw.trans (by rw [hblank]; rfl), Snapshot.eq_empty_of_keys hnil', fun j e he hi => ?_,
    fun i hi => ?_⟩
  · have hk := (ht.mem_keys_iff hd he).mpr hi
    rw [hnil'] at hk
    cases hk
  · obtain ⟨c, hc⟩ := ht.observer_live hd hi
    obtain ⟨a, ha, _, hraw', hkeys'⟩ := ht.of_cell hc
    refine ⟨c, hc, ?_⟩
    rcases (hkeys' d.position).mp ((ht.mem_keys_iff hc hd).mpr hi) with hk | ⟨_, hmem⟩
    · have hno := (hu.mem_keys_iff ha hb).mp (hp ▸ hk)
      rw [hblank] at hno
      cases hno
    · rw [hraw']
      exact (mem_newTargets.mp hmem).1

end

/-- In every sheet that a run leads to, positions read and readers mirror each other.  The vacant
numbers are on no list of readers, and an insertion gives them to cells that have nothing of those
that had them before. -/
theorem mirrored_and_unheard {s : Sheet} (h : s.Reachable) :
    (∀ i j c d, s.cell? i = some c → s.cell? j = some d →
      (d.position ∈ c.snapshot.keys ↔ i ∈ d.observers)) ∧
    (∀ i c q, s.cell? i = some c → q ∈ c.snapshot.keys → s.contains q = true) ∧
    (∀ i j d, s.cell? j = some d → i ∈ d.observers → ∃ c, s.cell? i = some c) ∧
    (∀ j d, s.cell? j = some d → d.observers.Nodup) ∧
    (∀ id ∈ s.vacant, s.cell? id = none ∧ ∀ j d, s.cell? j = some d → id ∉ d.observers) ∧
    ∀ axis index t, s.insertLine axis index = .ok t → ∀ id d, s.cell? id = none →
      t.cell? id = some d → d.raw = [] ∧ d.snapshot = ∅ ∧
        (∀ j e, t.cell? j = some e → id ∉ e.observers) ∧
        ∀ i ∈ d.observers, ∃ c, t.cell? i = some c ∧ Ranged c.raw d.position := by
  have hs := h.wired
  refine ⟨fun i j c d hc hd => hs.mem_keys_iff hc hd, fun i c q hc hq => hs.key_inside hc hq,
    fun i j d hd hi => hs.observer_live hd hi, fun j d hd => hs.observers_nodup hd,
    fun id hid => ?_, fun axis index t ht id d hid hd => new_of_insertLine hs ht hid hd⟩
  have hnone := (hs.mem_vacant.mp hid).2
  refine ⟨hnone, fun j d hd hi => ?_⟩
  obtain ⟨c, hc⟩ := hs.observer_live hd hi
  rw [hnone] at hc
  cases hc

/-- `A2` reads and is read, and goes with its column; its number goes to a cell of a new row, which the
sum of a range begins to read -/
theorem mirrored_and_unheard_reused : ∃ r s t : Sheet, r.Reachable ∧ r.idAt? ⟨1, 0⟩ = some 3 ∧
    r.readsAt ⟨1, 0⟩ = [⟨1, 2⟩] ∧ r.observersAt ⟨1, 0⟩ = [⟨0, 1⟩] ∧
    r.deleteLine .column 0 = .ok s ∧ 3 ∈ s.vacant ∧
    (∃ c d, s.cell? 2 = some c ∧ s.cell? 5 = some d ∧ d.position ∈ c.snapshot.keys ∧
      2 ∈ d.observers ∧ 3 ∉ d.observers) ∧
    s.insertLine .row 2 = .ok t ∧ ∃ d, t.cell? 3 = some d ∧ d.raw = [] ∧ d.snapshot = ∅ ∧
      (∀ j e, t.cell? j = some e → 3 ∉ e.observers) ∧
      2 ∈ d.observers ∧ ∃ c, t.cell? 2 = some c ∧ Ranged c.raw d.position := by
  generalize hr : (((blank 3 3 []).apply (.set ⟨1, 0⟩ "=REF(C2)".toList)).apply
    (.set ⟨0, 1⟩ "=REF(A2)".toList)).apply (.set ⟨0, 2⟩ "=SUM(C2:C3)".toList) = r
  have hreach : r.Reachable :=
    hr ▸ .step _ (.step _ (.step _ (.blank 3 3 []) trivial) trivial) trivial
  obtain ⟨s, hs⟩ : ∃ s, r.deleteLine .column 0 = .ok s :=
    ⟨_, if_neg (by rw [← hr]; decide +kernel)⟩
  have happly : r.apply (.delete .column 0) = s := by rw [apply, hs]; rfl
  have h : s.Reachable := happly ▸ .step _ hreach trivial
  obtain ⟨t, ht⟩ : ∃ t, s.insertLine .row 2 = .ok t :=
    ⟨_, if_neg (by rw [← happly, ← hr]; decide +kernel)⟩
  obtain ⟨hmirror, -, -, -, hvacant, hnew⟩ := mirrored_and_unheard h
  have hedge : (s.cell? 2).map (fun c => c.snapshot.keys) = some [⟨1, 1⟩, ⟨2, 1⟩] ∧
      (s.cell? 5).map Cell.position = some ⟨1, 1⟩ ∧ 3 ∈ s.vacant := by
    rw [← happly, ← hr]
    decide +kernel
  obtain ⟨hkeys, hposition, hgone⟩ := hedge
  obtain ⟨c, hc, hk⟩ := Option.map_eq_some_iff.mp hkeys
  obtain ⟨d, hd, hp⟩ := Option.map_eq_some_iff.mp hposition
  have hmem : d.position ∈ c.snapshot.keys := by rw [hp, hk]; exact List.mem_cons_self ..
  have hreader : (s.insertLine .row 2).toOption.map
      (fun t => (t.cell? 3).map Cell.observers) = some (some [2]) := by
    rw [← happly, ← hr]
    decide +kernel
  rw [ht] at hreader
  obtain ⟨e, he, hobs⟩ := Option.map_eq_some_iff.mp (Option.some.inj hreader)
  obtain ⟨hraw, hsnap, hunheard, hranged⟩ := hnew .row 2 t ht 3 e (hvacant 3 hgone).1 he
  have hmem' : 2 ∈ e.observers := by rw [hobs]; exact List.mem_cons_self ..
  exact ⟨r, s, t, hreach, by rw [← hr]; decide +kernel, by rw [← hr]; decide +kernel,
    by rw [← hr]; decide +kernel, hs, hgone, ⟨c, d, hc, hd, hmem, (hmirror 2 5 c d hc hd).mp hmem,
      (hvacant 3 hgone).2 5 d hd⟩, ht, e, he, hraw, hsnap, hunheard, hmem', hranged 2 hmem'⟩

end Sheet

end Worksheet
