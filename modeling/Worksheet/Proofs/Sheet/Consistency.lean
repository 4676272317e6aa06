import Worksheet.Proofs.Sheet.Run

/-!
# Consistent sheets

* `Sheet.InStep`       what a cell has seen of others is what they show;
* `Cell.Evaluated`     what a cell shows follows from its text and what it has seen;
* `Sheet.Consistent`   a sheet that a run leads to, of which both hold;
* `Sheet.RefusedAsCircular`
                       a write that would close a cycle;
* `Sheet.consistent_set_and_clear`
                       any other write leads from a consistent sheet to a consistent one.

Directly after the write only the readers of the cell are behind.  The notification mends them, and
with them all that fall behind on the way.
-/

namespace Worksheet

/-- what is shown follows from the text and the values seen, or the calls of the text may not be
wired -/
def Cell.Evaluated (c : Cell) : Prop :=
  c.shown = Worksheet.evaluate c.raw c.snapshot ∨ c.snapshot = ∅ ∧
    (c.shown = Fault.invalidPosition.text ∨ c.shown = Fault.invalidPositions.text)

namespace Sheet

/-! ## values that are up to date -/

def InStep (s : Sheet) : Prop :=
  ∀ i c q v, s.cell? i = some c → c.snapshot.get? q = some v → s.shownAt? q = some v

theorem inStep_iff {s : Sheet} (hs : s.Wired) : s.InStep ↔ ∀ i j, s.UpToDate i j := by
  have hshown : ∀ {j d}, s.cell? j = some d → s.shownAt? d.position = some d.shown := fun hd => by
    rw [shownAt?, hs.cellAt?_position hd]
    rfl
  constructor
  · intro h i j c d hc hd hi
    obtain ⟨v, hv⟩ := Snapshot.mem_keys.mp ((hs.mem_keys_iff hc hd).mpr hi)
    rw [hv, ← h i c _ v hc hv, hshown hd]
  · intro h i c q v hc hv
    have hq : q ∈ c.snapshot.keys := Snapshot.mem_keys.mpr ⟨v, hv⟩
    obtain ⟨j, d, _, hd, rfl⟩ := hs.exists_of_contains (hs.key_inside hc hq)
    rw [hshown hd, ← h i j c d hc hd ((hs.mem_keys_iff hc hd).mp hq), hv]

structure Consistent (s : Sheet) : Prop where
  reachable : s.Reachable
  inStep : s.InStep
  evaluated : ∀ i c, s.cell? i = some c → c.Evaluated

theorem consistent_blank (width height : Nat) (color : Text) :
    (blank width height color).Consistent where
  reachable := .blank width height color
  inStep i c q v hc hv := by
    rw [(cell_of_blank _ _ _ hc).1] at hv
    cases hv
  evaluated i c hc := by
    obtain ⟨hk, _, hr, hv⟩ := cell_of_blank _ _ _ hc
    refine .inl ?_
    rw [hk, hr, hv]
    rfl

/-! ## the sheets before the notification -/

section
variable {s : Sheet} (hs : s.Wired) {id : CellId} {c : Cell} (hc : s.cell? id = some c)
include hs hc

theorem upToDate_reject (content : Text) (f : Fault) {i j : CellId} (hj : j ≠ id)
    (h : s.UpToDate i j) : (s.reject id content f).UpToDate i j := by
  intro a b ha hb hi
  rw [cell?_reject hs hc] at ha hb
  obtain ⟨a', ha', rfl⟩ := Option.map_eq_some_iff.mp ha
  obtain ⟨b', hb', rfl⟩ := Option.map_eq_some_iff.mp hb
  rw [if_neg hj] at hi ⊢
  obtain ⟨hmem, hne⟩ := Cell.mem_observers_detach.mp hi
  rw [if_neg hne]
  exact h a' b' ha' hb' hmem

theorem upToDate_rewire (content : Text) {ps : List Position} {i j : CellId} (hj : j ≠ id)
    (h : s.UpToDate i j) : (s.rewire id content ps).UpToDate i j := by
  intro a b ha hb hi
  rw [cell?_rewire hs hc] at ha hb
  obtain ⟨a', ha', rfl⟩ := Option.map_eq_some_iff.mp ha
  obtain ⟨b', hb', rfl⟩ := Option.map_eq_some_iff.mp hb
  simp only [if_neg hj] at hi ⊢
  have hpos : (if b'.position ∈ ps then (b'.detach id).attach id else b'.detach id).position
      = b'.position := by
    rw [Cell.attach_eq]
    split_ifs <;> rfl
  have hshown : (if b'.position ∈ ps then (b'.detach id).attach id else b'.detach id).shown
      = b'.shown := by
    rw [Cell.attach_eq]
    split_ifs <;> rfl
  rw [Cell.mem_observers_reattach] at hi
  rw [hpos, hshown]
  by_cases hii : i = id
  · rw [if_pos hii] at hi
    simp only [if_pos hii]
    show (s.seed ps).get? b'.position = _
    rw [get?_seed, if_pos hi, shownAt?, hs.cellAt?_position hb']
    rfl
  · rw [if_neg hii] at hi
    simp only [if_neg hii]
    rw [← h a' b' ha' hb' hi, Cell.attach_eq]
    split_ifs <;> rfl

end

/-! ## writes -/

/-- content that may be wired, and would close a cycle -/
def RefusedAsCircular (s : Sheet) (p : Position) (content : Text) : Prop :=
  ∃ ps, s.targets p content = .ok ps ∧ s.closesCycle p ps = true

theorem fault_of_targets {s : Sheet} {p : Position} {content : Text} {f : Fault}
    (h : s.targets p content = .error f) : f = .invalidPosition ∨ f = .invalidPositions := by
  obtain ⟨_, call, _, _, _, _, rfl⟩ := targets_eq_error.mp h
  rw [Call.refusal]
  split
  · exact .inl rfl
  · exact .inr rfl

/-- a sheet in which only the readers of a cell may be behind is consistent after it has told them -/
theorem consistent_of_notify {s : Sheet} {id : CellId} {c : Cell} (hs : s.Wired)
    (hc : s.cell? id = some c) (hr : (s.notify id).Reachable)
    (hup : ∀ i j, j ≠ id → s.UpToDate i j) (hev : ∀ i c, s.cell? i = some c → c.Evaluated) :
    (s.notify id).Consistent where
  reachable := hr
  inStep := (inStep_iff hr.wired).mpr fun i j => upToDate_notify hs hc (by
    by_cases hj : j = id
    · exact .inr hj
    · exact .inl (hup i j hj))
  evaluated i d hd := ((spread_notify hs hc).evaluated hd).elim (hev i d) .inl

theorem consistent_set {s : Sheet} (h : s.Consistent) {p : Position} (hp : s.contains p = true)
    {content : Text} (hno : ¬s.RefusedAsCircular p content) : (s.set p content).Consistent := by
  have hs := h.reachable.wired
  have hup := (inStep_iff hs).mp h.inStep
  have hr : (s.set p content).Reachable := .step (.set p content) h.reachable trivial
  obtain ⟨id, c, hid, hc, rfl⟩ := hs.exists_of_contains hp
  cases ht : s.targets c.position content with
  | error f =>
    rw [set_of_error hid ht] at hr ⊢
    have hcell := cell?_reject hs hc content f
    refine consistent_of_notify (wired_reject hs hc content f)
      ((hcell id).trans (congrArg _ hc)) hr (fun i j hj => upToDate_reject hs hc content f hj (hup i j))
      fun i d hd => ?_
    rw [hcell] at hd
    obtain ⟨d', hd', rfl⟩ := Option.map_eq_some_iff.mp hd
    split_ifs
    · exact .inr ⟨rfl, (fault_of_targets ht).imp (congrArg Fault.text) (congrArg Fault.text)⟩
    · exact h.evaluated i d' hd'
  | ok ps =>
    have hcyc : s.closesCycle c.position ps = false := by
      by_contra hne
      exact hno ⟨ps, ht, Bool.not_eq_false _ ▸ hne⟩
    rw [set_of_not_closesCycle hid ht hcyc] at hr ⊢
    have hcell := cell?_rewire hs hc content ps
    refine consistent_of_notify (wired_rewire hs hc ht hcyc)
      ((hcell id).trans (congrArg _ hc)) hr (fun i j hj => upToDate_rewire hs hc content hj (hup i j))
      fun i d hd => ?_
    rw [hcell] at hd
    obtain ⟨d', hd', rfl⟩ := Option.map_eq_some_iff.mp hd
    by_cases hi : i = id
    · simp only [if_pos hi]
      exact .inl rfl
    · simp only [if_neg hi, Cell.attach_eq]
      split_ifs <;> exact h.evaluated i d' hd'

theorem consistent_set_of_targets {s : Sheet} (h : s.Consistent) {p : Position}
    (hp : s.contains p = true) {content : Text} (ps : List Position)
    (hps : s.targets p content = .ok ps) (hno : s.closesCycle p ps = false) :
    (s.set p content).Consistent := by
  refine consistent_set h hp fun ⟨ps', hps', hcyc⟩ => ?_
  rw [← Except.ok.inj (hps.symm.trans hps'), hno] at hcyc
  cases hcyc

/-- content without calls closes no cycle -/
theorem not_refusedAsCircular_nil (s : Sheet) (p : Position) : ¬s.RefusedAsCircular p [] := by
  rintro ⟨ps, hps, hcyc⟩
  obtain rfl : [] = ps := Except.ok.inj hps
  cases hcyc

/-- A write to a cell of a consistent sheet, if it is not refused as circular, and every removal of
content, lead to a consistent sheet. -/
theorem consistent_set_and_clear {s : Sheet} (h : s.Consistent) {p : Position}
    (hp : s.contains p = true) :
    (∀ content, ¬s.RefusedAsCircular p content → (s.set p content).Consistent) ∧
      (s.clear p).Consistent := by
  have hclear : (s.clear p).Reachable := .step (.clear p) h.reachable trivial
  exact ⟨fun content hno => consistent_set h hp hno,
    { consistent_set h hp (s.not_refusedAsCircular_nil p) with reachable := hclear }⟩

/-- a diamond: `B1` and `C1` read `A1`, and `D1` reads both -/
theorem consistent_set_and_clear_diamond : ∃ s : Sheet, s.Consistent ∧
    s.readsAt ⟨0, 3⟩ = [⟨0, 1⟩, ⟨0, 2⟩] ∧ (s.set ⟨0, 0⟩ "5".toList).Consistent ∧
      (s.clear ⟨0, 0⟩).Consistent := by
  have step : ∀ {s : Sheet}, s.Consistent → ∀ p content ps, s.contains p = true →
      s.targets p content = .ok ps → s.closesCycle p ps = false → (s.set p content).Consistent := by
    intro s h p content ps hp hps hno
    refine (consistent_set_and_clear h hp).1 content fun ⟨ps', hps', hcyc⟩ => ?_
    rw [← Except.ok.inj (hps.symm.trans hps'), hno] at hcyc
    cases hcyc
  have h1 := step (consistent_blank 4 1 []) ⟨0, 1⟩ "=REF(A1)".toList [⟨0, 0⟩] (by decide)
    (by decide +kernel) (by decide +kernel)
  have h2 := step h1 ⟨0, 2⟩ "=REF(A1)".toList [⟨0, 0⟩] (by decide +kernel) (by decide +kernel)
    (by decide +kernel)
  have h3 := step h2 ⟨0, 3⟩ "=SUM(B1, C1)".toList [⟨0, 1⟩, ⟨0, 2⟩] (by decide +kernel)
    (by decide +kernel) (by decide +kernel)
  exact ⟨_, h3, by decide +kernel, step h3 ⟨0, 0⟩ "5".toList [] (by decide +kernel)
    (by decide +kernel) (by decide +kernel), (consistent_set_and_clear h3 (by decide +kernel)).2⟩

end Sheet

end Worksheet
