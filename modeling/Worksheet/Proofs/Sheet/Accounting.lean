import Worksheet.Proofs.Sheet.Outcomes
import Worksheet.Proofs.Sheet.Staleness

/-!
# How what cells show has come about

The text, the snapshot and the value of a cell are written in many places.  Whoever writes one of
the first two sees to the third:

* `Cell.SameContent`   a cell with the text, the snapshot and the value of another;
* `Sheet.Refreshed`    the cells whose content is not the same as before have been evaluated;
* `Sheet.refreshed_notify`, `Sheet.refreshed_insertLine`, `Sheet.refreshed_deleteLine`
                       so it is after notifications and where lines are put in or taken out;
* `Sheet.Accounted`    the four ways in which an operation may leave the content of a cell;
* `Sheet.accounted_apply` there is no other;
* `Sheet.accounted_for` a cell shows the value of its text, or a fault.
-/

namespace Worksheet

structure Cell.SameContent (c d : Cell) : Prop where
  raw : d.raw = c.raw
  snapshot : d.snapshot = c.snapshot
  shown : d.shown = c.shown

namespace Cell.SameContent
variable {c d e : Cell}

theorem refl (c : Cell) : SameContent c c := ⟨rfl, rfl, rfl⟩

theorem trans (h : SameContent c d) (h' : SameContent d e) : SameContent c e :=
  ⟨h'.raw.trans h.raw, h'.snapshot.trans h.snapshot, h'.shown.trans h.shown⟩

theorem evaluated (h : SameContent c d) (hc : c.shown = Worksheet.evaluate c.raw c.snapshot) :
    d.shown = Worksheet.evaluate d.raw d.snapshot := by
  rw [h.shown, h.raw, h.snapshot, hc]

/-- readers do not belong to the content -/
theorem attach (c : Cell) (id : CellId) : SameContent c (c.attach id) := by
  rw [Cell.attach_eq]
  exact ⟨rfl, rfl, rfl⟩

end Cell.SameContent

namespace Sheet

/-! ## cells that have been evaluated again -/

/-- a cell has the content that it had, or what it shows follows from its text and what it has seen -/
structure Refreshed (s t : Sheet) : Prop where
  of_cell : ∀ {j d}, t.cell? j = some d → d.shown = evaluate d.raw d.snapshot ∨
    ∃ c, s.cell? j = some c ∧ c.SameContent d

theorem Refreshed.refl (s : Sheet) : Refreshed s s :=
  ⟨fun {_ d} hd => .inr ⟨d, hd, .refl d⟩⟩

theorem Refreshed.trans {s t u : Sheet} (h : Refreshed s t) (h' : Refreshed t u) :
    Refreshed s u where
  of_cell he := by
    rcases h'.of_cell he with heval | ⟨d, hd, hsame⟩
    · exact .inl heval
    · rcases h.of_cell hd with heval | ⟨c, hc, hsame'⟩
      · exact .inl (hsame.evaluated heval)
      · exact .inr ⟨c, hc, hsame'.trans hsame⟩

theorem refreshed_notify {s : Sheet} (hs : s.Wired) (id : CellId) : Refreshed s (s.notify id) where
  of_cell {j d} hd := by
    cases hc : s.cell? id with
    | none =>
      rw [notify, push_of_vacant hc] at hd
      exact .inr ⟨d, hd, .refl d⟩
    | some c =>
      rcases (spread_notify hs hc).evaluated hd with h | h
      · exact .inr ⟨d, h, .refl d⟩
      · exact .inl h

theorem refreshed_recolor (s : Sheet) (p : Position) (color : Text) :
    Refreshed s (s.recolor p color) where
  of_cell {j d} hd := by
    obtain ⟨paint, hcell⟩ := cell?_recolor s p color j
    obtain ⟨c, hc, rfl⟩ := Option.map_eq_some_iff.mp (hcell.symm.trans hd)
    exact .inr ⟨c, hc, rfl, rfl, rfl⟩

/-! ### lines that are put in -/

section
variable {s : Sheet} (hs : s.Wired)
include hs

theorem refreshed_enlarged (id : CellId) (ps : List Position) :
    Refreshed s (s.enlarged id ps) where
  of_cell {j d} hd := by
    rw [show (s.enlarged id ps).cell? j = _ from cell?_enlarge hs j] at hd
    obtain ⟨c, hc, rfl⟩ := Option.map_eq_some_iff.mp hd
    by_cases hj : j = id
    · simp only [if_pos hj]
      exact .inl rfl
    · simp only [if_neg hj]
      refine .inr ⟨c, hc, ?_⟩
      split_ifs
      · exact .attach c id
      · exact .refl c

theorem refreshed_extend {axis : Axis} {index : Nat} (hline : s.Silent axis index) {id : CellId}
    {c : Cell} (hc : s.cell? id = some c) (hid : axis.coord c.position ≠ index)
    {ps : List Position} (hps : ∀ p ∈ ps, axis.coord p = index ∧ s.contains p = true) :
    Refreshed s (s.extend id ps) :=
  (refreshed_enlarged hs id ps).trans (refreshed_notify (wired_enlarge hs hline hc hid hps) id)

end

theorem refreshed_foldl_extend (axis : Axis) (index : Nat) (es : List (CellId × List Position))
    {s : Sheet} (hs : s.Wired) (hline : s.Silent axis index)
    (hes : ∀ e ∈ es, s.Extendable axis index e) :
    Refreshed s (es.foldl (fun s e => s.extend e.1 e.2) s) := by
  induction es generalizing s with
  | nil => exact .refl s
  | cons e es ih =>
    obtain ⟨⟨c, hc, hid⟩, hps⟩ := hes e (List.mem_cons_self ..)
    obtain ⟨hw, hg, hl⟩ := extend_spec hs hline hc hid hps
    exact (refreshed_extend hs hline hc hid hps).trans
      (ih hw hl fun e' he' => hg.extendable (hes e' (List.mem_cons_of_mem _ he')))

section
variable {s t : Sheet} (hs : s.Wired) {axis : Axis} {index : Nat}
include hs

theorem refreshed_openedAt (hindex : index ≤ axis.count s) :
    Refreshed s (s.openedAt axis index) where
  of_cell {j d} hd := by
    cases hc : s.cell? j with
    | none =>
      rw [((opened_openedAt hs axis index hindex).new hc hd).2]
      exact .inl rfl
    | some c =>
      rw [cell?_openedAt hs axis index hc] at hd
      obtain rfl := Option.some.inj hd
      by_cases hms : s.openingMoves axis index j = []
      · rw [hms]
        exact .inr ⟨c, rfl, rfl, rfl, rfl⟩
      · exact .inl (Cell.shown_followAll hms)

theorem refreshed_insertLine (h : s.insertLine axis index = .ok t) : Refreshed s t := by
  obtain ⟨hindex, rfl⟩ := insertLine_eq_ok.mp h
  have hu := wired_openedAt hs axis index hindex
  have hline := silent_openedAt hs hindex
  exact (refreshed_openedAt hs hindex).trans
    (refreshed_foldl_extend axis index _ hu hline fun e he => extendable_of_mem hu hline he)

/-! ### lines that are taken out -/

theorem refreshed_deleteLine (h : s.deleteLine axis index = .ok t) : Refreshed s t where
  of_cell {j d} hd := by
    obtain ⟨c, _, hc, hne, -⟩ := (deleteLine_spec hs h).2.of_cell hd
    have hline : ¬s.OnLine axis index j := (onLine_iff hc).not.mpr hne
    by_cases ho : s.Orphaned axis index j
    · rw [cell?_deleteLine_of_orphaned hs h hc hline ho] at hd
      obtain rfl := Option.some.inj hd
      exact .inl rfl
    · rw [cell?_deleteLine_of_kept hs h hc hline ho] at hd
      obtain rfl := Option.some.inj hd
      by_cases hms : s.closingMoves axis index j = []
      · refine .inr ⟨c, hc, ?_⟩
        rw [closedCell, hms]
        exact ⟨rfl, rfl, rfl⟩
      · exact .inl (Cell.shown_followAll hms)

end

/-! ## every operation -/

/-- The cell `i` is `d` after the operation `o` on `s`: it is evaluated or has its old content, and
only the cell that is written to may show the fault instead, with the new text and nothing seen, or
with its old text and what that has seen. -/
inductive Accounted (s : Sheet) (o : Operation) (i : CellId) (d : Cell) : Prop
  | evaluated (h : d.shown = evaluate d.raw d.snapshot)
  | unchanged {c : Cell} (hc : s.cell? i = some c) (h : c.SameContent d)
  | rejected {p : Position} {content : Text} {f : Fault} (ho : o = .set p content)
      (hi : s.idAt? p = some i) (ht : s.targets p content = .error f) (hraw : d.raw = content)
      (hsnap : d.snapshot = ∅) (hshown : d.shown = f.text)
  | refused {p : Position} {content : Text} {c : Cell} (ho : o = .set p content)
      (hi : s.idAt? p = some i) (hno : s.RefusedAsCircular p content) (hc : s.cell? i = some c)
      (hraw : d.raw = c.raw) (hsnap : d.snapshot = c.snapshot)
      (hshown : d.shown = Fault.circularReference.text)

theorem Refreshed.accounted {s t : Sheet} (h : Refreshed s t) (o : Operation) {i : CellId}
    {d : Cell} (hd : t.cell? i = some d) : s.Accounted o i d := by
  rcases h.of_cell hd with heval | ⟨c, hc, hsame⟩
  · exact .evaluated heval
  · exact .unchanged hc hsame

section
variable {s : Sheet} (hs : s.Wired) {i : CellId} {d : Cell}
include hs

section
variable {id : CellId} {c : Cell} (hc : s.cell? id = some c) {content : Text}
include hc

theorem accounted_reject {f : Fault} (ht : s.targets c.position content = .error f)
    (hd : ((s.reject id content f).notify id).cell? i = some d) :
    s.Accounted (.set c.position content) i d := by
  rcases (refreshed_notify (wired_reject hs hc content f) id).of_cell hd with h | ⟨e, he, h⟩
  · exact .evaluated h
  · rw [cell?_reject hs hc] at he
    obtain ⟨b, hb, rfl⟩ := Option.map_eq_some_iff.mp he
    by_cases hi : i = id
    · simp only [if_pos hi] at h
      exact .rejected rfl (hi ▸ hs.idAt?_position hc) ht h.raw h.snapshot h.shown
    · simp only [if_neg hi] at h
      exact .unchanged hb ⟨h.raw, h.snapshot, h.shown⟩

theorem refreshed_rewire (ps : List Position) : Refreshed s (s.rewire id content ps) where
  of_cell {j e} he := by
    obtain ⟨b, hb, -⟩ := Option.map_eq_some_iff.mp
      ((cell?_rewire hs hc content ps j).symm.trans he)
    obtain ⟨e', he', -, hshown, hraw, hsnap⟩ := exists_cell_rewire hs hc content ps hb
    obtain rfl := Option.some.inj (he.symm.trans he')
    by_cases hj : j = id
    · rw [if_pos hj] at hshown hraw hsnap
      exact .inl (by rw [hshown, hraw, hsnap])
    · rw [if_neg hj] at hshown hraw hsnap
      exact .inr ⟨b, hb, hraw, hsnap, hshown⟩

end

theorem accounted_set {p : Position} {content : Text}
    (hd : (s.set p content).cell? i = some d) : s.Accounted (.set p content) i d := by
  revert hd
  refine set_cases hs (motive := fun t => t.cell? i = some d → s.Accounted (.set p content) i d)
    (fun _ hd => ?_) (fun {id c f} hc hp ht hd => ?_) (fun {id c ps} hc hp ht hcyc hd => ?_)
    fun {id c ps} hc hp ht hcyc hd => ?_
  · exact .unchanged hd (.refl d)
  · subst hp
    exact accounted_reject hs hc ht hd
  · rw [cell?_modify] at hd
    by_cases hi : i = id
    · rw [if_pos hi] at hd
      obtain ⟨b, hb, rfl⟩ := Option.map_eq_some_iff.mp hd
      exact .refused rfl (hi ▸ hp ▸ hs.idAt?_position hc) ⟨ps, ht, hcyc⟩ hb rfl rfl rfl
    · rw [if_neg hi] at hd
      exact .unchanged hd (.refl d)
  · subst hp
    have hfresh := (refreshed_rewire hs hc ps).trans
      (refreshed_notify (wired_rewire hs hc ht hcyc) id)
    exact hfresh.accounted _ hd

/-- the empty content is neither rejected nor refused -/
theorem accounted_clear {p : Position} (hd : (s.clear p).cell? i = some d) :
    s.Accounted (.clear p) i d := by
  have hset : s.Accounted (.set p []) i d := accounted_set hs hd
  cases hset with
  | evaluated h => exact .evaluated h
  | unchanged hc h => exact .unchanged hc h
  | rejected ho hi ht hraw hsnap hshown => cases ho; cases ht
  | refused ho hi hno hc hraw hsnap hshown =>
    cases ho
    exact absurd hno (s.not_refusedAsCircular_nil p)

theorem accounted_apply (o : Operation) (hd : (s.apply o).cell? i = some d) :
    s.Accounted o i d := by
  cases o with
  | set p content => exact accounted_set hs hd
  | clear p => exact accounted_clear hs hd
  | recolor p color => exact (refreshed_recolor s p color).accounted _ hd
  | insert axis index =>
    have hfresh : Refreshed s (s.apply (.insert axis index)) :=
      apply_insert (.refl s) fun _ ht => refreshed_insertLine hs ht
    exact hfresh.accounted _ hd
  | delete axis index =>
    have hfresh : Refreshed s (s.apply (.delete axis index)) :=
      apply_delete (.refl s) fun _ ht => refreshed_deleteLine hs ht
    exact hfresh.accounted _ hd

end

/-! ## every run -/

theorem evaluated_or_circular {s : Sheet} (h : s.Reachable) {i : CellId} {c : Cell}
    (hc : s.cell? i = some c) : c.Evaluated ∨ c.shown = Fault.circularReference.text := by
  induction h generalizing c with
  | blank width height color => exact .inl ((consistent_blank width height color).evaluated i c hc)
  | step o h _ ih =>
    cases accounted_apply h.wired o hc with
    | evaluated heval => exact .inl (.inl heval)
    | unchanged hb hsame =>
      rw [Cell.Evaluated, hsame.shown, hsame.raw, hsame.snapshot]
      exact ih hb
    | rejected _ _ ht _ hsnap hshown =>
      obtain rfl | rfl := fault_of_targets ht
      · exact .inl (.inr ⟨hsnap, .inl hshown⟩)
      · exact .inl (.inr ⟨hsnap, .inr hshown⟩)
    | refused _ _ _ _ _ _ hshown => exact .inr hshown

/-- In every sheet that a run leads to, a cell shows the value of its text with what it has seen, or
that its text may not be wired, and then it has seen nothing, or that a text was refused.  An
operation leaves no cell with another text or other values seen than before that has not been
evaluated since, but for the cell whose new text may not be wired. -/
theorem accounted_for {s : Sheet} (h : s.Reachable) :
    (∀ i c, s.cell? i = some c → c.shown = evaluate c.raw c.snapshot ∨
      ((c.shown = Fault.invalidPosition.text ∨ c.shown = Fault.invalidPositions.text) ∧
        c.snapshot = ∅) ∨ c.shown = Fault.circularReference.text) ∧
    ∀ o i d, (s.apply o).cell? i = some d → s.Accounted o i d := by
  refine ⟨fun i c hc => ?_, fun o i d hd => accounted_apply h.wired o hd⟩
  rcases evaluated_or_circular h hc with (heval | ⟨hsnap, hfault⟩) | hcirc
  · exact .inl heval
  · exact .inr (.inl ⟨hfault, hsnap⟩)
  · exact .inr (.inr hcirc)

/-- `B1` reads `A1`, which may not read `B1` then, and `C1` may not read `Z9` -/
theorem accounted_for_b1 : ∃ s : Sheet, s.Reachable ∧ s.rawAt? ⟨0, 0⟩ = some "5".toList ∧
    s.shownAt? ⟨0, 0⟩ = some Fault.circularReference.text ∧
    s.shownAt? ⟨0, 2⟩ = some Fault.invalidPosition.text ∧
    (∀ i c, s.cell? i = some c → c.shown = evaluate c.raw c.snapshot ∨
      ((c.shown = Fault.invalidPosition.text ∨ c.shown = Fault.invalidPositions.text) ∧
        c.snapshot = ∅) ∨ c.shown = Fault.circularReference.text) ∧
    ∀ i d, (s.apply (.insert .row 0)).cell? i = some d → s.Accounted (.insert .row 0) i d := by
  have h : Reachable (((((blank 3 1 []).apply (.set ⟨0, 0⟩ "5".toList)).apply
      (.set ⟨0, 1⟩ "=REF(A1)".toList)).apply (.set ⟨0, 0⟩ "=REF(B1)".toList)).apply
      (.set ⟨0, 2⟩ "=REF(Z9)".toList)) :=
    .step _ (.step _ (.step _ (.step _ (.blank 3 1 []) trivial) trivial) trivial) trivial
  obtain ⟨hcells, hstep⟩ := accounted_for h
  exact ⟨_, h, by decide +kernel, by decide +kernel, by decide +kernel, hcells,
    hstep (.insert .row 0)⟩

end Sheet

end Worksheet
