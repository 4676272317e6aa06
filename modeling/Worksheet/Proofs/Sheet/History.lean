import Worksheet.Proofs.Sheet.Outcomes

/-!
# Sheets without a memory of how they were written

* `Sheet.Accepted`     the operations that write content, and are not refused as circular;
* `Sheet.Settled`      what a cell reads and shows follows from its text and from what others show;
* `Sheet.settled_set`  a write that is not refused keeps a sheet settled;
* `Sheet.snapshot_eq`  cells that read the same have seen the same, if it shows the same;
* `Sheet.cellAt?_eq`   two settled sheets with the same texts show and have seen the same;
* `Sheet.history_independent` so do two runs that leave the same texts.

A text alone says what its cell reads, so two settled sheets with the same texts have the same
edges.  Values are then compared along these edges, what is read before what reads it.
-/

namespace Worksheet

namespace Sheet

/-! ## settled cells -/

/-- a cell with content that may not be wired shows the fault, and any other reads what its content
names and shows what follows from that -/
def SettledCell (s : Sheet) (c : Cell) : Prop :=
  match s.targets c.position c.raw with
  | .error f => c.snapshot = ∅ ∧ c.shown = f.text
  | .ok ps => (∀ q, q ∈ c.snapshot.keys ↔ q ∈ ps) ∧ c.shown = evaluate c.raw c.snapshot

def Settled (s : Sheet) : Prop := ∀ i c, s.cell? i = some c → s.SettledCell c

theorem targets_congr {s t : Sheet} (hrows : t.rows = s.rows) (hcols : t.cols = s.cols) :
    t.targets = s.targets := by
  funext origin content
  rw [targets, targets, hrows, hcols]

theorem SameFrame.targets {s t : Sheet} (h : SameFrame s t) : t.targets = s.targets :=
  targets_congr (congrArg List.length h.grid) h.width

section
variable {s : Sheet} {c : Cell}

theorem settledCell_of_error {f : Fault} (h : s.targets c.position c.raw = .error f) :
    s.SettledCell c ↔ c.snapshot = ∅ ∧ c.shown = f.text := by
  rw [SettledCell, h]

theorem settledCell_of_ok {ps : List Position} (h : s.targets c.position c.raw = .ok ps) :
    s.SettledCell c ↔
      (∀ q, q ∈ c.snapshot.keys ↔ q ∈ ps) ∧ c.shown = evaluate c.raw c.snapshot := by
  rw [SettledCell, h]

theorem SettledCell.congr {t : Sheet} {d : Cell} (h : s.SettledCell c) (ht : SameFrame s t)
    (hposition : d.position = c.position) (hraw : d.raw = c.raw)
    (hsnapshot : d.snapshot = c.snapshot) (hshown : d.shown = c.shown) : t.SettledCell d := by
  rwa [SettledCell, ht.targets, hposition, hraw, hsnapshot, hshown]

end

theorem settled_blank (width height : Nat) (color : Text) :
    (blank width height color).Settled := by
  intro i c hc
  obtain ⟨hk, _, hr, hv⟩ := cell_of_blank _ _ _ hc
  have ht : (blank width height color).targets c.position c.raw = .ok [] := by rw [hr]; rfl
  rw [settledCell_of_ok ht, hk, hr, hv]
  exact ⟨fun _ => Iff.rfl, rfl⟩

/-! ## writes -/

theorem settled_notify {s : Sheet} (hs : s.Wired) (h : s.Settled) {id : CellId} {e : Cell}
    (he : s.cell? id = some e) : (s.notify id).Settled := by
  intro i d hd
  have hspread := spread_notify hs he
  obtain ⟨c, hc, ho⟩ := hspread.alike.cell hd
  have hposition : d.position = c.position := (congrArg Outline.position ho).symm
  have hraw : d.raw = c.raw := (congrArg Outline.raw ho).symm
  have hkeys : d.snapshot.keys = c.snapshot.keys := (congrArg Outline.keys ho).symm
  have hcell := h i c hc
  have ht : (s.notify id).targets d.position d.raw = s.targets c.position c.raw := by
    rw [hspread.alike.targets, hposition, hraw]
  cases htc : s.targets c.position c.raw with
  | error f =>
    -- a cell that reads nothing is not told
    have hnot : ¬s.ReadsOn i id := fun hon => by
      obtain ⟨j, ⟨b, hb, hi⟩, _⟩ := Relation.TransGen.head'_iff.mp hon
      have hmem := (hs.mem_keys_iff hc hb).mpr hi
      rw [((settledCell_of_error htc).mp hcell).1] at hmem
      cases hmem
    rw [hspread.cell?_eq i hnot, hc] at hd
    obtain rfl := Option.some.inj hd
    exact hcell.congr hspread.alike.toSameFrame rfl rfl rfl rfl
  | ok ps =>
    obtain ⟨hmem, hshown⟩ := (settledCell_of_ok htc).mp hcell
    refine (settledCell_of_ok (ht.trans htc)).mpr ⟨fun q => by rw [hkeys, hmem], ?_⟩
    rcases hspread.evaluated hd with hold | hnew
    · rw [hc] at hold
      rwa [← Option.some.inj hold]
    · exact hnew

theorem settled_set {s : Sheet} (hs : s.Wired) (h : s.Settled) {p : Position} {content : Text}
    (hno : ¬s.RefusedAsCircular p content) : (s.set p content).Settled := by
  refine set_cases hs (motive := Settled) (fun _ => h) (fun {id c f} hc hp ht => ?_)
    (fun _ _ ht hcyc => absurd ⟨_, ht, hcyc⟩ hno) fun {id c ps} hc hp ht hcyc => ?_
  · have hframe := (rewired_reject hs hc content f).toSameFrame
    refine settled_notify (wired_reject hs hc content f) (fun i d hd => ?_)
      ((cell?_reject hs hc content f id).trans (congrArg _ hc))
    rw [cell?_reject hs hc] at hd
    obtain ⟨b, hb, rfl⟩ := Option.map_eq_some_iff.mp hd
    by_cases hi : i = id
    · subst hi hp
      obtain rfl := Option.some.inj (hc.symm.trans hb)
      rw [if_pos rfl]
      refine (settledCell_of_error (f := f) ?_).mpr ⟨rfl, rfl⟩
      rw [hframe.targets]
      exact ht
    · rw [if_neg hi]
      exact (h i b hb).congr hframe rfl rfl rfl rfl
  · subst hp
    have hin : ∀ q ∈ ps, s.contains q = true := fun _ hq => inside_of_mem_targets ht hq
    have hframe := (rewired_rewire hs hc content hin).toSameFrame
    refine settled_notify (wired_rewire hs hc ht hcyc) (fun i d hd => ?_)
      ((cell?_rewire hs hc content ps id).trans (congrArg _ hc))
    obtain ⟨b, hb, _⟩ := (rewired_rewire hs hc content hin).of_cell hd
    obtain ⟨d', hd', hposition, hshown, hraw, hsnapshot⟩ := exists_cell_rewire hs hc content ps hb
    obtain rfl := Option.some.inj (hd.symm.trans hd')
    by_cases hi : i = id
    · subst hi
      obtain rfl := Option.some.inj (hc.symm.trans hb)
      rw [if_pos rfl] at hshown hraw hsnapshot
      have htd : (s.rewire i content ps).targets d.position d.raw = .ok ps := by
        rw [hframe.targets, hposition, hraw, ht]
      refine (settledCell_of_ok htd).mpr ⟨fun q => ?_, by rw [hshown, hraw, hsnapshot]⟩
      rw [hsnapshot, mem_keys_seed hs hin]
    · rw [if_neg hi] at hshown hraw hsnapshot
      exact (h i b hb).congr hframe hposition hraw hsnapshot hshown

/-! ## runs -/

/-- content is written, and not refused as circular, or cleared -/
def Accepted (s : Sheet) : Operation → Prop
  | .set p content => ¬s.RefusedAsCircular p content
  | .clear _ => True
  | _ => False

theorem consistent_and_settled {s : Sheet} (h : ReachableBy Accepted s) :
    s.Consistent ∧ s.Settled := by
  induction h with
  | blank width height color =>
    exact ⟨consistent_blank width height color, settled_blank width height color⟩
  | @step s o _ ho ih =>
    have hset : ∀ p content, ¬s.RefusedAsCircular p content →
        (s.set p content).Consistent ∧ (s.set p content).Settled := fun p content hno => by
      refine ⟨?_, settled_set ih.1.reachable.wired ih.2 hno⟩
      cases hid : s.idAt? p with
      | none => rw [set_of_outside hid]; exact ih.1
      | some id =>
        obtain ⟨c, hc, rfl⟩ := ih.1.reachable.wired.idAt?_iff.mp hid
        refine consistent_set ih.1 ?_ hno
        rw [← idAt?_isSome ih.1.reachable.wired.rows_length, hid]
        rfl
    cases o with
    | set p content => exact hset p content ho
    | clear p => exact hset p [] (s.not_refusedAsCircular_nil p)
    | recolor p color => exact ho.elim
    | insert axis index => exact ho.elim
    | delete axis index => exact ho.elim

/-! ## sheets with the same texts -/

theorem rawAt?_eq_rawRows {s : Sheet} (hs : s.Placed) (p : Position) :
    s.rawAt? p = s.rawRows[p.row]?.bind fun row => row[p.col]? := by
  rw [rawRows, List.getElem?_map]
  cases hrow : s.grid[p.row]? with
  | none =>
    rw [rawAt?, cellAt?, idAt?, hrow]
    rfl
  | some ids =>
    rw [Option.map_some, Option.bind_some, List.getElem?_map, rawAt?, cellAt?]
    have hid : s.idAt? p = ids[p.col]? := by rw [idAt?, hrow]; rfl
    rw [hid]
    cases hi : ids[p.col]? with
    | none => rfl
    | some i =>
      obtain ⟨c, hc, _⟩ := hs.idAt?_iff.mp (hid.trans hi)
      rw [Option.bind_some, Option.map_some, hc]
      rfl

section
variable {s t : Sheet} (hs : s.Wired) (ht : t.Wired) (hraw : ∀ p, t.rawAt? p = s.rawAt? p)
include hs ht hraw

theorem raw_eq_of_rawAt? {i j : CellId} {c d : Cell} (hc : s.cell? i = some c)
    (hd : t.cell? j = some d) (hposition : d.position = c.position) : d.raw = c.raw := by
  have h := hraw c.position
  rw [rawAt?, rawAt?, hs.cellAt?_position hc, ← hposition, ht.cellAt?_position hd] at h
  exact Option.some.inj h

theorem exists_cell_of_rawAt? {i : CellId} {c : Cell} (hc : s.cell? i = some c) :
    ∃ j d, t.cell? j = some d ∧ d.position = c.position := by
  have h := hraw c.position
  rw [rawAt?, rawAt?, hs.cellAt?_position hc] at h
  obtain ⟨d, hd, _⟩ := Option.map_eq_some_iff.mp h
  exact (ht.cellAt?_eq_some.mp hd).imp fun j hj => ⟨d, hj⟩

variable (hin : s.InStep ∧ t.InStep)

include hin in
/-- cells that read the same positions have seen the same, if what stands there shows the same -/
theorem snapshot_eq {i j : CellId} {c d : Cell} (hc : s.cell? i = some c) (hd : t.cell? j = some d)
    (hkeys : ∀ q, q ∈ d.snapshot.keys ↔ q ∈ c.snapshot.keys)
    (hshown : ∀ k b l e, s.Reads i k → s.cell? k = some b → t.cell? l = some e →
      e.position = b.position → e.shown = b.shown) : d.snapshot = c.snapshot :=
  Snapshot.ext_get? fun q => by
    by_cases hq : q ∈ c.snapshot.keys
    · obtain ⟨v, hv⟩ := Snapshot.mem_keys.mp hq
      obtain ⟨w, hw⟩ := Snapshot.mem_keys.mp ((hkeys q).mpr hq)
      obtain ⟨k, b, _, hb, rfl⟩ := hs.exists_of_contains (hs.key_inside hc hq)
      obtain ⟨l, e, he, hpe⟩ := exists_cell_of_rawAt? hs ht hraw hb
      have hbv := hin.1 i c _ v hc hv
      have hew := hin.2 j d _ w hd hw
      rw [shownAt?, hs.cellAt?_position hb] at hbv
      rw [shownAt?, ← hpe, ht.cellAt?_position he] at hew
      rw [hv, hw, ← hbv, ← hew]
      exact congrArg some (hshown k b l e ((hs.reads_iff hc hb).mpr hq) hb he hpe)
    · rw [Snapshot.get?_eq_none.mpr hq, Snapshot.get?_eq_none, hkeys]
      exact hq

variable (hsettled : s.Settled ∧ t.Settled) (hrows : t.rows = s.rows) (hcols : t.cols = s.cols)
include hsettled hin hrows hcols

/-- two cells with the same text have seen and show the same, if what they read does -/
theorem snapshot_and_shown_eq (i : CellId) : ∀ {c d : Cell} {j : CellId}, s.cell? i = some c →
    t.cell? j = some d → d.position = c.position →
    d.snapshot = c.snapshot ∧ d.shown = c.shown := by
  induction i using induction_reads hs with
  | h i ih =>
    intro c d j hc hd hposition
    have hrawcd := raw_eq_of_rawAt? hs ht hraw hc hd hposition
    have hsc := hsettled.1 i c hc
    have htd := hsettled.2 j d hd
    cases htc : s.targets c.position c.raw with
    | error f =>
      have htd' : t.targets d.position d.raw = .error f := by
        rw [targets_congr hrows hcols, hposition, hrawcd, htc]
      obtain ⟨hck, hcv⟩ := (settledCell_of_error htc).mp hsc
      obtain ⟨hdk, hdv⟩ := (settledCell_of_error htd').mp htd
      exact ⟨hdk.trans hck.symm, hdv.trans hcv.symm⟩
    | ok ps =>
      have htd' : t.targets d.position d.raw = .ok ps := by
        rw [targets_congr hrows hcols, hposition, hrawcd, htc]
      obtain ⟨hck, hcv⟩ := (settledCell_of_ok htc).mp hsc
      obtain ⟨hdk, hdv⟩ := (settledCell_of_ok htd').mp htd
      have hsnapshot := snapshot_eq hs ht hraw hin hc hd (fun q => (hdk q).trans (hck q).symm)
        fun k b l e hr hb he hpe => (ih k hr hb he hpe).2
      exact ⟨hsnapshot, by rw [hdv, hcv, hrawcd, hsnapshot]⟩

/-- the cells at a position show and have seen the same -/
theorem cellAt?_eq (p : Position) :
    (t.cellAt? p).map (fun c => (c.shown, c.snapshot))
      = (s.cellAt? p).map fun c => (c.shown, c.snapshot) := by
  cases hc : s.cellAt? p with
  | none =>
    have h := hraw p
    rw [rawAt?, rawAt?, hc] at h
    rw [Option.map_eq_none_iff.mp h]
  | some c =>
    obtain ⟨i, hci, rfl⟩ := hs.cellAt?_eq_some.mp hc
    obtain ⟨j, d, hd, hposition⟩ := exists_cell_of_rawAt? hs ht hraw hci
    obtain ⟨hsnapshot, hshown⟩ :=
      snapshot_and_shown_eq hs ht hraw hin hsettled hrows hcols i hci hd hposition
    rw [← hposition, ht.cellAt?_position hd, Option.map_some, Option.map_some, hsnapshot, hshown]

end

/-- Two runs that write and clear content, without a refusal, and leave the same texts on sheets of
the same size, leave the same values, seen and shown, and the same readers. -/
theorem history_independent {s t : Sheet} (hs : ReachableBy Accepted s)
    (ht : ReachableBy Accepted t) (hrows : s.rows = t.rows) (hcols : s.cols = t.cols)
    (hraw : s.rawRows = t.rawRows) (p : Position) :
    s.shownAt? p = t.shownAt? p ∧
    (s.cellAt? p).map Cell.snapshot = (t.cellAt? p).map Cell.snapshot ∧
    ∀ q, q ∈ s.observersAt p ↔ q ∈ t.observersAt p := by
  obtain ⟨hsc, hss⟩ := consistent_and_settled hs
  obtain ⟨htc, hts⟩ := consistent_and_settled ht
  have hrawAt : ∀ p, s.rawAt? p = t.rawAt? p := fun p => by
    rw [rawAt?_eq_rawRows hs.wired.toPlaced, rawAt?_eq_rawRows ht.wired.toPlaced, hraw]
  have hcell := cellAt?_eq ht.wired hs.wired hrawAt ⟨htc.inStep, hsc.inStep⟩ ⟨hts, hss⟩ hrows hcols
  have hsnapshot : ∀ p, (s.cellAt? p).map Cell.snapshot = (t.cellAt? p).map Cell.snapshot :=
    fun p => by
      have h := congrArg (Option.map Prod.snd) (hcell p)
      rwa [Option.map_map, Option.map_map] at h
  refine ⟨?_, hsnapshot p, fun q => ?_⟩
  · have h := congrArg (Option.map Prod.fst) (hcell p)
    rwa [Option.map_map, Option.map_map] at h
  · have h := congrArg (Option.map Snapshot.keys) (hsnapshot q)
    rw [Option.map_map, Option.map_map] at h
    have hreads : ∀ u : Sheet, u.readsAt q
        = ((u.cellAt? q).map (Snapshot.keys ∘ Cell.snapshot)).getD [] := fun u => by
      rw [readsAt]
      cases u.cellAt? q <;> rfl
    rw [mem_observersAt hs.wired, mem_observersAt ht.wired, hreads, hreads, h]

/-- `B1` is written before `A1` and after it, where `A1` has read `C1` in between -/
theorem history_independent_b1 : ∃ s t : Sheet, s ≠ t ∧ s.rawRows = t.rawRows ∧
    s.shownAt? ⟨0, 1⟩ = some "5".toList ∧ s.shownAt? ⟨0, 1⟩ = t.shownAt? ⟨0, 1⟩ ∧
    (s.cellAt? ⟨0, 1⟩).map Cell.snapshot = (t.cellAt? ⟨0, 1⟩).map Cell.snapshot ∧
    ∀ q, q ∈ s.observersAt ⟨0, 1⟩ ↔ q ∈ t.observersAt ⟨0, 1⟩ := by
  have step : ∀ {s : Sheet}, ReachableBy Accepted s → ∀ p content ps,
      s.targets p content = .ok ps → s.closesCycle p ps = false →
      ReachableBy Accepted (s.apply (.set p content)) := by
    intro s h p content ps hps hno
    refine .step _ h fun ⟨ps', hps', hcyc⟩ => ?_
    rw [← Except.ok.inj (hps.symm.trans hps'), hno] at hcyc
    cases hcyc
  have h1 := step (.blank 3 1 "white".toList) ⟨0, 1⟩ "=REF(A1)".toList [⟨0, 0⟩] (by decide +kernel)
    (by decide +kernel)
  have hs := step h1 ⟨0, 0⟩ "5".toList [] (by decide +kernel) (by decide +kernel)
  have h2 := step (.blank 3 1 []) ⟨0, 0⟩ "=REF(C1)".toList [⟨0, 2⟩] (by decide +kernel)
    (by decide +kernel)
  have h3 := step h2 ⟨0, 0⟩ "5".toList [] (by decide +kernel) (by decide +kernel)
  have ht := step h3 ⟨0, 1⟩ "=REF(A1)".toList [⟨0, 0⟩] (by decide +kernel) (by decide +kernel)
  exact ⟨_, _, by decide +kernel, by decide +kernel, by decide +kernel,
    history_independent hs ht (by decide +kernel) (by decide +kernel) (by decide +kernel) ⟨0, 1⟩⟩

end Sheet

end Worksheet
