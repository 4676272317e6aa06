import Worksheet.Proofs.Sheet.Consistency
import Worksheet.Proofs.Sheet.Following

/-!
# The three outcomes of a write

* `Sheet.Unwireable`   content of which a call may not be wired;
* `Sheet.Circular`     content that names a position from which the origin is read, or the origin;
* `Sheet.Rejected`, `Sheet.Refused`, `Sheet.Stored`
                       what is left of a write in the two cases and in the third;
* `Sheet.mem_observersAt` readers and positions read, by positions;
* `Sheet.outcome_of_set` which case is which, and that there is no other;
* `Sheet.inStep_set_iff_of_refused`
                       a write that is refused says nothing to the readers of the cell.
-/

namespace Worksheet

namespace Sheet

/-! ## readers and positions read -/

theorem mem_observersAt {s : Sheet} (hs : s.Wired) {p q : Position} :
    q ∈ s.observersAt p ↔ p ∈ s.readsAt q := by
  rw [mem_readsAt hs, observersAt]
  constructor
  · intro h
    cases hp : s.cellAt? p with
    | none => rw [hp] at h; cases h
    | some d =>
      rw [hp] at h
      obtain ⟨j, hd, rfl⟩ := hs.cellAt?_eq_some.mp hp
      obtain ⟨i, hi, hq⟩ := List.mem_filterMap.mp h
      obtain ⟨c, hc, rfl⟩ := Option.map_eq_some_iff.mp hq
      exact ⟨i, c, hc, rfl, (hs.mem_keys_iff hc hd).mpr hi⟩
  · rintro ⟨i, c, hc, rfl, hp⟩
    obtain ⟨j, d, hj, hd, rfl⟩ := hs.exists_of_contains (hs.key_inside hc hp)
    rw [hs.cellAt?_position hd]
    refine List.mem_filterMap.mpr ⟨i, (hs.mem_keys_iff hc hd).mp hp, ?_⟩
    rw [hc]
    rfl

/-! ## cases -/

/-- a call of the content may not be wired -/
def Unwireable (s : Sheet) (origin : Position) (content : Text) : Prop :=
  ∃ call ∈ Call.all .strict content, s.Unfit origin call

/-- the content names the origin, or a position that reads it, directly or through others -/
def Circular (s : Sheet) (origin : Position) (content : Text) : Prop :=
  ∃ q, Named content q ∧ Relation.ReflTransGen (fun p q => q ∈ s.readsAt p) q origin

section
variable {s : Sheet} {origin : Position} {content : Text}

theorem unwireable_iff : s.Unwireable origin content ↔ ∃ f, s.targets origin content = .error f := by
  constructor
  · rintro ⟨call, hcall, hunfit⟩
    cases ht : s.targets origin content with
    | error f => exact ⟨f, rfl⟩
    | ok ps =>
      obtain ⟨qss, hqss, _⟩ := targets_eq_ok.mp ht
      obtain ⟨qs, _, hqs⟩ := exists_of_forall₂_of_mem_left hqss hcall
      rw [call_targets_eq_error.mpr ⟨hunfit, rfl⟩] at hqs
      cases hqs
  · rintro ⟨f, h⟩
    obtain ⟨pre, call, post, hall, _, hunfit, _⟩ := targets_eq_error.mp h
    exact ⟨call, hall ▸ List.mem_append_right _ (List.mem_cons_self ..), hunfit⟩

/-- content that may be wired reads what it names -/
theorem mem_targets_iff {ps : List Position} (h : s.targets origin content = .ok ps)
    {q : Position} : q ∈ ps ↔ Named content q := by
  obtain ⟨qss, hqss, rfl⟩ := targets_eq_ok.mp h
  rw [List.mem_eraseDups, List.mem_flatten]
  constructor
  · rintro ⟨qs, hqs, hq⟩
    obtain ⟨call, hcall, ht⟩ := exists_of_forall₂_of_mem_right hqss hqs
    exact ⟨call, hcall, qs, (Call.positions?_of_targets ht).1, hq⟩
  · rintro ⟨call, hcall, qs, hqs, hq⟩
    obtain ⟨qs', hqs', ht⟩ := exists_of_forall₂_of_mem_left hqss hcall
    obtain rfl := Option.some.inj (hqs.symm.trans (Call.positions?_of_targets ht).1)
    exact ⟨qs, hqs', hq⟩

theorem closesCycle_iff_circular {ps : List Position} (h : s.targets origin content = .ok ps) :
    s.closesCycle origin ps = true ↔ s.Circular origin content := by
  rw [closesCycle_iff, Circular]
  exact exists_congr fun q => and_congr_left fun _ => mem_targets_iff h

theorem refusedAsCircular_iff : s.RefusedAsCircular origin content ↔
    ¬s.Unwireable origin content ∧ s.Circular origin content := by
  rw [unwireable_iff, RefusedAsCircular]
  cases ht : s.targets origin content with
  | error f => exact iff_of_false (fun ⟨_, h, _⟩ => by cases h) fun h => h.1 ⟨f, rfl⟩
  | ok ps =>
    rw [← closesCycle_iff_circular ht]
    constructor
    · rintro ⟨ps', h, hcyc⟩
      obtain rfl := Except.ok.inj h
      exact ⟨fun ⟨_, h⟩ => (by cases h), hcyc⟩
    · rintro ⟨_, hcyc⟩
      exact ⟨ps, rfl, hcyc⟩

end

/-! ## results -/

theorem refusal_eq (c : Call) :
    c.refusal = if c.shape = .single then .invalidPosition else .invalidPositions := by
  rw [Call.refusal]
  cases c.shape <;> rfl

/-- the texts and the positions read are the same elsewhere -/
def SameElsewhere (s : Sheet) (origin : Position) (t : Sheet) : Prop :=
  ∀ q, q ≠ origin → t.rawAt? q = s.rawAt? q ∧ t.readsAt q = s.readsAt q

/-- the content stands there without being read from, and the fault of its first call that may not
be wired is shown -/
structure Rejected (s : Sheet) (origin : Position) (content : Text) (t : Sheet) : Prop where
  cell : ∃ c, t.cellAt? origin = some c ∧ c.raw = content ∧ c.snapshot = ∅ ∧
    ∃ pre call post, Call.all .strict content = pre ++ call :: post ∧
      (∀ d ∈ pre, ¬s.Unfit origin d) ∧ s.Unfit origin call ∧
      c.shown = (if call.shape = .single then Fault.invalidPosition else .invalidPositions).text
  unheard : ∀ p, origin ∉ t.observersAt p
  elsewhere : s.SameElsewhere origin t

/-- nothing has changed but what one cell shows -/
structure Refused (s : Sheet) (origin : Position) (t : Sheet) : Prop extends SameFrame s t where
  cell : ∀ id, t.cell? id = (s.cell? id).map fun c =>
    if c.position = origin then { c with shown := Fault.circularReference.text } else c

/-- the content reads what it names, with the values shown there, and is evaluated -/
structure Stored (s : Sheet) (origin : Position) (content : Text) (t : Sheet) : Prop where
  cell : ∃ c, t.cellAt? origin = some c ∧ c.raw = content ∧
    (∀ q, q ∈ c.snapshot.keys ↔ Named content q) ∧
    (∀ q ∈ c.snapshot.keys, c.snapshot.get? q = s.shownAt? q ∧ t.shownAt? q = s.shownAt? q) ∧
    c.shown = evaluate content c.snapshot
  elsewhere : s.SameElsewhere origin t

/-- a cell does not hear of its own notification -/
theorem cell?_notify_self {s : Sheet} (hs : s.Wired) (id : CellId) :
    (s.notify id).cell? id = s.cell? id := by
  cases hc : s.cell? id with
  | none =>
    have h := (alike_notify hs id).outline id
    rw [hc] at h
    exact Option.map_eq_none_iff.mp h
  | some c => rw [(spread_notify hs hc).cell?_eq id (hs.acyclic id), hc]

section
variable {s : Sheet} (hs : s.Wired) {id : CellId} {c : Cell} (hc : s.cell? id = some c)
include hs hc

theorem sameElsewhere_of_cell? {t : Sheet} (hframe : SameFrame s t)
    (hcell : ∀ j d, j ≠ id → s.cell? j = some d →
      ∃ e, t.cell? j = some e ∧ e.raw = d.raw ∧ e.snapshot.keys = d.snapshot.keys) :
    s.SameElsewhere c.position t := by
  intro q hq
  rw [rawAt?, rawAt?, readsAt, readsAt, cellAt?, cellAt?, hframe.idAt?]
  cases hj : s.idAt? q with
  | none => exact ⟨rfl, rfl⟩
  | some j =>
    obtain ⟨d, hd, rfl⟩ := hs.idAt?_iff.mp hj
    have hne : j ≠ id := fun e => hq (by rw [e, hc] at hd; rw [Option.some.inj hd])
    obtain ⟨e, he, hraw, hkeys⟩ := hcell j d hne hd
    rw [Option.bind_some, Option.bind_some, he, hd]
    exact ⟨congrArg some hraw, hkeys⟩

theorem rejected_of_targets {content : Text} {f : Fault}
    (h : s.targets c.position content = .error f) :
    s.Rejected c.position content (s.set c.position content) := by
  have hu := wired_reject hs hc content f
  have hframe := (rewired_reject hs hc content f).toSameFrame
  have hal := alike_notify hu id
  have hself : (s.set c.position content).cellAt? c.position
      = some { c.forget.detach id with raw := content, shown := f.text } := by
    rw [set_of_error (hs.idAt?_position hc) h, cellAt?, hal.idAt?, hframe.idAt?,
      hs.idAt?_position hc, Option.bind_some, cell?_notify_self hu, cell?_reject hs hc, hc]
    exact congrArg some (if_pos rfl)
  refine ⟨⟨_, hself, rfl, rfl, ?_⟩, fun p => ?_, ?_⟩
  · obtain ⟨pre, call, post, hall, hpre, hunfit, rfl⟩ := targets_eq_error.mp h
    exact ⟨pre, call, post, hall, hpre, hunfit, congrArg Fault.text (refusal_eq call)⟩
  · rw [mem_observersAt (wired_set hs c.position content), readsAt, hself]
    exact List.not_mem_nil
  · rw [set_of_error (hs.idAt?_position hc) h]
    refine sameElsewhere_of_cell? hs hc (hframe.trans hal.toSameFrame) fun j d hj hd => ?_
    have hcell : (s.reject id content f).cell? j = some (d.detach id) :=
      (cell?_reject hs hc content f j).trans ((congrArg _ hd).trans (congrArg some (if_neg hj)))
    obtain ⟨e, he, ho⟩ := hal.symm.cell hcell
    exact ⟨e, he, congrArg Outline.raw ho, congrArg Outline.keys ho⟩

theorem refused_of_closesCycle {content : Text} {ps : List Position}
    (h : s.targets c.position content = .ok ps) (hcyc : s.closesCycle c.position ps = true) :
    s.Refused c.position (s.set c.position content) := by
  rw [set_of_closesCycle (hs.idAt?_position hc) h hcyc]
  refine ⟨sameFrame_modify .., fun j => ?_⟩
  rw [cell?_modify]
  cases hd : s.cell? j with
  | none => exact ite_self none
  | some d =>
    by_cases hj : j = id
    · subst hj
      obtain rfl := Option.some.inj (hc.symm.trans hd)
      rw [if_pos rfl, Option.map_some, Option.map_some, if_pos rfl]
    · rw [if_neg hj, Option.map_some, if_neg fun e => hj (hs.eq_of_position hd hc e)]

theorem exists_cell_rewire (content : Text) (ps : List Position) {j : CellId} {d : Cell}
    (hd : s.cell? j = some d) : ∃ e, (s.rewire id content ps).cell? j = some e ∧
      e.position = d.position ∧
      e.shown = (if j = id then evaluate content (s.seed ps) else d.shown) ∧
      e.raw = (if j = id then content else d.raw) ∧
      e.snapshot = if j = id then s.seed ps else d.snapshot := by
  refine ⟨_, (cell?_rewire hs hc content ps j).trans (congrArg _ hd), ?_⟩
  by_cases hj : j = id
  · simp only [if_pos hj, Cell.attach_eq]
    split_ifs <;> exact ⟨rfl, rfl, rfl, rfl⟩
  · simp only [if_neg hj, Cell.attach_eq]
    split_ifs <;> exact ⟨rfl, rfl, rfl, rfl⟩

theorem stored_of_not_closesCycle {content : Text} {ps : List Position}
    (h : s.targets c.position content = .ok ps) (hcyc : s.closesCycle c.position ps = false) :
    s.Stored c.position content (s.set c.position content) := by
  have hin : ∀ q ∈ ps, s.contains q = true := fun _ hq => inside_of_mem_targets h hq
  have hu := wired_rewire hs hc h hcyc
  have hframe := (rewired_rewire hs hc content hin).toSameFrame
  have hal := alike_notify hu id
  obtain ⟨e, he, _, hshown, hraw, hsnap⟩ := exists_cell_rewire hs hc content ps hc
  rw [if_pos rfl] at hshown hraw hsnap
  rw [set_of_not_closesCycle (hs.idAt?_position hc) h hcyc]
  refine ⟨⟨e, ?_, hraw, fun q => ?_, fun q hq => ?_, hsnap ▸ hshown⟩, ?_⟩
  · rw [cellAt?, hal.idAt?, hframe.idAt?, hs.idAt?_position hc, Option.bind_some,
      cell?_notify_self hu, he]
  · rw [hsnap, mem_keys_seed hs hin, mem_targets_iff h]
  · rw [hsnap, mem_keys_seed hs hin] at hq
    obtain ⟨j, d, hj, hd, rfl⟩ := hs.exists_of_contains (hin q hq)
    refine ⟨by rw [hsnap, get?_seed, if_pos hq], ?_⟩
    -- a position that the content names does not read the cell, so it is not told
    obtain ⟨e', he', hpos, hshown', _⟩ := exists_cell_rewire hs hc content ps hd
    have hreads : (s.rewire id content ps).Reads id j :=
      (hu.reads_iff he he').mpr (by rwa [hpos, hsnap, mem_keys_seed hs hin])
    have hnot : ¬(s.rewire id content ps).ReadsOn j id := fun hon => hu.acyclic j (hon.tail hreads)
    rw [shownAt?, shownAt?, cellAt?, cellAt?, hal.idAt?, hframe.idAt?, hj, Option.bind_some,
      Option.bind_some, (spread_notify hu he).cell?_eq j hnot, he', hd]
    exact congrArg some (hshown'.trans (if_neg (hu.ne_of_reads hreads).symm))
  · refine sameElsewhere_of_cell? hs hc (hframe.trans hal.toSameFrame) fun j d hj hd => ?_
    obtain ⟨e, he, _, _, hraw, hsnap⟩ := exists_cell_rewire hs hc content ps hd
    obtain ⟨e', he', ho⟩ := hal.symm.cell he
    rw [if_neg hj] at hraw hsnap
    exact ⟨e', he', (congrArg Outline.raw ho).trans hraw,
      (congrArg Outline.keys ho).trans (congrArg Snapshot.keys hsnap)⟩

end

/-! ## the outcome -/

/-- A write outside of the sheet does nothing.  Inside, it is rejected exactly if a call may not be
wired, otherwise refused exactly if it would close a cycle, and otherwise stored. -/
theorem outcome_of_set {s : Sheet} (h : s.Reachable) (origin : Position) (content : Text) :
    (s.contains origin = false → s.set origin content = s) ∧
    (s.contains origin = true →
      ((∃ f, s.targets origin content = .error f) ↔ s.Unwireable origin content) ∧
      (s.RefusedAsCircular origin content ↔
        ¬s.Unwireable origin content ∧ s.Circular origin content) ∧
      (s.Unwireable origin content → s.Rejected origin content (s.set origin content)) ∧
      (¬s.Unwireable origin content → s.Circular origin content →
        s.Refused origin (s.set origin content)) ∧
      (¬s.Unwireable origin content → ¬s.Circular origin content →
        s.Stored origin content (s.set origin content))) := by
  have hs := h.wired
  refine ⟨fun hout => set_of_outside ?_ content, fun hin => ?_⟩
  · rw [← Option.isNone_iff_eq_none, ← Option.isSome_eq_false_iff, idAt?_isSome hs.rows_length, hout]
  obtain ⟨id, c, hid, hc, rfl⟩ := hs.exists_of_contains hin
  refine ⟨unwireable_iff.symm, refusedAsCircular_iff, fun hun => ?_, fun hun hcirc => ?_,
    fun hun hcirc => ?_⟩
  · obtain ⟨f, hf⟩ := unwireable_iff.mp hun
    exact rejected_of_targets hs hc hf
  · obtain ⟨ps, hps, hcyc⟩ := refusedAsCircular_iff.mpr ⟨hun, hcirc⟩
    exact refused_of_closesCycle hs hc hps hcyc
  · cases hps : s.targets c.position content with
    | error f => exact absurd (unwireable_iff.mpr ⟨f, hps⟩) hun
    | ok ps =>
      refine stored_of_not_closesCycle hs hc hps ?_
      rw [← Bool.not_eq_true, closesCycle_iff_circular hps]
      exact hcirc

/-- `B1` reads `A1`, which may read `C1` and no cell outside of the sheet, and not `B1` -/
theorem outcome_of_set_a1 : ∃ s : Sheet, s.Reachable ∧ s.set ⟨1, 0⟩ "5".toList = s ∧
    s.Rejected ⟨0, 0⟩ "=REF(C1)+SUM(B1, Z9)".toList
      (s.set ⟨0, 0⟩ "=REF(C1)+SUM(B1, Z9)".toList) ∧
    s.Refused ⟨0, 0⟩ (s.set ⟨0, 0⟩ "=SUM(B1:C1)".toList) ∧
    s.Stored ⟨0, 0⟩ "=REF(C1)".toList (s.set ⟨0, 0⟩ "=REF(C1)".toList) := by
  have h : Reachable ((blank 3 1 []).apply (.set ⟨0, 1⟩ "=REF(A1)".toList)) :=
    .step _ (.blank 3 1 []) trivial
  have outcome := fun content =>
    (outcome_of_set h ⟨0, 0⟩ content).2 (by decide +kernel)
  obtain ⟨herror, _, hrejected, _⟩ := outcome "=REF(C1)+SUM(B1, Z9)".toList
  obtain ⟨_, hcircular, _, hrefused, _⟩ := outcome "=SUM(B1:C1)".toList
  obtain ⟨herror', hcircular', _, _, hstored⟩ := outcome "=REF(C1)".toList
  have hno := hcircular.mp ⟨[⟨0, 1⟩, ⟨0, 2⟩], by decide +kernel, by decide +kernel⟩
  have ht : Sheet.targets ((blank 3 1 []).apply (.set ⟨0, 1⟩ "=REF(A1)".toList)) ⟨0, 0⟩
      "=REF(C1)".toList = .ok [⟨0, 2⟩] := by decide +kernel
  have hun : ¬Unwireable _ ⟨0, 0⟩ "=REF(C1)".toList := fun hun => by
    obtain ⟨f, hf⟩ := herror'.mpr hun
    rw [ht] at hf
    cases hf
  refine ⟨_, h, (outcome_of_set h ⟨1, 0⟩ "5".toList).1 (by decide +kernel),
    hrejected (herror.mp ⟨.invalidPositions, by decide +kernel⟩), hrefused hno.1 hno.2,
    hstored hun fun hcirc => ?_⟩
  obtain ⟨ps, hps, hcyc⟩ := hcircular'.mpr ⟨hun, hcirc⟩
  obtain rfl := Except.ok.inj (ht.symm.trans hps)
  exact absurd hcyc (by decide +kernel)

/-! ## what a refusal leaves behind -/

namespace Refused
variable {s t : Sheet} {origin : Position}

theorem of_cell (h : s.Refused origin t) {i : CellId} {d : Cell} (hd : t.cell? i = some d) :
    ∃ c, s.cell? i = some c ∧ d.snapshot = c.snapshot := by
  rw [h.cell] at hd
  obtain ⟨c, hc, rfl⟩ := Option.map_eq_some_iff.mp hd
  exact ⟨c, hc, by split_ifs <;> rfl⟩

theorem exists_cell (h : s.Refused origin t) {i : CellId} {c : Cell} (hc : s.cell? i = some c) :
    ∃ d, t.cell? i = some d ∧ d.snapshot = c.snapshot := by
  refine ⟨_, (h.cell i).trans (congrArg _ hc), ?_⟩
  dsimp only
  split_ifs <;> rfl

theorem shownAt? (h : s.Refused origin t) (hs : s.Placed) (q : Position) :
    t.shownAt? q = if q = origin then (s.shownAt? q).map fun _ => Fault.circularReference.text
      else s.shownAt? q := by
  rw [Sheet.shownAt?, Sheet.shownAt?, cellAt?, cellAt?, h.idAt?]
  cases hj : s.idAt? q with
  | none => exact (ite_self none).symm
  | some j =>
    obtain ⟨d, hd, rfl⟩ := hs.idAt?_iff.mp hj
    rw [Option.bind_some, Option.bind_some, h.cell, hd]
    split_ifs with e <;> simp [e]

/-- a value that was seen is still shown, unless it was seen at the origin -/
theorem shown_iff (h : s.Refused origin t) (hs : s.Placed) (hin : s.InStep) {i : CellId} {d : Cell}
    {q : Position} {v : Text} (hd : t.cell? i = some d) (hv : d.snapshot.get? q = some v) :
    t.shownAt? q = some v ↔ q ≠ origin ∨ v = Fault.circularReference.text := by
  obtain ⟨c, hc, e⟩ := h.of_cell hd
  rw [e] at hv
  rw [h.shownAt? hs, hin i c q v hc hv]
  by_cases hq : q = origin
  · rw [if_pos hq, Option.map_some, Option.some_inj]
    exact ⟨fun e => .inr e.symm, fun h => (h.resolve_left fun hne => hne hq).symm⟩
  · rw [if_neg hq]
    exact iff_of_true rfl (.inl hq)

end Refused

theorem refused_of_refusedAsCircular {s : Sheet} (hs : s.Wired) {p : Position} {content : Text}
    (hno : s.RefusedAsCircular p content) : s.Refused p (s.set p content) := by
  obtain ⟨ps, hps, hcyc⟩ := hno
  cases hid : s.idAt? p with
  | none =>
    rw [set_of_outside hid]
    refine ⟨SameFrame.refl s, fun j => ?_⟩
    cases hd : s.cell? j with
    | none => rfl
    | some d =>
      rw [Option.map_some, if_neg]
      rintro rfl
      rw [hs.idAt?_position hd] at hid
      cases hid
  | some id =>
    obtain ⟨c, hc, rfl⟩ := hs.idAt?_iff.mp hid
    exact refused_of_closesCycle hs hc hps hcyc

/-- After a refusal a value that was seen is still shown, unless it was seen at the cell that was
refused the content and is not the fault that this cell now shows.  So the sheet is in step only if
that cell has no readers, or has shown the fault before. -/
theorem inStep_set_iff_of_refused {s : Sheet} (h : s.Reachable) (hin : s.InStep) {p : Position}
    {content : Text} (hno : s.RefusedAsCircular p content) :
    (∀ i c q v, (s.set p content).cell? i = some c → c.snapshot.get? q = some v →
      ((s.set p content).shownAt? q = some v ↔ q ≠ p ∨ v = Fault.circularReference.text)) ∧
    ((s.set p content).InStep ↔
      s.observersAt p = [] ∨ s.shownAt? p = some Fault.circularReference.text) := by
  have hs := h.wired
  have href := refused_of_refusedAsCircular hs hno
  refine ⟨fun i d q v hd hv => href.shown_iff hs.toPlaced hin hd hv, fun ht => ?_,
    fun hor i d q v hd hv => (href.shown_iff hs.toPlaced hin hd hv).mpr ?_⟩
  · rw [or_iff_not_imp_left]
    intro hne
    -- any reader has seen what was shown before, and that is shown still
    obtain ⟨q, hq⟩ := List.exists_mem_of_ne_nil _ hne
    obtain ⟨i, c, hc, _, hk⟩ := (mem_readsAt hs).mp ((mem_observersAt hs).mp hq)
    obtain ⟨v, hv⟩ := Snapshot.mem_keys.mp hk
    obtain ⟨d, hd, e⟩ := href.exists_cell hc
    have hv' : d.snapshot.get? p = some v := e ▸ hv
    have hcirc := ((href.shown_iff hs.toPlaced hin hd hv').mp (ht i d p v hd hv')).resolve_left
      fun hne => hne rfl
    rw [hin i c p v hc hv, hcirc]
  · rw [or_iff_not_imp_left, not_not]
    rintro rfl
    obtain ⟨c, hc, e⟩ := href.of_cell hd
    rw [e] at hv
    have hshown := hin i c q v hc hv
    rcases hor with hnone | hcirc
    · have hq : c.position ∈ s.observersAt q := (mem_observersAt hs).mpr
        ((mem_readsAt hs).mpr ⟨i, c, hc, rfl, Snapshot.mem_keys.mpr ⟨v, hv⟩⟩)
      rw [hnone] at hq
      cases hq
    · exact Option.some.inj (hshown.symm.trans hcirc)

/-- a range that contains its own cell, which no other cell reads -/
theorem inStep_set_iff_of_refused_b1 : ∃ s : Sheet, s.Reachable ∧
    s.RefusedAsCircular ⟨0, 1⟩ "=SUM(A1:C1)".toList ∧
      (s.set ⟨0, 1⟩ "=SUM(A1:C1)".toList).InStep := by
  have h : Consistent ((blank 3 1 []).set ⟨0, 2⟩ "5".toList) :=
    consistent_set_of_targets (consistent_blank 3 1 []) (by decide +kernel) [] (by decide +kernel)
      (by decide +kernel)
  have hno : RefusedAsCircular ((blank 3 1 []).set ⟨0, 2⟩ "5".toList) ⟨0, 1⟩ "=SUM(A1:C1)".toList :=
    ⟨[⟨0, 0⟩, ⟨0, 1⟩, ⟨0, 2⟩], by decide +kernel, by decide +kernel⟩
  exact ⟨_, h.reachable, hno, (inStep_set_iff_of_refused h.reachable h.inStep hno).2.mpr
    (.inl (by decide +kernel))⟩

/-- `A1` reads `B1`, which is then to read `A1` -/
theorem not_inStep_b1 : ∃ (s : Sheet) (p : Position) (content : Text), s.Reachable ∧ s.InStep ∧
    s.RefusedAsCircular p content ∧ ¬(s.set p content).InStep := by
  have h : Consistent ((blank 2 1 []).set ⟨0, 0⟩ "=REF(B1)".toList) :=
    consistent_set_of_targets (consistent_blank 2 1 []) (by decide +kernel) [⟨0, 1⟩]
      (by decide +kernel) (by decide +kernel)
  refine ⟨_, ⟨0, 1⟩, "=REF(A1)".toList, h.reachable, h.inStep,
    ⟨[⟨0, 0⟩], by decide +kernel, by decide +kernel⟩, fun ht => ?_⟩
  have hcell : (((blank 2 1 []).set ⟨0, 0⟩ "=REF(B1)".toList).set ⟨0, 1⟩ "=REF(A1)".toList).cell? 0
      = some ⟨⟨0, 0⟩, "=REF(B1)".toList, ['0'], [], ⟨[(⟨0, 1⟩, [])], List.pairwise_singleton ..⟩,
        []⟩ := by decide +kernel
  exact absurd (ht 0 _ ⟨0, 1⟩ [] hcell rfl) (by decide +kernel)

end Sheet

end Worksheet
