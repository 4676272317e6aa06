import Worksheet.Proofs.Sheet.Outcomes

/-!
# What a write leaves alone

* `transGen_iff_of_ne` paths to a node do not depend on the edges that leave it;
* `Sheet.Relisted`     a list of readers from which a number has been taken, or at whose end it is;
* `Sheet.Confined`     of the other cells a change of one has changed only what its readers see and
                       show, and the lists of readers of what it has read or comes to read;
* `Sheet.Readdressed`  the cell is the last reader of what it comes to read, which is such a change;
* `Sheet.confined_set`, `Sheet.others_left_alone`
                       so is every write.

The edges that leave the cell are the only ones that a write changes, so that it does not matter for
who reads the cell whether this is asked before the write or after it.
-/

namespace Worksheet

theorem transGen_iff_of_ne {α : Type} {r r' : α → α → Prop} {a : α}
    (h : ∀ i j, i ≠ a → (r' i j ↔ r i j)) {i : α} (hi : i ≠ a) :
    Relation.TransGen r' i a ↔ Relation.TransGen r i a := by
  -- a path that comes to `a` may end there
  have key : ∀ {r r' : α → α → Prop}, (∀ i j, i ≠ a → (r' i j ↔ r i j)) → ∀ i, i ≠ a →
      Relation.TransGen r i a → Relation.TransGen r' i a := by
    intro r r' h i hi hpath
    induction hpath using Relation.TransGen.head_induction_on with
    | single hia => exact .single ((h _ _ hi).mpr hia)
    | @head b c hbc _ ih =>
      by_cases hc : c = a
      · exact .single ((h _ _ hi).mpr (hc ▸ hbc))
      · exact .head ((h _ _ hi).mpr hbc) (ih hc)
  exact ⟨key (fun i j hi => (h i j hi).symm) i hi, key h i hi⟩

/-- a number that is taken off a list of readers and, if need be, put to its end -/
theorem Cell.reattach_eq (c : Cell) (id : CellId) (P : Prop) [Decidable P] :
    (if P then (c.detach id).attach id else c.detach id)
      = c.withObservers (c.observers.filter (· ≠ id) ++ if P then [id] else []) := by
  have hno : id ∉ (c.detach id).observers := fun h => (Cell.mem_observers_detach.mp h).2 rfl
  rw [Cell.attach_eq, if_neg hno]
  split_ifs
  · rfl
  · rw [List.append_nil]
    rfl

namespace Sheet

/-! ## who reads a cell -/

section
variable {s t : Sheet} {id : CellId} {ps : List Position}

theorem Rewired.reads_iff_of_ne (h : Rewired s id ps t) {i j : CellId} (hi : i ≠ id) :
    t.Reads i j ↔ s.Reads i j := by
  constructor
  · rintro ⟨e, he, hmem⟩
    obtain ⟨d, hd, _, ho, _⟩ := h.of_cell he
    rw [ho, if_neg hi] at hmem
    exact ⟨d, hd, hmem⟩
  · rintro ⟨d, hd, hmem⟩
    obtain ⟨e, he, _, ho, _⟩ := h.cell hd
    exact ⟨e, he, (ho i).mpr ((if_neg hi).symm ▸ hmem)⟩

theorem Rewired.readsOn_iff (h : Rewired s id ps t) {j : CellId} (hj : j ≠ id) :
    t.ReadsOn j id ↔ s.ReadsOn j id :=
  transGen_iff_of_ne (fun _ _ hi => h.reads_iff_of_ne hi) hj

end

/-- paths of numbers are paths of positions -/
theorem readsOn_iff_readsAt {s : Sheet} (hs : s.Wired) {i j : CellId} {c d : Cell}
    (hc : s.cell? i = some c) (hd : s.cell? j = some d) : s.ReadsOn i j ↔
      Relation.TransGen (fun p q => q ∈ s.readsAt p) c.position d.position := by
  constructor
  · intro hon
    have hpath := reachesAt_of_readsOn hs hc hd hon.to_reflTransGen
    refine (Relation.reflTransGen_iff_eq_or_transGen.mp hpath).resolve_left fun e => ?_
    exact hs.acyclic j (hs.eq_of_position hc hd e.symm ▸ hon)
  · intro hpath
    let number : Position → CellId := fun p => (s.idAt? p).getD 0
    have hlift : s.ReadsOn (number c.position) (number d.position) := hpath.lift number fun a b hab => by
      obtain ⟨k, l, hk, hl, hkl⟩ := reads_of_readsAt hs hab
      show s.Reads ((s.idAt? a).getD 0) ((s.idAt? b).getD 0)
      rw [hk, hl]
      exact hkl
    have ec : number c.position = i := congrArg (Option.getD · 0) (hs.idAt?_position hc)
    have ed : number d.position = j := congrArg (Option.getD · 0) (hs.idAt?_position hd)
    rwa [ec, ed] at hlift

/-! ## changes of one cell and of its readers -/

/-- a list of readers without a number, or with it at its end -/
inductive Relisted (id : CellId) (before : List CellId) : List CellId → Prop
  | unlisted : Relisted id before (before.filter (· ≠ id))
  | listed : Relisted id before (before.filter (· ≠ id) ++ [id])

/-- the cell `j` is `d` before and `e` after a change of the cell `id` -/
structure Spared (s : Sheet) (id : CellId) (t : Sheet) (j : CellId) (d e : Cell) : Prop where
  position : e.position = d.position
  color : e.color = d.color
  raw : j ≠ id → e.raw = d.raw
  seen : j ≠ id → ¬s.ReadsOn j id → e.snapshot = d.snapshot ∧ e.shown = d.shown
  observers : e.observers = d.observers ∨
    (s.Reads id j ∨ t.Reads id j) ∧ Relisted id d.observers e.observers

structure Confined (s : Sheet) (id : CellId) (t : Sheet) : Prop extends SameFrame s t where
  gone : ∀ {j}, s.cell? j = none → t.cell? j = none
  cell : ∀ {j d}, s.cell? j = some d → ∃ e, t.cell? j = some e ∧ Spared s id t j d e

/-- only the readers of the cell are told -/
theorem Confined.notify {s u : Sheet} {id : CellId} {c : Cell} (h : Confined s id u) (hu : u.Wired)
    (hc : u.cell? id = some c) (hreads : ∀ j, j ≠ id → (u.ReadsOn j id ↔ s.ReadsOn j id)) :
    Confined s id (u.notify id) := by
  have hsp := spread_notify hu hc
  refine ⟨h.toSameFrame.trans hsp.alike.toSameFrame, fun {j} hj => ?_, fun {j d} hd => ?_⟩
  · have ho := hsp.alike.outline j
    rw [h.gone hj] at ho
    exact Option.map_eq_none_iff.mp ho
  · obtain ⟨e, he, hes⟩ := h.cell hd
    obtain ⟨e', he', ho⟩ := hsp.alike.symm.cell he
    have hobservers : e'.observers = e.observers := congrArg Outline.observers ho
    refine ⟨e', he', (congrArg Outline.position ho).trans hes.position,
      (congrArg Outline.color ho).trans hes.color,
      fun hj => (congrArg Outline.raw ho).trans (hes.raw hj), fun hj hno => ?_, ?_⟩
    · rw [hsp.cell?_eq j (mt (hreads j hj).mp hno), he] at he'
      exact Option.some.inj he' ▸ hes.seen hj hno
    · rw [hobservers, hsp.alike.reads]
      exact hes.observers

/-! ## writes -/

/-- the cell `id` is the last reader of the cells at `ps`, and no reader of any other -/
structure Readdressed (s : Sheet) (id : CellId) (ps : List Position) (t : Sheet) : Prop
    extends Rewired s id ps t where
  kept : ∀ {j d}, s.cell? j = some d → ∃ e, t.cell? j = some e ∧ e.color = d.color ∧
    e.observers = d.observers.filter (· ≠ id) ++ (if d.position ∈ ps then [id] else []) ∧
    (j ≠ id → e.raw = d.raw ∧ e.snapshot = d.snapshot ∧ e.shown = d.shown)

theorem Readdressed.confined {s t : Sheet} {id : CellId} {ps : List Position}
    (h : Readdressed s id ps t) : Confined s id t := by
  refine ⟨h.toSameFrame, h.gone, fun {j d} hd => ?_⟩
  obtain ⟨e, he, hcolor, ho, hsame⟩ := h.kept hd
  obtain ⟨e', he', hposition, -⟩ := h.cell hd
  obtain rfl := Option.some.inj (he.symm.trans he')
  refine ⟨e, he, hposition, hcolor, fun hj => (hsame hj).1, fun hj _ => (hsame hj).2, ?_⟩
  by_cases hp : d.position ∈ ps
  · rw [if_pos hp] at ho
    have hread : t.Reads id j :=
      ⟨e, he, ho ▸ List.mem_append_right _ (List.mem_singleton_self id)⟩
    exact .inr ⟨.inr hread, ho ▸ .listed⟩
  · rw [if_neg hp, List.append_nil] at ho
    by_cases hmem : id ∈ d.observers
    · exact .inr ⟨.inl ⟨d, hd, hmem⟩, ho ▸ .unlisted⟩
    · exact .inl (ho.trans (congrArg Cell.observers (Cell.detach_of_notMem hmem)))

section
variable {s : Sheet} (hs : s.Wired) {id : CellId} {c : Cell} (hc : s.cell? id = some c)
  (content : Text)
include hs hc

theorem readdressed_reject (f : Fault) : Readdressed s id [] (s.reject id content f) where
  toRewired := rewired_reject hs hc content f
  kept {j d} hd := by
    refine ⟨_, (cell?_reject hs hc content f j).trans (congrArg _ hd), ?_⟩
    rw [if_neg List.not_mem_nil, List.append_nil]
    by_cases hj : j = id
    · simp only [if_pos hj]
      exact ⟨rfl, rfl, fun hne => absurd hj hne⟩
    · simp only [if_neg hj]
      exact ⟨rfl, rfl, fun _ => ⟨rfl, rfl, rfl⟩⟩

theorem readdressed_rewire {ps : List Position} (hin : ∀ p ∈ ps, s.contains p = true) :
    Readdressed s id ps (s.rewire id content ps) where
  toRewired := rewired_rewire hs hc content hin
  kept {j d} hd := by
    refine ⟨_, (cell?_rewire hs hc content ps j).trans (congrArg _ hd), ?_⟩
    simp only [Cell.reattach_eq]
    by_cases hj : j = id
    · simp only [if_pos hj]
      exact ⟨rfl, rfl, fun hne => absurd hj hne⟩
    · simp only [if_neg hj]
      exact ⟨rfl, rfl, fun _ => ⟨rfl, rfl, rfl⟩⟩

end

theorem confined_modify_shown (s : Sheet) (id : CellId) (v : Text) :
    Confined s id (s.modify id fun c => { c with shown := v }) := by
  refine ⟨sameFrame_modify .., fun {j} hj => ?_, fun {j d} hd => ?_⟩
  · rw [cell?_modify, hj]
    exact ite_self none
  · rw [cell?_modify, hd]
    by_cases hj : j = id
    · rw [if_pos hj]
      exact ⟨_, rfl, rfl, rfl, fun hne => absurd hj hne, fun hne => absurd hj hne, .inl rfl⟩
    · rw [if_neg hj]
      exact ⟨d, rfl, rfl, rfl, fun _ => rfl, fun _ _ => ⟨rfl, rfl⟩, .inl rfl⟩

theorem confined_set {s : Sheet} (hs : s.Wired) {p : Position} {id : CellId}
    (hid : s.idAt? p = some id) (content : Text) :
    Confined s id (s.set p content) ∧ ∀ i j, i ≠ id → ((s.set p content).Reads i j ↔ s.Reads i j) := by
  have told : ∀ {c ps u}, s.cell? id = some c → Readdressed s id ps u → u.Wired →
      Confined s id (u.notify id) ∧ ∀ i j, i ≠ id → ((u.notify id).Reads i j ↔ s.Reads i j) := by
    intro c ps u hc h hu
    obtain ⟨e, he, -⟩ := h.cell hc
    refine ⟨h.confined.notify hu he fun j hj => h.readsOn_iff hj, fun i j hi => ?_⟩
    rw [(alike_notify hu id).reads]
    exact h.reads_iff_of_ne hi
  have same : ∀ {j c}, s.cell? j = some c → c.position = p → j = id := fun hc hp =>
    Option.some.inj ((hs.idAt?_iff.mpr ⟨_, hc, hp⟩).symm.trans hid)
  refine set_cases hs
    (motive := fun t => Confined s id t ∧ ∀ i j, i ≠ id → (t.Reads i j ↔ s.Reads i j))
    (fun hout => ?_) (fun {j c f} hc hp _ => ?_) (fun {j c ps} hc hp _ _ => ?_)
    fun {j c ps} hc hp ht hcyc => ?_
  · rw [hid] at hout
    cases hout
  · obtain rfl := same hc hp
    exact told hc (readdressed_reject hs hc content f) (wired_reject hs hc content f)
  · obtain rfl := same hc hp
    have hal : Alike s (s.modify j fun c => { c with shown := Fault.circularReference.text }) :=
      alike_modify fun _ _ => rfl
    exact ⟨confined_modify_shown s j _, fun i k _ => by rw [hal.reads]⟩
  · obtain rfl := same hc hp
    subst hp
    exact told hc (readdressed_rewire hs hc content fun _ hp => inside_of_mem_targets ht hp)
      (wired_rewire hs hc ht hcyc)

/-- A write changes no position, no color and no text but that of the cell.  What a cell sees and
shows changes only if it reads the written one, directly or through others, and which cells these
are does not change.  A list of readers only loses the number of the written cell, or has it at its
end, and only where the cell is read before the write or after it. -/
theorem others_left_alone {s : Sheet} (h : s.Reachable) {origin : Position}
    (hin : s.contains origin = true) (content : Text) :
    ∃ id, s.idAt? origin = some id ∧ SameFrame s (s.set origin content) ∧
    (∀ j, s.cell? j = none → (s.set origin content).cell? j = none) ∧
    ∀ j d, s.cell? j = some d → ∃ e, (s.set origin content).cell? j = some e ∧
      e.position = d.position ∧ e.color = d.color ∧
      (e.observers = d.observers ∨ Relisted id d.observers e.observers ∧
        (d.position ∈ s.readsAt origin ∨ d.position ∈ (s.set origin content).readsAt origin)) ∧
      (j ≠ id → e.raw = d.raw ∧
        (Relation.TransGen (fun p q => q ∈ (s.set origin content).readsAt p) d.position origin ↔
          Relation.TransGen (fun p q => q ∈ s.readsAt p) d.position origin) ∧
        (¬Relation.TransGen (fun p q => q ∈ s.readsAt p) d.position origin →
          e.snapshot = d.snapshot ∧ e.shown = d.shown)) := by
  have hs := h.wired
  obtain ⟨id, c, hid, hc, rfl⟩ := hs.exists_of_contains hin
  have ht := wired_set hs c.position content
  obtain ⟨hconf, hreads⟩ := confined_set hs hid content
  refine ⟨id, hid, hconf.toSameFrame, fun j hj => hconf.gone hj, fun j d hd => ?_⟩
  obtain ⟨b, hb, hspared⟩ := hconf.cell hc
  obtain ⟨e, he, hsp⟩ := hconf.cell hd
  have hbefore := readsOn_iff_readsAt hs hd hc
  have hafter := readsOn_iff_readsAt ht he hb
  rw [hsp.position, hspared.position] at hafter
  have hread : s.Reads id j ∨ (s.set c.position content).Reads id j →
      d.position ∈ s.readsAt c.position ∨
        d.position ∈ (s.set c.position content).readsAt c.position := fun hread =>
    hread.imp (readsAt_of_reads hs hc hd) fun hread => by
      have hmem := readsAt_of_reads ht hb he hread
      rwa [hsp.position, hspared.position] at hmem
  refine ⟨e, he, hsp.position, hsp.color, hsp.observers.imp_right fun h => ⟨h.2, hread h.1⟩,
    fun hj => ⟨hsp.raw hj, ?_, fun hno => hsp.seen hj (mt hbefore.mp hno)⟩⟩
  rw [← hafter, ← hbefore]
  exact transGen_iff_of_ne hreads hj

/-- `A1` reads `B1` before the write and after it, and falls behind `C1` in the list of its readers -/
theorem others_left_alone_a1 : ∃ s : Sheet, s.Reachable ∧ s.contains ⟨0, 0⟩ = true ∧
    s.observersAt ⟨0, 1⟩ = [⟨0, 0⟩, ⟨0, 2⟩] ∧
    (s.set ⟨0, 0⟩ "=SUM(B1, D1)".toList).observersAt ⟨0, 1⟩ = [⟨0, 2⟩, ⟨0, 0⟩] ∧
    ∃ id, s.idAt? ⟨0, 0⟩ = some id ∧
      ∀ j d, s.cell? j = some d → ∃ e,
        (s.set ⟨0, 0⟩ "=SUM(B1, D1)".toList).cell? j = some e ∧
        (e.observers = d.observers ∨ Relisted id d.observers e.observers) ∧
        (j ≠ id → e.raw = d.raw ∧
          (¬Relation.TransGen (fun p q => q ∈ s.readsAt p) d.position ⟨0, 0⟩ →
            e.snapshot = d.snapshot ∧ e.shown = d.shown)) := by
  have h : Reachable (((blank 4 1 []).apply (.set ⟨0, 0⟩ "=REF(B1)".toList)).apply
      (.set ⟨0, 2⟩ "=REF(B1)".toList)) :=
    .step _ (.step _ (.blank 4 1 []) trivial) trivial
  have hin : Sheet.contains (((blank 4 1 []).apply (.set ⟨0, 0⟩ "=REF(B1)".toList)).apply
      (.set ⟨0, 2⟩ "=REF(B1)".toList)) ⟨0, 0⟩ = true := by decide +kernel
  obtain ⟨id, hid, -, -, hcells⟩ := others_left_alone h hin "=SUM(B1, D1)".toList
  refine ⟨_, h, hin, by decide +kernel, by decide +kernel, id, hid, fun j d hd => ?_⟩
  obtain ⟨e, he, -, -, hobservers, hrest⟩ := hcells j d hd
  exact ⟨e, he, hobservers.imp_right And.left, fun hj => ⟨(hrest hj).1, (hrest hj).2.2⟩⟩

end Sheet

end Worksheet
