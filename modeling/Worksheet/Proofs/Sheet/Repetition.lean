import Worksheet.Proofs.Sheet.History
import Worksheet.Proofs.Sheet.Locality
import Worksheet.Proofs.Sheet.Telling

/-!
# A write that is made again

* `Sheet.Aware`        all that read a cell, directly or through others, have seen what is shown to
                       them, and show what follows from it;
* `Sheet.aware_notify` so it is after the cell has told its readers;
* `Sheet.notify_of_aware` telling them again changes nothing;
* `Sheet.ReadsLast`    where a cell stands in the lists of readers after it has been written;
* `Sheet.set_of_rejected`, `Sheet.set_of_refused`, `Sheet.set_of_stored`
                       a write where its outcome is there already;
* `Sheet.set_again`    a write that is made again changes nothing.

The second write takes the cell off the lists of readers on which it is the last, and puts it to
their ends again.  The cells that are named do not read the written one, so that it begins with the
values with which it began before.
-/

namespace Worksheet

/-- a cell that is told what it has seen already -/
theorem Cell.receive_eq_self {c : Cell} {p : Position} {v : Text} (hseen : c.snapshot.get? p = some v)
    (hshown : c.shown = Worksheet.evaluate c.raw c.snapshot) : c.receive p v = c := by
  show ({ c with snapshot := c.snapshot.insert p v } : Cell).evaluate = c
  rw [Snapshot.insert_of_get? hseen, Cell.evaluate, ← hshown]

namespace Sheet

/-! ## readers that are aware -/

/-- no cell that reads the cell `id`, directly or through others, learns anything if it is told what
one of these cells shows -/
def Aware (s : Sheet) (id : CellId) : Prop :=
  ∀ {j k c d}, s.Told [id] k → s.Reads j k → s.cell? j = some c → s.cell? k = some d →
    c.receive d.position d.shown = c

theorem Aware.of_reads {s : Sheet} {id r : CellId} (h : s.Aware id) (hr : s.Reads r id) :
    s.Aware r := by
  intro j k c d ⟨i, hi, hki⟩ hjk hc hd
  rw [List.mem_singleton] at hi
  subst hi
  exact h ⟨id, List.mem_singleton_self id, hki.tail hr⟩ hjk hc hd

theorem push_of_aware {s : Sheet} {id : CellId} (h : s.Aware id) (depth : Nat) :
    push depth s id = s := by
  induction depth generalizing id with
  | zero => rfl
  | succ depth ih =>
    cases hc : s.cell? id with
    | none => exact push_of_vacant hc
    | some c =>
      rw [push_succ hc]
      refine List.foldlRecOn (motive := (· = s)) _ _ rfl fun t ht r hr => ?_
      have hreads : s.Reads r id := ⟨c, hc, hr⟩
      have hsame : s.modify r (·.receive c.position c.shown) = s := modify_eq_self fun b hb =>
        h ⟨id, List.mem_singleton_self id, .refl⟩ hreads hb hc
      rw [ht, hsame]
      exact ih (h.of_reads hreads)

theorem notify_of_aware {s : Sheet} {id : CellId} (h : s.Aware id) : s.notify id = s :=
  push_of_aware h _

/-! ## a notification that is made again -/

/-- every cell that is told is evaluated, whatever it showed before -/
theorem Delivers.evaluated {s t : Sheet} {rs : List CellId} {id : CellId} {c : Cell}
    (h : Delivers c.position c.shown s rs t) (hs : s.Wired) (hc : s.cell? id = some c)
    (hrs : ∀ r ∈ rs, r ∈ c.observers) : ∀ {j e}, s.Told rs j → t.cell? j = some e →
      e.shown = evaluate e.raw e.snapshot := by
  refine h.wired_induction (motive := fun s _ _ rs t => ∀ {j e}, s.Told rs j → t.cell? j = some e →
    e.shown = evaluate e.raw e.snapshot) (fun s _ _ j e hj _ => ?_)
    (fun {s t u id r c d rs} hs hc hr hd hsp ih hsp' ih' {j e} hj he => ?_) hs hc hrs
  · exact absurd hj fun ⟨_, h, _⟩ => List.not_mem_nil h
  have hal := alike_receive hs hc hr
  rcases told_cons.mp hj with hj | hj
  · -- what the later readers hear is evaluated again, or left as it is
    refine (hsp'.evaluated he).elim (fun he => ?_) fun h => h
    rcases (told_singleton_iff hd).mp hj with rfl | hj
    · refine (hsp.evaluated he).elim (fun he => ?_) fun h => h
      rw [cell?_modify_self, hd] at he
      exact Option.some.inj he ▸ rfl
    · exact ih (hal.told ▸ hj) he
  · exact ih' ((spread_of_receive hs hc hr hd hsp).alike.told ▸ hj) he

section
variable {s : Sheet} (hs : s.Wired) (id : CellId)
include hs

theorem aware_notify : (s.notify id).Aware id := by
  intro j k c d hk hjk hc hd
  have hal := alike_notify hs id
  have hmem : j ∈ d.observers := by
    obtain ⟨d', hd', hmem⟩ := hjk
    rwa [← Option.some.inj (hd.symm.trans hd')] at hmem
  rw [hal.told] at hk
  rw [hal.reads] at hjk
  have hon : s.ReadsOn j id := by
    obtain ⟨i, hi, hki⟩ := hk
    exact List.mem_singleton.mp hi ▸ Relation.TransGen.head' hjk hki
  obtain ⟨r, -, b, hb, -⟩ := Relation.TransGen.tail'_iff.mp hon
  have hj : s.Told b.observers j := by
    have hj : s.Told [id] j := ⟨id, List.mem_singleton_self id, hon.to_reflTransGen⟩
    exact ((told_singleton_iff hb).mp hj).resolve_left fun e => hs.acyclic id (e ▸ hon)
  have hdel := delivers_push hs hb (card_dependents_le s id)
  exact Cell.receive_eq_self (upToDate_notify_of_told hs hb hk j c d hc hd hmem)
    (hdel.evaluated hs hb (fun _ hr => hr) hj hc)

theorem notify_notify : (s.notify id).notify id = s.notify id :=
  notify_of_aware (aware_notify hs id)

end

/-! ## the last reader of a cell -/

/-- all cells at `ps` have the number of the cell at the end of their lists, and no others have it -/
def ReadsLast (s : Sheet) (id : CellId) (ps : List Position) : Prop :=
  ∀ j d, s.cell? j = some d →
    d.observers = d.observers.filter (· ≠ id) ++ if d.position ∈ ps then [id] else []

theorem Readdressed.readsLast {s t : Sheet} {id : CellId} {ps : List Position}
    (h : Readdressed s id ps t) : t.ReadsLast id ps := by
  intro j e he
  obtain ⟨d, hd, hp, -⟩ := h.of_cell he
  obtain ⟨e', he', -, ho, -⟩ := h.kept hd
  obtain rfl := Option.some.inj (he.symm.trans he')
  have hfilter : e.observers.filter (· ≠ id) = d.observers.filter (· ≠ id) := by
    rw [ho, List.filter_append, List.filter_filter]
    split_ifs <;> simp
  rw [hfilter, hp]
  exact ho

theorem Alike.readsLast {s t : Sheet} {id : CellId} {ps : List Position} (h : Alike s t)
    (hs : s.ReadsLast id ps) : t.ReadsLast id ps := by
  intro j e he
  obtain ⟨d, hd, ho⟩ := h.cell he
  have hobservers : d.observers = e.observers := congrArg Outline.observers ho
  have hposition : d.position = e.position := congrArg Outline.position ho
  rw [← hobservers, ← hposition]
  exact hs j d hd

section
variable {s : Sheet} (hs : s.Wired) {id : CellId} {c : Cell} (hc : s.cell? id = some c)
include hs hc

theorem reject_eq_self {f : Fault} (hlast : s.ReadsLast id []) (hsnapshot : c.snapshot = ∅)
    (hshown : c.shown = f.text) : s.reject id c.raw f = s := by
  refine eq_of_cell? (rewired_reject hs hc c.raw f).toSameFrame fun j => ?_
  rw [cell?_reject hs hc]
  cases hd : s.cell? j with
  | none => rfl
  | some d =>
    have hlist : d.detach id = d := by
      have ho := hlast j d hd
      rw [if_neg List.not_mem_nil, List.append_nil] at ho
      rw [Cell.detach, ← ho]
    rw [Option.map_some]
    split_ifs with hj
    · subst hj
      obtain rfl := Option.some.inj (hc.symm.trans hd)
      have hforget : c.forget = c := by rw [Cell.forget, ← hsnapshot]
      rw [hforget, hlist, ← hshown]
    · rw [hlist]

theorem rewire_eq_self {ps : List Position} (hin : ∀ p ∈ ps, s.contains p = true)
    (hlast : s.ReadsLast id ps) (hsnapshot : c.snapshot = s.seed ps)
    (hshown : c.shown = evaluate c.raw c.snapshot) : s.rewire id c.raw ps = s := by
  refine eq_of_cell? (rewired_rewire hs hc c.raw hin).toSameFrame fun j => ?_
  rw [cell?_rewire hs hc]
  cases hd : s.cell? j with
  | none => rfl
  | some d =>
    have hlist : (if d.position ∈ ps then (d.detach id).attach id else d.detach id) = d := by
      rw [Cell.reattach_eq, ← hlast j d hd]
      rfl
    simp only [Option.map_some, hlist]
    split_ifs with hj
    · subst hj
      obtain rfl := Option.some.inj (hc.symm.trans hd)
      rw [← hsnapshot, Cell.evaluate, ← hshown]
    · rfl

end

/-! ## writes that are made again -/

theorem Alike.readsAt {s t : Sheet} (h : Alike s t) : t.readsAt = s.readsAt := by
  funext p
  rw [Sheet.readsAt, Sheet.readsAt, cellAt?, cellAt?, h.idAt?]
  cases s.idAt? p with
  | none => rfl
  | some j =>
    rw [Option.bind_some, Option.bind_some]
    cases hd : t.cell? j with
    | none =>
      have ho := h.outline j
      rw [hd] at ho
      rw [Option.map_eq_none_iff.mp ho.symm]
    | some d =>
      obtain ⟨c, hc, ho⟩ := h.cell hd
      rw [hc]
      exact (congrArg Outline.keys ho).symm

section
variable {s : Sheet} (hs : s.Wired) {id : CellId} {c : Cell} (hc : s.cell? id = some c)
  {content : Text}
include hs hc

theorem set_of_rejected {f : Fault} (h : s.targets c.position content = .error f) :
    ((s.reject id content f).notify id).set c.position content
      = (s.reject id content f).notify id := by
  have hid := hs.idAt?_position hc
  have hu := wired_reject hs hc content f
  have hal := alike_notify hu id
  have hread := readdressed_reject hs hc content f
  have hframe := hread.toSameFrame.trans hal.toSameFrame
  have hself : ((s.reject id content f).notify id).cell? id
      = some { c.forget.detach id with raw := content, shown := f.text } := by
    rw [cell?_notify_self hu, cell?_reject hs hc, hc, Option.map_some, if_pos rfl]
  have hagain := reject_eq_self (hal.wired hu) hself (hal.readsLast hread.readsLast) rfl rfl
  rw [set_of_error ((hframe.idAt? _).trans hid) (hframe.targets ▸ h), hagain, notify_notify hu]

theorem set_of_refused {ps : List Position} (h : s.targets c.position content = .ok ps)
    (hcyc : s.closesCycle c.position ps = true) :
    (s.modify id fun c => { c with shown := Fault.circularReference.text }).set c.position content
      = s.modify id fun c => { c with shown := Fault.circularReference.text } := by
  have hal : Alike s (s.modify id fun c => { c with shown := Fault.circularReference.text }) :=
    alike_modify fun _ _ => rfl
  have hcyc' : (s.modify id fun c => { c with shown := Fault.circularReference.text }).closesCycle
      c.position ps = true := by
    rw [closesCycle_iff, hal.readsAt, ← closesCycle_iff]
    exact hcyc
  rw [set_of_closesCycle ((hal.idAt? _).trans (hs.idAt?_position hc))
    (hal.toSameFrame.targets ▸ h) hcyc']
  refine modify_eq_self fun d hd => ?_
  rw [cell?_modify_self, hc] at hd
  exact Option.some.inj hd ▸ rfl

theorem set_of_stored {ps : List Position} (h : s.targets c.position content = .ok ps)
    (hcyc : s.closesCycle c.position ps = false) :
    ((s.rewire id content ps).notify id).set c.position content
      = (s.rewire id content ps).notify id := by
  have hid := hs.idAt?_position hc
  have hin : ∀ q ∈ ps, s.contains q = true := fun _ hq => inside_of_mem_targets h hq
  have hu := wired_rewire hs hc h hcyc
  have hal := alike_notify hu id
  have hread := readdressed_rewire hs hc content hin
  have hframe := hread.toSameFrame.trans hal.toSameFrame
  have ht := hal.wired hu
  obtain ⟨⟨e, he, hraw, hkeys, hseen, hshown⟩, -⟩ := stored_of_not_closesCycle hs hc h hcyc
  rw [set_of_not_closesCycle hid h hcyc] at he hseen
  have hself : ((s.rewire id content ps).notify id).cell? id = some e := by
    rwa [cellAt?, hframe.idAt?, hid] at he
  have hmem : ∀ q, q ∈ e.snapshot.keys ↔ q ∈ ps := fun q => (hkeys q).trans (mem_targets_iff h).symm
  have hsnapshot : e.snapshot = ((s.rewire id content ps).notify id).seed ps := by
    refine Snapshot.ext_get? fun q => ?_
    rw [get?_seed]
    split_ifs with hq
    · obtain ⟨hget, hkept⟩ := hseen q ((hmem q).mpr hq)
      rw [hget, hkept]
    · exact Snapshot.get?_eq_none.mpr (mt (hmem q).mp hq)
  -- a path from a position that is named to the cell would close a cycle of what is read now
  have hcyc' : ((s.rewire id content ps).notify id).closesCycle c.position ps = false := by
    rw [← Bool.not_eq_true, closesCycle_iff]
    rintro ⟨q, hq, hpath⟩
    refine acyclic_readsAt ht c.position (Relation.TransGen.head' ?_ hpath)
    rw [readsAt, he]
    exact (hmem q).mpr hq
  have hagain := rewire_eq_self ht hself (fun q hq => (hframe.contains q).trans (hin q hq))
    (hal.readsLast hread.readsLast) hsnapshot (hraw ▸ hshown)
  rw [hraw] at hagain
  rw [set_of_not_closesCycle ((hframe.idAt? _).trans hid) (hframe.targets ▸ h) hcyc', hagain,
    notify_notify hu]

end

/-- A write that is made again leaves the sheet as it is, whatever its outcome: what is written, seen
and shown, the colors, and the lists of readers in their order. -/
theorem set_again {s : Sheet} (h : s.Reachable) (p : Position) (content : Text) :
    (s.set p content).set p content = s.set p content := by
  have hs := h.wired
  refine set_cases hs (motive := fun t => t.set p content = t) (fun hout => ?_)
    (fun {id c f} hc hp ht => ?_) (fun {id c ps} hc hp ht hcyc => ?_)
    fun {id c ps} hc hp ht hcyc => ?_
  · exact set_of_outside hout content
  · subst hp
    exact set_of_rejected hs hc ht
  · subst hp
    exact set_of_refused hs hc ht hcyc
  · subst hp
    exact set_of_stored hs hc ht hcyc

/-- `B1` reads `A1`, and `C1` reads both, so that it is told twice; the second write of `A1` is one
that is stored, one that is refused, and one that is rejected -/
theorem set_again_a1 : ∃ s : Sheet, s.Reachable ∧ s.readsAt ⟨0, 2⟩ = [⟨0, 0⟩, ⟨0, 1⟩] ∧
    s.closesCycle ⟨0, 0⟩ [⟨0, 3⟩] = false ∧ s.closesCycle ⟨0, 0⟩ [⟨0, 2⟩] = true ∧
    ∀ content ∈ ["=REF(D1)".toList, "=REF(C1)".toList, "=REF(Z9)".toList],
      s.set ⟨0, 0⟩ content ≠ s ∧
      (s.set ⟨0, 0⟩ content).set ⟨0, 0⟩ content = s.set ⟨0, 0⟩ content := by
  have h : Reachable (((blank 4 1 []).apply (.set ⟨0, 1⟩ "=REF(A1)".toList)).apply
      (.set ⟨0, 2⟩ "=SUM(A1:B1)".toList)) :=
    .step _ (.step _ (.blank 4 1 []) trivial) trivial
  refine ⟨_, h, by decide +kernel, by decide +kernel, by decide +kernel, fun content hcontent => ?_⟩
  refine ⟨?_, set_again h ⟨0, 0⟩ content⟩
  revert content
  decide +kernel

end Sheet

end Worksheet
