import Worksheet.Proofs.Formula.Reference
import Worksheet.Proofs.ReadGraph
import Worksheet.Proofs.Sheet.Notification
import Worksheet.Proofs.Sheet.Rewiring

/-!
# A write keeps a sheet wired

Both a write that is stored and one whose content may not be wired give a cell new edges, in the
second case none.

* `Sheet.cell?_reject`, `Sheet.cell?_rewire`
                       the cells of the two sheets in question;
* `Sheet.targets_eq_ok`, `Sheet.targets_eq_error`
                       the content that may be wired, and the first call of any other that may not;
* `Sheet.closesCycle_iff`, `Sheet.not_reaches_of_not_closesCycle`
                       what the search for a cycle has found or ruled out;
* `Sheet.set_of_error`, `Sheet.set_of_closesCycle`, `Sheet.set_of_not_closesCycle`
                       what a write leads to, of which there is nothing else (`Sheet.set_cases`);
* `Sheet.wired_set`    every write keeps a sheet wired.
-/

namespace Worksheet

namespace Sheet

/-! ## paths of numbers and paths of positions -/

section
variable {s : Sheet} (hs : s.Wired)
include hs

theorem mem_readsAt {p q : Position} :
    q ∈ s.readsAt p ↔ ∃ i c, s.cell? i = some c ∧ c.position = p ∧ q ∈ c.snapshot.keys := by
  rw [readsAt]
  cases hp : s.cellAt? p with
  | none =>
    refine iff_of_false List.not_mem_nil ?_
    rintro ⟨i, c, hc, e, _⟩
    rw [hs.cellAt?_eq_some.mpr ⟨i, hc, e⟩] at hp
    cases hp
  | some c =>
    obtain ⟨i, hc, e⟩ := hs.cellAt?_eq_some.mp hp
    refine ⟨fun h => ⟨i, c, hc, e, h⟩, ?_⟩
    rintro ⟨j, d, hd, e', h⟩
    obtain rfl := hs.eq_of_position hc hd (e.trans e'.symm)
    rw [hc] at hd
    exact Option.some.inj hd ▸ h

theorem readsAt_of_reads {i j : CellId} {c d : Cell} (hc : s.cell? i = some c)
    (hd : s.cell? j = some d) (h : s.Reads i j) : d.position ∈ s.readsAt c.position :=
  (mem_readsAt hs).mpr ⟨i, c, hc, rfl, (hs.reads_iff hc hd).mp h⟩

theorem reads_of_readsAt {p q : Position} (h : q ∈ s.readsAt p) :
    ∃ i j, s.idAt? p = some i ∧ s.idAt? q = some j ∧ s.Reads i j := by
  obtain ⟨i, c, hc, rfl, hq⟩ := (mem_readsAt hs).mp h
  obtain ⟨j, d, hj, hd, rfl⟩ := hs.exists_of_contains (hs.key_inside hc hq)
  exact ⟨i, j, hs.idAt?_position hc, hj, (hs.reads_iff hc hd).mpr hq⟩

theorem reachesAt_of_readsOn {i j : CellId} {c d : Cell} (hc : s.cell? i = some c)
    (hd : s.cell? j = some d) (h : Relation.ReflTransGen s.Reads i j) :
    Relation.ReflTransGen (fun p q => q ∈ s.readsAt p) c.position d.position := by
  let place : CellId → Position := fun i => (s.cell? i).elim default Cell.position
  have hlift := h.lift (p := fun p q => q ∈ s.readsAt p) place fun a b hab => by
    obtain ⟨ca, hca⟩ := hs.live_of_reads hab
    obtain ⟨cb, hcb, _⟩ := id hab
    show (s.cell? b).elim default Cell.position ∈ s.readsAt ((s.cell? a).elim default Cell.position)
    rw [hca, hcb]
    exact readsAt_of_reads hs hca hcb hab
  have ec : place i = c.position := by show (s.cell? i).elim default Cell.position = _; rw [hc]; rfl
  have ed : place j = d.position := by show (s.cell? j).elim default Cell.position = _; rw [hd]; rfl
  exact ec ▸ ed ▸ hlift

theorem acyclic_readsAt (p : Position) : ¬Relation.TransGen (fun p q => q ∈ s.readsAt p) p p := by
  intro h
  let number : Position → CellId := fun p => (s.idAt? p).getD 0
  have hlift := h.lift (p := s.Reads) number fun a b hab => by
    obtain ⟨i, j, hi, hj, hij⟩ := reads_of_readsAt hs hab
    show s.Reads ((s.idAt? a).getD 0) ((s.idAt? b).getD 0)
    rw [hi, hj]
    exact hij
  exact hs.acyclic _ hlift

end

/-! ## the two sheets that a write leads to -/

section
variable {s : Sheet} (hs : s.Wired) {id : CellId} {c : Cell} (hc : s.cell? id = some c)
include hs hc

/-- in a wired sheet a cell is taken off the lists of all others -/
theorem cell?_detachAll_of_wired (j : CellId) :
    (s.detachAll id).cell? j
      = (s.cell? j).map fun d => (if j = id then d.forget else d).detach id := by
  rw [cell?_detachAll hc]
  cases hd : s.cell? j with
  | none => rfl
  | some d =>
    show some _ = some _
    congr 1
    by_cases h : ∃ p ∈ c.snapshot.keys, s.idAt? p = some j
    · exact if_pos h
    · refine (if_neg h).trans (Cell.detach_of_notMem fun hi => h ?_).symm
      have hi' : id ∈ d.observers := by split_ifs at hi <;> exact hi
      exact ⟨d.position, (hs.mem_keys_iff hc hd).mpr hi', hs.idAt?_position hd⟩

theorem shownAt?_detachAll (p : Position) : (s.detachAll id).shownAt? p = s.shownAt? p := by
  rw [shownAt?, shownAt?, cellAt?, cellAt?, (sameFrame_detachAll s id).idAt?]
  cases s.idAt? p with
  | none => rfl
  | some j =>
    show ((s.detachAll id).cell? j).map Cell.shown = (s.cell? j).map Cell.shown
    rw [cell?_detachAll_of_wired hs hc]
    cases s.cell? j with
    | none => rfl
    | some d =>
      show some _ = some _
      split_ifs <;> rfl

theorem cell?_reject (content : Text) (f : Fault) (j : CellId) :
    (s.reject id content f).cell? j = (s.cell? j).map fun d =>
      if j = id then { d.forget.detach id with raw := content, shown := f.text }
      else d.detach id := by
  rw [reject, cell?_modify, cell?_detachAll_of_wired hs hc]
  by_cases h : j = id
  · simp only [h, if_true, Option.map_map]
    rfl
  · simp only [h, if_false]

theorem cell?_rewire (content : Text) (ps : List Position) (j : CellId) :
    (s.rewire id content ps).cell? j = (s.cell? j).map fun d =>
      let d := if d.position ∈ ps then (d.detach id).attach id else d.detach id
      if j = id then { d with raw := content, snapshot := s.seed ps }.evaluate else d := by
  have hseed : (s.detachAll id).seed ps = s.seed ps := by
    rw [seed, seed]
    simp only [shownAt?_detachAll hs hc]
  rw [rewire, cell?_modify, cell?_attachAll, cell?_detachAll_of_wired hs hc, hseed]
  cases hd : s.cell? j with
  | none => simp
  | some d =>
    simp only [(sameFrame_detachAll s id).idAt?, hs.exists_idAt?_iff hd, Option.map_some]
    by_cases hj : j = id <;> by_cases hp : d.position ∈ ps <;>
      simp only [hj, hp, if_true, if_false, Option.map_some, Cell.attach_eq] <;> rfl

theorem rewired_reject (content : Text) (f : Fault) :
    Rewired s id [] (s.reject id content f) where
  toSameFrame := (sameFrame_detachAll s id).trans (sameFrame_modify ..)
  gone h := by rw [cell?_reject hs hc, h]; rfl
  cell {j d} hd := by
    refine ⟨_, (cell?_reject hs hc content f j).trans (congrArg _ hd), ?_, fun i => ?_,
      fun hn => ?_, fun q => ?_⟩
    · split_ifs <;> rfl
    · rw [apply_ite Cell.observers]
      show (i ∈ if j = id then (d.detach id).observers else (d.detach id).observers) ↔ _
      rw [ite_self, Cell.mem_observers_detach]
      by_cases hi : i = id <;> simp [hi]
    · split_ifs <;> exact hn.filter _
    · split_ifs
      · exact Iff.rfl
      · exact Iff.rfl

theorem rewired_rewire (content : Text) {ps : List Position}
    (hps : ∀ p ∈ ps, s.contains p = true) : Rewired s id ps (s.rewire id content ps) where
  toSameFrame := ((sameFrame_detachAll s id).trans (sameFrame_attachAll ..)).trans
    (sameFrame_modify ..)
  gone h := by rw [cell?_rewire hs hc, h]; rfl
  cell {j d} hd := by
    have ho : (if j = id then { (if d.position ∈ ps then (d.detach id).attach id
          else d.detach id) with raw := content, snapshot := s.seed ps }.evaluate
        else if d.position ∈ ps then (d.detach id).attach id else d.detach id).observers
        = (if d.position ∈ ps then (d.detach id).attach id else d.detach id).observers := by
      split_ifs <;> rfl
    refine ⟨_, (cell?_rewire hs hc content ps j).trans (congrArg _ hd), ?_, fun i => ?_,
      fun hn => ?_, fun q => ?_⟩
    · simp only [Cell.attach_eq]
      split_ifs <;> rfl
    · rw [ho, Cell.mem_observers_reattach]
    · rw [ho]
      split_ifs
      · exact Cell.nodup_observers_attach id (hn.filter _)
      · exact hn.filter _
    · by_cases hj : j = id
      · simp only [hj, if_true]
        exact mem_keys_seed hs hps q
      · simp only [hj, if_false]
        split_ifs
        · rw [Cell.attach_eq]; rfl
        · rfl

end

/-! ## targets -/

/-- content may be wired if each of its calls may -/
theorem targets_eq_ok {s : Sheet} {origin : Position} {content : Text} {ps : List Position} :
    s.targets origin content = .ok ps ↔ ∃ qss,
      List.Forall₂ (fun call qs => Call.targets call origin s.rows s.cols = .ok qs)
        (Call.all .strict content) qss ∧ qss.flatten.eraseDups = ps := by
  simp only [← mapM_eq_ok]
  unfold targets
  cases hm : (Call.all .strict content).mapM fun c : Call => c.targets origin s.rows s.cols with
  | error e => exact ⟨fun h => (by cases h), fun ⟨_, h, _⟩ => (by cases h)⟩
  | ok qss =>
    refine ⟨fun h => ⟨qss, rfl, Except.ok.inj h⟩, fun ⟨qss', h, e⟩ => ?_⟩
    rw [Except.ok.inj h, ← e]
    rfl

/-- no label, or that of a position outside of the sheet or of the formula itself -/
def Misplaced (s : Sheet) (origin : Position) (part : Text) : Prop :=
  ∀ p, Position.ofLabel? part = some p → s.contains p = false ∨ p = origin

/-- a call that may not be wired -/
def Unfit (s : Sheet) (origin : Position) (call : Call) : Prop :=
  (∃ part ∈ call.parts, s.Misplaced origin part) ∨ call.shape = .range ∧ call.parts.length ≠ 2

theorem misplaced_iff {s : Sheet} {origin : Position} {part : Text} :
    s.Misplaced origin part ↔ ¬Call.Names origin s.rows s.cols part := by
  rw [Misplaced, Call.Names, not_exists]
  refine forall_congr' fun p => ?_
  rw [contains, Bool.and_eq_false_iff, decide_eq_false_iff_not, decide_eq_false_iff_not]
  tauto

theorem call_targets_eq_error {s : Sheet} {origin : Position} {call : Call} {f : Fault} :
    call.targets origin s.rows s.cols = .error f ↔ s.Unfit origin call ∧ f = call.refusal := by
  simp only [Call.targets_eq_error, Unfit, misplaced_iff]

/-- the first call that may not be wired decides the fault -/
theorem targets_eq_error {s : Sheet} {origin : Position} {content : Text} {f : Fault} :
    s.targets origin content = .error f ↔ ∃ pre call post,
      Call.all .strict content = pre ++ call :: post ∧ (∀ d ∈ pre, ¬s.Unfit origin d) ∧
        s.Unfit origin call ∧ f = call.refusal := by
  have hmap : s.targets origin content = .error f ↔ (Call.all .strict content).mapM
      (fun c : Call => c.targets origin s.rows s.cols) = .error f := by
    unfold targets
    cases (Call.all .strict content).mapM fun c : Call => c.targets origin s.rows s.cols with
    | error e =>
      exact ⟨fun h => congrArg _ (Except.error.inj h), fun h => congrArg _ (Except.error.inj h)⟩
    | ok qss => exact iff_of_false (fun h => by cases h) fun h => by cases h
  simp only [hmap, mapM_eq_error, ne_eq, call_targets_eq_error]
  refine exists_congr fun pre => exists_congr fun call => exists_congr fun post =>
    and_congr_right fun _ => and_congr_left fun _ => forall₂_congr fun d _ => ?_
  exact ⟨fun h hd => h _ ⟨hd, rfl⟩, fun h _ hd => h hd.1⟩

theorem inside_of_mem_targets {s : Sheet} {origin : Position} {content : Text}
    {ps : List Position} (h : s.targets origin content = .ok ps) {p : Position} (hp : p ∈ ps) :
    s.contains p = true := by
  obtain ⟨qss, hqss, rfl⟩ := targets_eq_ok.mp h
  obtain ⟨qs, hqs, hpq⟩ := List.mem_flatten.mp (List.mem_eraseDups.mp hp)
  obtain ⟨_, _, hc⟩ := exists_of_forall₂_of_mem_right hqss hqs
  have hin := Call.inside_of_targets hc hpq
  rw [contains, decide_eq_true hin.1, decide_eq_true hin.2]
  rfl

theorem closesCycle_iff {s : Sheet} {origin : Position} {ps : List Position} :
    s.closesCycle origin ps = true ↔
      ∃ q ∈ ps, Relation.ReflTransGen (fun p q => q ∈ s.readsAt p) q origin := by
  rw [closesCycle, List.any_eq_true]
  exact exists_congr fun q => and_congr_right fun _ => ReadGraph.findCycle_isSome_iff

theorem not_reaches_of_not_closesCycle {s : Sheet} (hs : s.Wired) {id : CellId} {c : Cell}
    (hc : s.cell? id = some c) {ps : List Position} (h : s.closesCycle c.position ps = false)
    (j : CellId) (d : Cell) (hd : s.cell? j = some d) (hp : d.position ∈ ps) :
    ¬Relation.ReflTransGen s.Reads j id := by
  intro hpath
  rw [closesCycle_iff.mpr ⟨d.position, hp, reachesAt_of_readsOn hs hd hc hpath⟩] at h
  cases h

/-! ## every write -/

section
variable {s : Sheet} {origin : Position} {id : CellId} (hid : s.idAt? origin = some id)
  {content : Text}
include hid

theorem set_of_error {f : Fault} (h : s.targets origin content = .error f) :
    s.set origin content = (s.reject id content f).notify id := by
  rw [set, hid, h]

theorem set_of_closesCycle {ps : List Position} (h : s.targets origin content = .ok ps)
    (hcyc : s.closesCycle origin ps = true) :
    s.set origin content
      = s.modify id fun c => { c with shown := Fault.circularReference.text } := by
  rw [set, hid, h]
  exact if_pos hcyc

theorem set_of_not_closesCycle {ps : List Position} (h : s.targets origin content = .ok ps)
    (hcyc : s.closesCycle origin ps = false) :
    s.set origin content = (s.rewire id content ps).notify id := by
  rw [set, hid, h]
  exact if_neg (by rw [hcyc]; exact Bool.false_ne_true)

end

theorem set_of_outside {s : Sheet} {origin : Position} (hid : s.idAt? origin = none)
    (content : Text) : s.set origin content = s := by
  rw [set, hid]

theorem wired_reject {s : Sheet} (hs : s.Wired) {id : CellId} {c : Cell} (hc : s.cell? id = some c)
    (content : Text) (f : Fault) : (s.reject id content f).Wired :=
  (rewired_reject hs hc content f).wired hs ⟨c, hc⟩ (fun _ h => absurd h List.not_mem_nil)
    fun _ _ _ h => absurd h List.not_mem_nil

theorem wired_rewire {s : Sheet} (hs : s.Wired) {id : CellId} {c : Cell} (hc : s.cell? id = some c)
    {content : Text} {ps : List Position} (hps : s.targets c.position content = .ok ps)
    (hcyc : s.closesCycle c.position ps = false) : (s.rewire id content ps).Wired :=
  (rewired_rewire hs hc content fun _ hp => inside_of_mem_targets hps hp).wired hs ⟨c, hc⟩
    (fun _ hp => inside_of_mem_targets hps hp) (not_reaches_of_not_closesCycle hs hc hcyc)

/-- a write outside of the sheet does nothing, and any other leads to one of three sheets -/
theorem set_cases {s : Sheet} (hs : s.Wired) {p : Position} {content : Text} {motive : Sheet → Prop}
    (outside : s.idAt? p = none → motive s)
    (rejected : ∀ {id c f}, s.cell? id = some c → c.position = p → s.targets p content = .error f →
      motive ((s.reject id content f).notify id))
    (refused : ∀ {id c ps}, s.cell? id = some c → c.position = p → s.targets p content = .ok ps →
      s.closesCycle p ps = true →
      motive (s.modify id fun c => { c with shown := Fault.circularReference.text }))
    (stored : ∀ {id c ps}, s.cell? id = some c → c.position = p → s.targets p content = .ok ps →
      s.closesCycle p ps = false → motive ((s.rewire id content ps).notify id)) :
    motive (s.set p content) := by
  cases hid : s.idAt? p with
  | none =>
    rw [set_of_outside hid]
    exact outside hid
  | some id =>
    obtain ⟨c, hc, hp⟩ := hs.idAt?_iff.mp hid
    cases ht : s.targets p content with
    | error f =>
      rw [set_of_error hid ht]
      exact rejected hc hp ht
    | ok ps =>
      cases hcyc : s.closesCycle p ps with
      | true =>
        rw [set_of_closesCycle hid ht hcyc]
        exact refused hc hp ht hcyc
      | false =>
        rw [set_of_not_closesCycle hid ht hcyc]
        exact stored hc hp ht hcyc

theorem wired_set {s : Sheet} (hs : s.Wired) (p : Position) (content : Text) :
    (s.set p content).Wired := by
  refine set_cases hs (fun _ => hs) (fun {id c f} hc _ _ => ?_)
    (fun _ _ _ _ => Alike.wired (alike_modify fun _ _ => rfl) hs) fun {id c ps} hc hp ht hcyc => ?_
  · have h := wired_reject hs hc content f
    exact (alike_notify h id).wired h
  · subst hp
    have h := wired_rewire hs hc ht hcyc
    exact (alike_notify h id).wired h

end Sheet

end Worksheet
