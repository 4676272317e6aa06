import Worksheet.Proofs.Sheet.Extension
import Worksheet.Proofs.Sheet.Invalidation

/-!
# Who is told of a new line

A formula whose ranges take in new cells tells its readers of what it shows now, and these tell
theirs.  So three things can be said of a cell by whether it is told:

* `Sheet.Told`         the cells in a list, and those that read them, directly or through others;
* `Sheet.Reached`      after a notification, what is seen of the cells that are told is what they
                       show, and what is seen of the others is as before;
* `Sheet.Informed`     the same of several formulas that are extended, of which the cells that are
                       not told keep all but their readers;
* `Sheet.informed_insertLine`
                       the formulas that are extended when a line is put in;
* `Sheet.told_iff_readsOn_new`
                       the cells told are those that come to read new ones, directly or through
                       others.
-/

namespace Worksheet

/-- a cell that is read by one more is the same but for its readers -/
theorem Cell.ite_attach_eq (c : Cell) (id : CellId) (P : Prop) [Decidable P] :
    (if P then c.attach id else c)
      = c.withObservers (if P then (c.attach id).observers else c.observers) := by
  rw [Cell.attach_eq]
  split_ifs <;> rfl

namespace Sheet

/-- the cell `j` is in `ids`, or reads a cell there, directly or through others -/
def Told (s : Sheet) (ids : List CellId) (j : CellId) : Prop :=
  ∃ id ∈ ids, Relation.ReflTransGen s.Reads j id

theorem told_cons {s : Sheet} {id : CellId} {ids : List CellId} {j : CellId} :
    s.Told (id :: ids) j ↔ s.Told [id] j ∨ s.Told ids j := by
  simp only [Told, List.mem_cons, List.not_mem_nil, or_false, exists_eq_or_imp, exists_eq_left]

theorem told_singleton_iff {s : Sheet} {id : CellId} {c : Cell} (hc : s.cell? id = some c)
    {j : CellId} : s.Told [id] j ↔ j = id ∨ s.Told c.observers j := by
  simp only [Told, List.mem_singleton, exists_eq_left]
  constructor
  · intro hj
    rcases Relation.ReflTransGen.cases_tail hj with rfl | ⟨k, hjk, d, hd, hk⟩
    · exact .inl rfl
    · exact .inr ⟨k, Option.some.inj (hc.symm.trans hd) ▸ hk, hjk⟩
  · rintro (rfl | ⟨k, hk, hjk⟩)
    · exact .refl
    · exact hjk.tail ⟨c, hc, hk⟩

theorem Alike.told {s t : Sheet} (h : Alike s t) : t.Told = s.Told := by
  unfold Told
  rw [h.reads]

/-! ## notifications -/

/-- what is seen after the readers in `rs` have taken a value from the position `p` -/
structure Reached (s : Sheet) (p : Position) (rs : List CellId) (t : Sheet) : Prop where
  upToDate : ∀ {j}, s.Told rs j → ∀ i, t.UpToDate i j
  get? : ∀ {q}, q ≠ p → (∀ j, s.Told rs j → s.idAt? q ≠ some j) → ∀ i,
    (t.cell? i).map (·.snapshot.get? q) = (s.cell? i).map (·.snapshot.get? q)

theorem Reached.nil (s : Sheet) (p : Position) : Reached s p [] s :=
  ⟨fun ⟨_, h, _⟩ => absurd h List.not_mem_nil, fun _ _ _ => rfl⟩

/-- a reader takes a value, and then those that read it take theirs -/
theorem Reached.of_receive {s t : Sheet} (hs : s.Wired) {id r : CellId} {c d : Cell}
    (hc : s.cell? id = some c) (hr : r ∈ c.observers) (hd : s.cell? r = some d)
    (hsp : Spread (s.modify r (·.receive c.position c.shown)) r d.observers t)
    (h : Reached (s.modify r (·.receive c.position c.shown)) d.position d.observers t) :
    Reached s c.position [r] t := by
  have hal := alike_receive hs hc hr
  have hd' : (s.modify r (·.receive c.position c.shown)).cell? r
      = some (d.receive c.position c.shown) := by rw [cell?_modify_self, hd]; rfl
  refine ⟨fun {j} hj i => ?_, fun {q} hq hno i => ?_⟩
  · rcases (told_singleton_iff hd).mp hj with rfl | hj
    · exact hsp.upToDate_self (c := d.receive c.position c.shown) hd' i
    · exact h.upToDate (hal.told ▸ hj) i
  · have hqr : q ≠ d.position := fun e =>
      hno r ((told_singleton_iff hd).mpr (.inl rfl)) (e ▸ hs.idAt?_position hd)
    have hno' : ∀ j, Sheet.Told (s.modify r (·.receive c.position c.shown)) d.observers j →
        Sheet.idAt? (s.modify r (·.receive c.position c.shown)) q ≠ some j := fun j hj => by
      rw [hal.idAt?]
      rw [hal.told] at hj
      exact hno j ((told_singleton_iff hd).mpr (.inr hj))
    rw [h.get? hqr hno', cell?_modify]
    split_ifs with hi
    · rw [Option.map_map]
      refine Option.map_congr fun b _ => ?_
      show (b.snapshot.insert c.position c.shown).get? q = _
      rw [Snapshot.get?_insert, if_neg hq]
    · rfl

theorem Reached.cons {s t u : Sheet} {p : Position} {r : CellId} {rs : List CellId}
    (hst : Alike s t) (htu : ∀ {i j}, t.UpToDate i j → u.UpToDate i j) (h : Reached s p [r] t)
    (h' : Reached t p rs u) : Reached s p (r :: rs) u := by
  refine ⟨fun {j} hj i => ?_, fun {q} hq hno i => ?_⟩
  · rcases told_cons.mp hj with hj | hj
    · exact htu (h.upToDate hj i)
    · exact h'.upToDate (hst.told ▸ hj) i
  · have hno' : ∀ j, t.Told rs j → t.idAt? q ≠ some j := fun j hj => by
      rw [hst.told] at hj
      rw [hst.idAt?]
      exact hno j (told_cons.mpr (.inr hj))
    rw [h'.get? hq hno', h.get? hq fun j hj => hno j (told_cons.mpr (.inl hj))]

theorem Delivers.reached {s t : Sheet} {rs : List CellId} {id : CellId} {c : Cell}
    (h : Delivers c.position c.shown s rs t) (hs : s.Wired) (hc : s.cell? id = some c)
    (hrs : ∀ r ∈ rs, r ∈ c.observers) : Reached s c.position rs t := by
  refine h.wired_induction (motive := fun s _ c rs t => Reached s c.position rs t)
    (fun s _ c => Reached.nil s c.position) (fun hs hc hr hd hsp ih hsp' ih' => ?_) hs hc hrs
  exact Reached.cons (spread_of_receive hs hc hr hd hsp).alike hsp'.upToDate
    (Reached.of_receive hs hc hr hd hsp ih) ih'

section
variable {s : Sheet} (hs : s.Wired) {id : CellId} {c : Cell} (hc : s.cell? id = some c)
include hs hc

theorem reached_notify : Reached s c.position c.observers (s.notify id) := by
  have hn := notifies_notify hs id
  generalize s.notify id = t at hn ⊢
  cases hn with
  | gone h => rw [hc] at h; cases h
  | tell h hd =>
    obtain rfl := Option.some.inj (h.symm.trans hc)
    exact hd.reached hs hc fun _ hr => hr

theorem upToDate_notify_of_told {j : CellId} (hj : s.Told [id] j) (i : CellId) :
    (s.notify id).UpToDate i j := by
  rcases (told_singleton_iff hc).mp hj with rfl | hj
  · exact (spread_notify hs hc).upToDate_self hc i
  · exact (reached_notify hs hc).upToDate hj i

theorem get?_notify_of_not_told {q : Position} {k : CellId} (hk : s.idAt? q = some k)
    (hno : ¬s.Told [id] k) (i : CellId) : ((s.notify id).cell? i).map (·.snapshot.get? q)
      = (s.cell? i).map (·.snapshot.get? q) := by
  refine (reached_notify hs hc).get? (fun e => hno ?_) (fun j hj e => hno ?_) i
  · rw [e, hs.idAt?_position hc] at hk
    exact Option.some.inj hk ▸ (told_singleton_iff hc).mpr (.inl rfl)
  · rw [hk] at e
    exact Option.some.inj e ▸ (told_singleton_iff hc).mpr (.inr hj)

end

/-! ## one formula that is extended -/

/-- the formula reads more cells, and its readers have not been told yet -/
def enlarged (s : Sheet) (id : CellId) (ps : List Position) : Sheet :=
  (s.attachAll id ps).modify id fun c =>
    { c with snapshot := c.snapshot.extend (s.seed ps) }.evaluate

theorem notMem_keys_seed (s : Sheet) {ps : List Position} {q : Position} (hq : q ∉ ps) :
    q ∉ (s.seed ps).keys := fun h => by
  obtain ⟨v, hv⟩ := Snapshot.mem_keys.mp h
  rw [get?_seed, if_neg hq] at hv
  cases hv

section
variable {s : Sheet} (hs : s.Wired) {id : CellId} {ps : List Position} {i j : CellId}
include hs

theorem cell?_enlarged_of_ne (hj : j ≠ id) :
    ∃ os, (s.enlarged id ps).cell? j = (s.cell? j).map (·.withObservers os) := by
  have hcell : (s.enlarged id ps).cell? j = _ := cell?_enlarge hs j
  cases hd : s.cell? j with
  | none =>
    rw [hd] at hcell
    exact ⟨[], hcell⟩
  | some d =>
    rw [hd, Option.map_some] at hcell
    simp only [hj, if_false] at hcell
    exact ⟨_, hcell.trans (congrArg some (Cell.ite_attach_eq ..))⟩

theorem get?_enlarged {q : Position} (hq : q ∉ ps) : ((s.enlarged id ps).cell? i).map
    (·.snapshot.get? q) = (s.cell? i).map (·.snapshot.get? q) := by
  rw [show (s.enlarged id ps).cell? i = _ from cell?_enlarge hs i, Option.map_map]
  refine Option.map_congr fun d _ => ?_
  simp only [Function.comp_apply, Cell.ite_attach_eq]
  by_cases hi : i = id
  · simp only [hi, if_true]
    show (d.snapshot.extend (s.seed ps)).get? q = _
    rw [Snapshot.get?_extend, if_neg (s.notMem_keys_seed hq)]
  · simp only [hi, if_false]
    rfl

/-- the formula begins with what the new cells show -/
theorem upToDate_enlarged (hj : j ≠ id) (h : s.UpToDate i j) :
    (s.enlarged id ps).UpToDate i j := by
  intro a b ha hb hi
  rw [show (s.enlarged id ps).cell? i = _ from cell?_enlarge hs i] at ha
  rw [show (s.enlarged id ps).cell? j = _ from cell?_enlarge hs j] at hb
  obtain ⟨a', ha', rfl⟩ := Option.map_eq_some_iff.mp ha
  obtain ⟨b', hb', rfl⟩ := Option.map_eq_some_iff.mp hb
  simp only [hj, if_false] at hi ⊢
  have hold : (i = id → b'.position ∉ ps) → i ∈ b'.observers := fun hno => by
    split_ifs at hi with hp
    · exact (Cell.mem_observers_attach.mp hi).resolve_right fun e => hno e hp
    · exact hi
  rw [Cell.ite_attach_eq, Cell.ite_attach_eq]
  by_cases hii : i = id
  · simp only [hii, if_true]
    show (a'.snapshot.extend (s.seed ps)).get? b'.position = some b'.shown
    rw [Snapshot.get?_extend]
    by_cases hp : b'.position ∈ ps
    · have hseed : (s.seed ps).get? b'.position = some b'.shown := by
        rw [get?_seed, if_pos hp, shownAt?, hs.cellAt?_position hb']
        rfl
      rw [if_pos (Snapshot.mem_keys.mpr ⟨_, hseed⟩), hseed]
    · rw [if_neg (s.notMem_keys_seed hp)]
      exact h a' b' ha' hb' (hold fun _ => hp)
  · simp only [hii, if_false]
    exact h a' b' ha' hb' (hold fun e => absurd e hii)

end

/-! ## formulas that are extended -/

/-- Beyond those that the formulas in `ids` have of the line, there are no new ties.  What is seen of
the cells that are told is what they show; the others are as they were, and so is what is seen of
them. -/
structure Informed (s : Sheet) (axis : Axis) (index : Nat) (ids : List CellId) (t : Sheet) : Prop
    extends SameFrame s t where
  reads : ∀ {i j}, s.Reads i j → t.Reads i j
  of_reads : ∀ {i j}, t.Reads i j → s.Reads i j ∨ i ∈ ids
  upToDate : ∀ {i j}, s.UpToDate i j ∨ t.Told ids j → t.UpToDate i j
  get? : ∀ {q k}, s.idAt? q = some k → axis.coord q ≠ index → ¬t.Told ids k → ∀ i,
    (t.cell? i).map (·.snapshot.get? q) = (s.cell? i).map (·.snapshot.get? q)
  cell? : ∀ {j}, ¬t.Told ids j → ∃ os, t.cell? j = (s.cell? j).map (·.withObservers os)

namespace Informed
variable {s t u : Sheet} {axis : Axis} {index : Nat} {id : CellId} {ids : List CellId}

theorem nil (s : Sheet) (axis : Axis) (index : Nat) : Informed s axis index [] s where
  toSameFrame := SameFrame.refl s
  reads h := h
  of_reads := .inl
  upToDate h := h.elim (fun h => h) fun ⟨_, h, _⟩ => absurd h List.not_mem_nil
  get? _ _ _ _ := rfl
  cell? {j} _ := by
    cases hd : s.cell? j with
    | none => exact ⟨[], rfl⟩
    | some d => exact ⟨d.observers, rfl⟩

theorem cons (h : Informed s axis index [id] t) (h' : Informed t axis index ids u) :
    Informed s axis index (id :: ids) u := by
  -- a path that is new leads through one of the formulas that are extended later
  have hcut : ∀ {j}, u.Told [id] j → t.Told [id] j ∨ u.Told ids j := by
    rintro j ⟨k, hk, hpath⟩
    induction hpath using Relation.ReflTransGen.head_induction_on with
    | refl => exact .inl ⟨k, hk, .refl⟩
    | @head a b hab _ ih =>
      rcases h'.of_reads hab with hab' | ha
      · exact ih.imp (fun ⟨k, hk, hbk⟩ => ⟨k, hk, hbk.head hab'⟩)
          fun ⟨k, hk, hbk⟩ => ⟨k, hk, hbk.head hab⟩
      · exact .inr ⟨a, ha, .refl⟩
  have hkeep : ∀ {j}, t.Told [id] j → u.Told [id] j := fun {j} ⟨k, hk, hpath⟩ =>
    ⟨k, hk, Relation.ReflTransGen.mono (fun _ _ => h'.reads) j k hpath⟩
  refine ⟨h.toSameFrame.trans h'.toSameFrame, fun hr => h'.reads (h.reads hr), fun hr => ?_,
    fun hj => ?_, fun {q k} hq hline hno i => ?_, fun {j} hno => ?_⟩
  · rcases h'.of_reads hr with hr | hi
    · exact (h.of_reads hr).imp_right fun hi => List.mem_cons.mpr (.inl (List.mem_singleton.mp hi))
    · exact .inr (List.mem_cons_of_mem _ hi)
  · rcases hj with hj | hj
    · exact h'.upToDate (.inl (h.upToDate (.inl hj)))
    · rcases (told_cons.mp hj).elim hcut .inr with hj | hj
      · exact h'.upToDate (.inl (h.upToDate (.inr hj)))
      · exact h'.upToDate (.inr hj)
  · obtain ⟨hno1, hno2⟩ := not_or.mp (mt told_cons.mpr hno)
    rw [h'.get? ((h.idAt? q).trans hq) hline hno2, h.get? hq hline (mt hkeep hno1)]
  · obtain ⟨hno1, hno2⟩ := not_or.mp (mt told_cons.mpr hno)
    obtain ⟨os, hos⟩ := h.cell? (mt hkeep hno1)
    obtain ⟨os', hos'⟩ := h'.cell? hno2
    refine ⟨os', ?_⟩
    rw [hos', hos, Option.map_map]
    rfl

end Informed

theorem Grown.reads_iff {s t : Sheet} {es : List (CellId × List Position)} (h : Grown s es t)
    (hs : s.Wired) (ht : t.Wired) {i j : CellId} {d : Cell} (hd : s.cell? j = some d) :
    t.Reads i j ↔ (∃ c, s.cell? i = some c) ∧
      (s.Reads i j ∨ ∃ ps, (i, ps) ∈ es ∧ d.position ∈ ps) := by
  obtain ⟨d', hd', hp, _, _⟩ := h.cell hd
  cases hc : s.cell? i with
  | none =>
    refine ⟨fun hr => ?_, fun ⟨⟨c, hc⟩, _⟩ => (by cases hc)⟩
    obtain ⟨c, hc'⟩ := ht.live_of_reads hr
    rw [h.gone hc] at hc'
    cases hc'
  | some c =>
    obtain ⟨c', hc', _, _, hk⟩ := h.cell hc
    rw [ht.reads_iff hc' hd', hp, hk, hs.reads_iff hc hd]
    exact ⟨fun hr => ⟨⟨c, rfl⟩, hr⟩, And.right⟩

section
variable {s : Sheet} (hs : s.Wired) {axis : Axis} {index : Nat} (hline : s.Silent axis index)
include hs hline

theorem informed_extend {id : CellId} {c : Cell} (hc : s.cell? id = some c)
    (hid : axis.coord c.position ≠ index) {ps : List Position}
    (hps : ∀ p ∈ ps, axis.coord p = index ∧ s.contains p = true) :
    Informed s axis index [id] (s.extend id ps) := by
  have hr : (s.enlarged id ps).Wired := wired_enlarge hs hline hc hid hps
  obtain ⟨ht, hg, _⟩ := extend_spec hs hline hc hid hps
  have hal : Alike (s.enlarged id ps) (s.extend id ps) := alike_notify hr id
  obtain ⟨c', hc'⟩ : ∃ c', (s.enlarged id ps).cell? id = some c' :=
    ⟨_, (cell?_enlarge hs id).trans (congrArg _ hc)⟩
  refine ⟨hg.toSameFrame, fun {i j} h => ?_, fun {i j} h => ?_, fun {i j} h => ?_,
    fun {q k} hq hcoord hno i => ?_, fun {j} hno => ?_⟩
  · have hr := h
    obtain ⟨d, hd, _⟩ := h
    exact (hg.reads_iff hs ht hd).mpr ⟨hs.live_of_reads hr, .inl hr⟩
  · have hr := h
    obtain ⟨d', hd', _⟩ := h
    cases hd : s.cell? j with
    | none =>
      rw [hg.gone hd] at hd'
      cases hd'
    | some d =>
      refine ((hg.reads_iff hs ht hd).mp hr).2.imp_right fun ⟨_, hmem, _⟩ => ?_
      exact List.mem_singleton.mpr (Prod.mk.inj (List.mem_singleton.mp hmem)).1
  · rw [hal.told] at h
    by_cases hj : j = id
    · exact upToDate_notify_of_told hr hc' ((told_singleton_iff hc').mpr (.inl hj)) i
    · rcases h with h | h
      · exact upToDate_notify hr hc' (.inl (upToDate_enlarged hs hj h))
      · exact upToDate_notify_of_told hr hc' h i
  · rw [hal.told] at hno
    have hq' : (s.enlarged id ps).idAt? q = some k := by
      rw [← hal.idAt?, hg.idAt?, hq]
    exact (get?_notify_of_not_told hr hc' hq' hno i).trans
      (get?_enlarged hs fun hmem => hcoord (hps q hmem).1)
  · rw [hal.told] at hno
    have hj : j ≠ id := fun e => hno ((told_singleton_iff hc').mpr (.inl e))
    have ⟨os, hos⟩ : ∃ os, (s.enlarged id ps).cell? j = (s.cell? j).map (·.withObservers os) :=
      cell?_enlarged_of_ne hs hj
    refine ⟨os, ((spread_notify hr hc').cell?_eq j fun h => hno ?_).trans hos⟩
    exact ⟨id, List.mem_singleton_self id, h.to_reflTransGen⟩

end

theorem informed_foldl_extend (axis : Axis) (index : Nat) (es : List (CellId × List Position))
    {s : Sheet} (hs : s.Wired) (hline : s.Silent axis index)
    (hes : ∀ e ∈ es, s.Extendable axis index e) :
    Informed s axis index (es.map Prod.fst) (es.foldl (fun s e => s.extend e.1 e.2) s) := by
  induction es generalizing s with
  | nil => exact Informed.nil s axis index
  | cons e es ih =>
    obtain ⟨⟨c, hc, hid⟩, hps⟩ := hes e (List.mem_cons_self ..)
    obtain ⟨hw, hg, hl⟩ := extend_spec hs hline hc hid hps
    exact (informed_extend hs hline hc hid hps).cons
      (ih hw hl fun e' he' => hg.extendable (hes e' (List.mem_cons_of_mem _ he')))

/-! ## every insertion -/

/-- the formulas that are extended when a line is put in -/
def growing (s : Sheet) (axis : Axis) (index : Nat) : List CellId :=
  ((s.openedAt axis index).extensions axis index).map Prod.fst

section
variable {s t : Sheet} (hs : s.Wired) {axis : Axis} {index : Nat}
  (h : s.insertLine axis index = .ok t)
include hs h

theorem informed_insertLine :
    Informed (s.openedAt axis index) axis index (s.growing axis index) t := by
  obtain ⟨hindex, rfl⟩ := insertLine_eq_ok.mp h
  have hu := wired_openedAt hs axis index hindex
  have hline := silent_openedAt hs hindex
  exact informed_foldl_extend axis index _ hu hline fun e he => extendable_of_mem hu hline he

/-- a formula that grows reads a new cell -/
theorem exists_new_of_mem_growing {id : CellId} (hid : id ∈ s.growing axis index) :
    ∃ n, s.cell? n = none ∧ t.Reads id n := by
  obtain ⟨hindex, rfl⟩ := insertLine_eq_ok.mp h
  have hop := opened_openedAt hs axis index hindex
  have hu := wired_openedAt hs axis index hindex
  have hline := silent_openedAt hs hindex
  obtain ⟨e, he, rfl⟩ := List.mem_map.mp hid
  obtain ⟨c, hc, _, _, hne⟩ := (mem_extensions hu).mp he
  obtain ⟨p, hp⟩ := List.exists_mem_of_ne_nil _ hne
  obtain ⟨hcoord, hin⟩ := (extendable_of_mem hu hline he).2 p hp
  obtain ⟨n, d, _, hd, rfl⟩ := hu.exists_of_contains hin
  obtain ⟨hw, hg⟩ := grown_foldl_extend axis index _ hu hline
    fun e he => extendable_of_mem hu hline he
  refine ⟨n, ?_, (hg.reads_iff hu hw hd).mpr ⟨⟨c, hc⟩, .inr ⟨e.2, he, hp⟩⟩⟩
  rcases hop.of_cell hd with ⟨c', ms, _, _, rfl⟩ | ⟨hnone, _, _⟩
  · exact absurd hcoord (axis.coord_opened_ne index c'.position)
  · exact hnone

/-- told are the cells that come to read new ones, directly or through others -/
theorem told_iff_readsOn_new {j : CellId} :
    t.Told (s.growing axis index) j ↔ ∃ n, s.cell? n = none ∧ t.ReadsOn j n := by
  constructor
  · rintro ⟨id, hid, hpath⟩
    obtain ⟨n, hn, hr⟩ := exists_new_of_mem_growing hs h hid
    exact ⟨n, hn, Relation.TransGen.tail' hpath hr⟩
  · rintro ⟨n, hn, hpath⟩
    obtain ⟨k, hjk, hkn⟩ := Relation.TransGen.tail'_iff.mp hpath
    refine ⟨k, ((informed_insertLine hs h).of_reads hkn).resolve_left fun hr => ?_, hjk⟩
    have hop := opened_openedAt hs axis index (insertLine_eq_ok.mp h).1
    obtain ⟨d, hd, _⟩ := hop.reads hr
    rw [hn] at hd
    cases hd

end

end Sheet

end Worksheet
