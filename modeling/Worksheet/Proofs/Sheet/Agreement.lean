import Worksheet.Proofs.Sheet.Following
import Worksheet.Proofs.Sheet.Throughout

/-!
# Texts and the positions read

* `Sheet.Agrees`       every cell that reads anything reads the positions that its text names;
* `Sheet.Lasting`      its text names them in a way that lasts;
* `Sheet.Unpadded`     the operations that write no labels with leading zeros;
* `Sheet.Lasting.apply` these keep a sheet lasting, and a lasting sheet agrees;
* `Sheet.not_agrees_of_leadingZero`
                       a label with a leading zero ceases to agree once it has to move;
* `Sheet.agrees_and_broken` both for runs, where the second is for content without ranges.
-/

namespace Worksheet

namespace Sheet

/-! ## every operation -/

/-- what a cell reads is written in its text, in a way that lasts -/
def Lasting (s : Sheet) : Prop :=
  ∀ i c, s.cell? i = some c → c.snapshot.keys ≠ [] → Written c.raw c.snapshot.keys

/-- content that is stored and wired has no labels with leading zeros -/
def Plain (s : Sheet) (p : Position) (content : Text) : Prop :=
  ∀ ps, s.targets p content = .ok ps → s.closesCycle p ps = false →
    ∀ call ∈ Call.all .strict content, ∀ t ∈ call.parts, ¬Position.LeadingZero t

theorem written_of_targets {s : Sheet} {p : Position} {content : Text} {ps : List Position}
    (h : s.targets p content = .ok ps)
    (h0 : ∀ call ∈ Call.all .strict content, ∀ t ∈ call.parts, ¬Position.LeadingZero t) :
    Written content ps := by
  obtain ⟨qss, hqss, rfl⟩ := targets_eq_ok.mp h
  have hspan : ∀ {call qs}, call ∈ Call.all .strict content → call.targets p s.rows s.cols = .ok qs →
      ∃ ls, call.Spells ls ∧ call.shape.span ls = qs := fun hcall hqs =>
    Call.exists_spells (Call.positions?_of_targets hqs).1 (h0 _ hcall)
  refine ⟨fun call hcall => ?_, fun {q} => ?_⟩
  · obtain ⟨qs, _, hqs⟩ := exists_of_forall₂_of_mem_left hqss hcall
    exact (hspan hcall hqs).imp fun _ h => h.1
  · rw [List.mem_eraseDups, List.mem_flatten]
    constructor
    · rintro ⟨qs, hmem, hq⟩
      obtain ⟨call, hcall, hqs⟩ := exists_of_forall₂_of_mem_right hqss hmem
      obtain ⟨ls, hls, rfl⟩ := hspan hcall hqs
      exact ⟨call, hcall, ls, hls, hq⟩
    · rintro ⟨call, hcall, ls, hls, hq⟩
      obtain ⟨qs, hmem, hqs⟩ := exists_of_forall₂_of_mem_left hqss hcall
      obtain ⟨ls', hls', rfl⟩ := hspan hcall hqs
      obtain rfl := hls.unique hls'
      exact ⟨_, hmem, hq⟩

section
variable {s : Sheet} (hs : s.Wired) (h : s.Lasting)
include hs h

theorem lasting_set {p : Position} {content : Text} (hplain : s.Plain p content) :
    (s.set p content).Lasting :=
  throughout_set hs h fun ps ht hcyc _ hkeys =>
    have hw := written_of_targets ht (hplain ps ht hcyc)
    ⟨hw.spells, fun {q} => (hkeys q).trans hw.mem_iff⟩

theorem lasting_insertLine {axis : Axis} {index : Nat} {t : Sheet}
    (ht : s.insertLine axis index = .ok t) (hfits : t.Fits) : t.Lasting :=
  throughout_insertLine hs h ht fun hw hms hin hkeys => hw.opened hms hfits hin hkeys

theorem lasting_deleteLine {axis : Axis} {index : Nat} {t : Sheet}
    (ht : s.deleteLine axis index = .ok t) : t.Lasting :=
  throughout_deleteLine hs h ht fun hw hms hline => hw.closed hms hline

end

/-! ## every run -/

/-- an operation whose result can be labelled, and that writes no labels with leading zeros -/
def Unpadded (s : Sheet) (o : Operation) : Prop :=
  (s.apply o).Fits ∧ ∀ p content, o = .set p content → s.Plain p content

theorem plain_nil (s : Sheet) (p : Position) : s.Plain p [] := fun _ _ _ call hcall => by
  cases hcall

theorem Lasting.apply {s : Sheet} (hs : s.Wired) (h : s.Lasting) {o : Operation}
    (ho : s.Unpadded o) : (s.apply o).Lasting := by
  obtain ⟨hfits, hplain⟩ := ho
  cases o with
  | set p content => exact lasting_set hs h (hplain p content rfl)
  | clear p => exact lasting_set hs h (s.plain_nil p)
  | recolor p color => exact throughout_recolor h p color
  | insert axis index =>
    exact apply_insert (motive := fun t => t.Fits → t.Lasting) (fun _ => h)
      (fun _ ht => lasting_insertLine hs h ht) hfits
  | delete axis index => exact apply_delete h fun _ ht => lasting_deleteLine hs h ht

theorem ReachableBy.lasting {s : Sheet} (h : ReachableBy Unpadded s) : s.Lasting := by
  induction h with
  | blank width height color => exact throughout_blank width height color
  | step o hr ho ih => exact ih.apply hr.wired ho

/-- every cell that reads anything reads the positions that its text names -/
def Agrees (s : Sheet) : Prop :=
  ∀ i c, s.cell? i = some c → c.snapshot.keys ≠ [] → ∀ q, q ∈ c.snapshot.keys ↔ Named c.raw q

theorem Lasting.agrees {s : Sheet} (h : s.Lasting) (hs : s.Wired) (hfits : s.Fits) : s.Agrees :=
  fun i c hc hk _ => (h i c hc hk).mem_iff_named fun _ hp => hfits.bounds (hs.key_inside hc hp)

/-! ## labels with leading zeros -/

section
variable {s t : Sheet} (hs : s.Wired) {axis : Axis} {index : Nat}
  (h : s.insertLine axis index = .ok t) (hfits : t.Fits) {i : CellId} {c : Cell}
  (hc : s.cell? i = some c) (hk : c.snapshot.keys ≠ []) {call : Call}
  (hcall : call ∈ Call.all .strict c.raw) (hlist : ∀ d ∈ Call.all .strict c.raw, d.shape ≠ .range)
include hs h hfits hc hk hcall hlist

/-- what a label with a leading zero names is the same after an insertion, while the cells are not -/
theorem not_agrees_of_leadingZero {ps : List Position} (hps : call.positions? = some ps)
    {label : Text} (hlabel : label ∈ call.parts) (h0 : Position.LeadingZero label) {p : Position}
    (hp : Position.ofLabel? label = some p) (hcoord : axis.coord p = index) : ¬t.Agrees := by
  intro hag
  obtain ⟨ms, e, hms, he, hraw, hin, hkeys⟩ := cell_of_insertLine hs h hc hk
  have hkeys' : ∀ q, q ∈ e.snapshot.keys ↔ ∃ k ∈ c.snapshot.keys, axis.opened index k = q :=
    fun q => by
      rw [hkeys, Cell.mem_keys_of_follows hms, or_iff_left]
      rintro ⟨_, _, _, hmem, a, b, hab, _⟩
      rw [all_followAll] at hmem
      obtain ⟨d, hd, rfl⟩ := List.mem_map.mp hmem
      have hsh := (Call.corners?_eq_some_iff_decodes.mp hab).1
      exact hlist d hd ((Call.shape_relabelledAll ms).symm.trans hsh)
  have hne : e.snapshot.keys ≠ [] := by
    obtain ⟨k, hmem⟩ := List.exists_mem_of_ne_nil _ hk
    exact List.ne_nil_of_mem ((hkeys' _).mpr ⟨k, hmem, rfl⟩)
  have hmoved : ∀ q, q.row < maxCount ∧ q.col < maxCount →
      (Position.movedAll ms q).row < maxCount ∧ (Position.movedAll ms q).col < maxCount :=
    fun q hq => by
      rcases hms.movedAll_cases q with ⟨hqk, eq⟩ | ⟨_, eq⟩
      · rw [eq]
        exact hfits.bounds (hin _ ((Cell.mem_keys_of_follows hms).mpr ⟨q, hqk, rfl⟩))
      · rw [eq]
        exact hq
  obtain ⟨ls, hls, _⟩ := Call.positions?_eq_some.mp hps
  obtain ⟨ls', hls', hstay⟩ := hls.relabelledAll ms fun q _ => hmoved q
  have hnot : p ∉ e.snapshot.keys := fun hm => by
    obtain ⟨k, _, rfl⟩ := (hkeys' p).mp hm
    exact axis.coord_opened_ne index k hcoord
  have hsh : (call.relabelledAll ms).shape ≠ .range := by
    rw [Call.shape_relabelledAll]
    exact hlist call hcall
  refine hnot ((hag i e he hne p).mpr ⟨call.relabelledAll ms, ?_, _,
    Call.positions?_eq_some.mpr ⟨ls', hls', rfl⟩, ?_⟩)
  · rw [hraw, all_followAll]
    exact List.mem_map_of_mem hcall
  · rw [Shape.span_of_ne hsh]
    exact hstay label hlabel h0 p hp

end

/-- content that is stored and wired is there after the notification -/
theorem exists_stored {s : Sheet} (hs : s.Wired) {p : Position} (hp : s.contains p = true)
    {content : Text} {ps : List Position} (hps : s.targets p content = .ok ps)
    (hno : s.closesCycle p ps = false) : SameFrame s (s.set p content) ∧
      ∃ id c, (s.set p content).cell? id = some c ∧ c.raw = content ∧
        ∀ q, q ∈ c.snapshot.keys ↔ q ∈ ps := by
  obtain ⟨id, c, hid, hc, rfl⟩ := hs.exists_of_contains hp
  have hin : ∀ q ∈ ps, s.contains q = true := fun _ hq => inside_of_mem_targets hps hq
  have hal := alike_notify (wired_rewire hs hc hps hno) id
  have hcell := (cell?_rewire hs hc content ps id).trans (congrArg _ hc)
  obtain ⟨d, hd, ho⟩ := hal.symm.cell hcell
  rw [set_of_not_closesCycle hid hps hno]
  refine ⟨(rewired_rewire hs hc content hin).toSameFrame.trans hal.toSameFrame, id, d, hd, ?_,
    fun q => ?_⟩
  · refine (congrArg Outline.raw ho).trans ?_
    simp only [if_true]
    rfl
  · have hkeys : d.snapshot.keys = (s.seed ps).keys := by
      refine (congrArg Outline.keys ho).trans ?_
      simp only [if_true]
      rfl
    rw [hkeys, mem_keys_seed hs hin]

/-- The texts of a run that writes no labels with leading zeros agree with the positions read.  If
content without ranges is written next, they agree after every insertion exactly if it has no such
labels either. -/
theorem agrees_and_broken {s : Sheet} (hr : ReachableBy Unpadded s) (hfits : s.Fits) :
    s.Agrees ∧ (s.rows < maxCount → s.cols < maxCount → ∀ p content ps, s.contains p = true →
      s.targets p content = .ok ps → s.closesCycle p ps = false →
      (∀ call ∈ Call.all .strict content, call.shape ≠ .range) →
      ((∀ axis index t, (s.set p content).insertLine axis index = .ok t → t.Agrees) ↔
        ∀ call ∈ Call.all .strict content, ∀ t ∈ call.parts, ¬Position.LeadingZero t)) := by
  refine ⟨hr.lasting.agrees hr.wired hfits, ?_⟩
  intro hrows hcols p content ps hp hps hno hlist
  have hs := hr.wired
  have hs' := wired_set hs p content
  obtain ⟨hframe, id, c, hc, hraw, hkeys⟩ := exists_stored hs hp hps hno
  have hrows' : (s.set p content).rows < maxCount := lt_of_eq_of_lt (hframe.count .row) hrows
  have hcols' : (s.set p content).cols < maxCount := lt_of_eq_of_lt (hframe.count .column) hcols
  have hroom : ∀ axis, (s.set p content).HasRoom axis
    | .row => ⟨⟨hrows'.le, hcols'.le⟩, hrows'⟩
    | .column => ⟨⟨hrows'.le, hcols'.le⟩, hcols'⟩
  constructor
  · intro hag call hcall label hlabel h0
    obtain ⟨qss, hqss, rfl⟩ := targets_eq_ok.mp hps
    obtain ⟨qs, hqs, hcallqs⟩ := exists_of_forall₂_of_mem_left hqss hcall
    obtain ⟨hpos, hnames⟩ := Call.positions?_of_targets hcallqs
    obtain ⟨q, hq, hqr, hqc, _⟩ := hnames label hlabel
    have hk : c.snapshot.keys ≠ [] := by
      obtain ⟨ls, hls, rfl⟩ := Call.positions?_eq_some.mp hpos
      obtain ⟨k, hkl, _⟩ := exists_of_forall₂_of_mem_left hls.parts hlabel
      refine List.ne_nil_of_mem ((hkeys k).mpr (List.mem_eraseDups.mpr (List.mem_flatten.mpr ?_)))
      exact ⟨_, hqs, Shape.mem_span hls.two hkl⟩
    have hins : ∃ t, (s.set p content).insertLine .row q.row = .ok t :=
      ⟨_, insertLine_eq_ok.mpr ⟨(lt_of_lt_of_eq hqr (hframe.count .row).symm).le, rfl⟩⟩
    obtain ⟨t, ht⟩ := hins
    subst hraw
    exact not_agrees_of_leadingZero hs' ht (fits_insertLine hs' (hroom .row) ht) hc hk hcall hlist
      hpos hlabel h0 hq rfl (hag _ _ _ ht)
  · intro h0 axis index t ht
    have hlast : (s.set p content).Lasting := lasting_set hs hr.lasting fun _ _ _ => h0
    have hfits' : t.Fits := fits_insertLine hs' (hroom axis) ht
    exact (lasting_insertLine hs' hlast ht hfits').agrees (extended_insertLine hs' ht).toWired hfits'

/-- a range in small letters has grown by a row, and a label with a leading zero is left behind -/
theorem agrees_and_broken_b1 :
    (((blank 3 3 []).apply (.set ⟨0, 1⟩ "=SUM(a1:A2)".toList)).apply (.insert .row 1)).Agrees ∧
      ¬∀ axis index t, ((blank 3 3 []).set ⟨0, 1⟩ "=REF(A01)".toList).insertLine axis index = .ok t →
        t.Agrees := by
  have hset : (blank 3 3 []).Unpadded (.set ⟨0, 1⟩ "=SUM(a1:A2)".toList) := by
    refine ⟨by decide +kernel, fun p content h => ?_⟩
    obtain ⟨rfl, rfl⟩ := Operation.set.inj h
    exact fun _ _ _ => by decide +kernel
  have hinsert : ((blank 3 3 []).apply (.set ⟨0, 1⟩ "=SUM(a1:A2)".toList)).Unpadded
      (.insert .row 1) := ⟨by decide +kernel, fun _ _ h => by cases h⟩
  refine ⟨(agrees_and_broken (.step _ (.step _ (.blank 3 3 []) hset) hinsert) hinsert.1).1,
    fun h => absurd (show Position.LeadingZero "A01".toList by decide) ?_⟩
  have hiff := (agrees_and_broken (.blank 3 3 []) (by decide)).2 (by decide) (by decide) ⟨0, 1⟩
    "=REF(A01)".toList [⟨0, 0⟩] (by decide) (by decide +kernel) (by decide +kernel)
    (by decide +kernel)
  exact hiff.mp h ⟨"REF".toList, "A01".toList⟩ (by decide +kernel) _ (by decide +kernel)

/-- the text of `B2` says `A01` after the row is put in, and the cell reads `A2` -/
theorem not_agrees_a01 : ∃ s : Sheet, s.Reachable ∧ s.Fits ∧ ¬s.Agrees := by
  refine ⟨((blank 3 3 []).apply (.set ⟨0, 1⟩ "=REF(A01)".toList)).apply (.insert .row 0),
    .step _ (.step _ (.blank 3 3 []) trivial) trivial, by decide +kernel, fun h => ?_⟩
  have hcell : ((((blank 3 3 []).apply (.set ⟨0, 1⟩ "=REF(A01)".toList)).apply
      (.insert .row 0)).cell? 1).map (fun c => (c.raw, c.snapshot.keys))
        = some ("=REF(A01)".toList, [⟨1, 0⟩]) := by decide +kernel
  obtain ⟨c, hc, e⟩ := Option.map_eq_some_iff.mp hcell
  obtain ⟨hraw, hkeys⟩ := Prod.mk.inj e
  have hnamed := (h 1 c hc (by rw [hkeys]; decide) ⟨1, 0⟩).mp (by rw [hkeys]; decide)
  obtain ⟨call, hcall, ps, hps, hq⟩ := hraw ▸ hnamed
  have hall : Call.all .strict "=REF(A01)".toList = [⟨"REF".toList, "A01".toList⟩] := by
    decide +kernel
  rw [hall, List.mem_singleton] at hcall
  have hpos : call.positions? = some [⟨0, 0⟩] := by
    rw [hcall]
    decide +kernel
  rw [hpos] at hps
  rw [← Option.some.inj hps] at hq
  revert hq
  decide

end Sheet

end Worksheet
