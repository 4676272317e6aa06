import Worksheet.Proofs.Formula.Reference
import Worksheet.Proofs.Sheet.Insertion
import Worksheet.Proofs.Sheet.Notification
import Worksheet.Proofs.Sheet.Rewiring

/-!
# Ranges that grow

* `Ranged`             the ranges of a text cover a position;
* `Sheet.mem_newTargets` the cells of a new line that lie in the ranges of a formula;
* `Sheet.Grown`        some cells read more positions than before, and no text has changed;
* `Sheet.grown_foldl_extend` formulas that are extended to cells which read nothing;
* `Sheet.Extended`     the formulas of a sheet read the cells of a line that lie in their ranges;
* `Sheet.extended_insertLine`, `Sheet.exists_cell_of_insertLine`
                       what every cell reads after an insertion.

No search for a cycle is made when a range is extended.  None is needed: the cells of the new line
read nothing, so that no path leads on from them.
-/

namespace Worksheet

/-- the ranges of a text cover a position -/
def Ranged (raw : Text) (p : Position) : Prop :=
  ∃ call ∈ Call.all .strict raw, ∃ a b, call.corners? = some (a, b) ∧ p ∈ Position.rect a b

namespace Sheet

/-! ## what is added -/

theorem spans_of_mem_rect {axis : Axis} {a b p : Position} (h : p ∈ Position.rect a b) :
    spans axis (axis.coord p) a b = true := by
  have hr := Position.mem_rect.mp h
  rw [spans, Bool.and_eq_true, decide_eq_true_eq, decide_eq_true_eq]
  cases axis
  · exact hr.1
  · exact hr.2

theorem mem_newTargets {s : Sheet} {axis : Axis} {index : Nat} {id : CellId} {raw : Text}
    {p : Position} : p ∈ s.newTargets axis index id raw ↔
      Ranged raw p ∧ axis.coord p = index ∧ s.contains p = true ∧ s.idAt? p ≠ some id := by
  rw [newTargets, List.mem_eraseDups, List.mem_flatMap]
  constructor
  · rintro ⟨call, hcall, hp⟩
    split at hp
    · next a b hab =>
      split_ifs at hp
      · obtain ⟨hrect, hrest⟩ := List.mem_filter.mp hp
        simp only [Bool.and_eq_true, decide_eq_true_eq] at hrest
        exact ⟨⟨call, hcall, a, b, hab, hrect⟩, hrest.1.1, hrest.1.2, hrest.2⟩
      · cases hp
    · cases hp
  · rintro ⟨⟨call, hcall, a, b, hab, hrect⟩, rfl, hin, hne⟩
    refine ⟨call, hcall, ?_⟩
    rw [hab]
    show p ∈ if spans axis (axis.coord p) a b then _ else _
    rw [if_pos (spans_of_mem_rect hrect)]
    exact List.mem_filter.mpr ⟨hrect, by simp [hin, hne]⟩

theorem extension_eq_some {s : Sheet} {axis : Axis} {index : Nat} {id : CellId}
    {e : CellId × List Position} : s.extension axis index id = some e ↔
      ∃ c, s.cell? id = some c ∧ c.snapshot.keys ≠ [] ∧
        e = (id, s.newTargets axis index id c.raw) ∧ e.2 ≠ [] := by
  rw [extension]
  simp only [bind, Option.bind_eq_some_iff]
  refine exists_congr fun c => and_congr_right fun _ => ?_
  rw [ne_eq, ← Snapshot.isEmpty_iff_keys]
  split_ifs with h1 h2
  · simp [h1]
  · simp only [h1, Bool.false_eq_true, not_false_eq_true, true_and, false_iff]
    rintro ⟨rfl, hne⟩
    exact hne h2
  · simp only [h1, Bool.false_eq_true, not_false_eq_true, true_and, Option.some.injEq]
    exact ⟨fun e => ⟨e.symm, e ▸ h2⟩, fun h => h.1.symm⟩

/-! ## one formula -/

/-- the cells named in `es` read the positions given there besides -/
structure Grown (s : Sheet) (es : List (CellId × List Position)) (t : Sheet) : Prop
    extends SameFrame s t where
  gone : ∀ {j}, s.cell? j = none → t.cell? j = none
  cell : ∀ {j d}, s.cell? j = some d → ∃ e, t.cell? j = some e ∧ e.position = d.position ∧
    e.raw = d.raw ∧ ∀ q, q ∈ e.snapshot.keys ↔ q ∈ d.snapshot.keys ∨ ∃ ps, (j, ps) ∈ es ∧ q ∈ ps

theorem Grown.nil (s : Sheet) : Grown s [] s :=
  ⟨SameFrame.refl s, fun h => h, fun h => ⟨_, h, rfl, rfl, fun _ => by simp⟩⟩

theorem Grown.append {s t u : Sheet} {es es' : List (CellId × List Position)} (h : Grown s es t)
    (h' : Grown t es' u) : Grown s (es ++ es') u := by
  refine ⟨h.toSameFrame.trans h'.toSameFrame, fun hd => h'.gone (h.gone hd), fun hd => ?_⟩
  obtain ⟨e, he, hp, hr, hk⟩ := h.cell hd
  obtain ⟨f, hf, hp', hr', hk'⟩ := h'.cell he
  refine ⟨f, hf, hp'.trans hp, hr'.trans hr, fun q => ?_⟩
  rw [hk', hk, or_assoc, ← exists_or]
  simp only [List.mem_append, or_and_right]

theorem Grown.alike {s t u : Sheet} {es : List (CellId × List Position)} (h : Grown s es t)
    (h' : Alike t u) : Grown s es u := by
  refine ⟨h.toSameFrame.trans h'.toSameFrame, fun {j} hd => ?_, fun hd => ?_⟩
  · have e := h'.outline j
    rw [h.gone hd] at e
    exact Option.map_eq_none_iff.mp e
  · obtain ⟨e, he, hp, hr, hk⟩ := h.cell hd
    obtain ⟨f, hf, ho⟩ := h'.symm.cell he
    refine ⟨f, hf, (congrArg Outline.position ho).trans hp, (congrArg Outline.raw ho).trans hr,
      fun q => ?_⟩
    rw [show f.snapshot.keys = e.snapshot.keys from congrArg Outline.keys ho, hk]

section
variable {s : Sheet} (hs : s.Wired) {id : CellId} {c : Cell} (hc : s.cell? id = some c)
  {ps : List Position} (hps : ∀ p ∈ ps, s.contains p = true)
include hs

theorem cell?_enlarge (j : CellId) :
    ((s.attachAll id ps).modify id fun c =>
      { c with snapshot := c.snapshot.extend (s.seed ps) }.evaluate).cell? j
      = (s.cell? j).map fun d =>
        let d := if d.position ∈ ps then d.attach id else d
        if j = id then { d with snapshot := d.snapshot.extend (s.seed ps) }.evaluate else d := by
  rw [cell?_modify, cell?_attachAll]
  cases hd : s.cell? j with
  | none => simp
  | some d =>
    simp only [hs.exists_idAt?_iff hd, Option.map_some]
    split_ifs <;> rfl

include hc hps

theorem rewired_enlarge : Rewired s id (c.snapshot.keys ++ ps)
    ((s.attachAll id ps).modify id fun c =>
      { c with snapshot := c.snapshot.extend (s.seed ps) }.evaluate) where
  toSameFrame := (sameFrame_attachAll ..).trans (sameFrame_modify ..)
  gone h := by rw [cell?_enlarge hs, h]; rfl
  cell {j d} hd := by
    have ho : (if j = id then { (if d.position ∈ ps then d.attach id else d) with
          snapshot := (if d.position ∈ ps then d.attach id else d).snapshot.extend
            (s.seed ps) }.evaluate
        else if d.position ∈ ps then d.attach id else d).observers
        = (if d.position ∈ ps then d.attach id else d).observers := by split_ifs <;> rfl
    refine ⟨_, (cell?_enlarge hs j).trans (congrArg _ hd), ?_, fun i => ?_, fun hn => ?_,
      fun q => ?_⟩
    · simp only [Cell.attach_eq]
      split_ifs <;> rfl
    · rw [ho, List.mem_append, hs.mem_keys_iff hc hd]
      by_cases hp : d.position ∈ ps
      · rw [if_pos hp, Cell.mem_observers_attach]
        by_cases hi : i = id <;> simp [hi, hp]
      · rw [if_neg hp]
        by_cases hi : i = id <;> simp [hi, hp]
    · rw [ho]
      split_ifs
      · exact Cell.nodup_observers_attach id hn
      · exact hn
    · by_cases hj : j = id
      · subst hj
        obtain rfl := Option.some.inj (hc.symm.trans hd)
        rw [if_pos rfl, List.mem_append, or_comm, ← mem_keys_seed hs hps]
        simp only [if_true, Cell.attach_eq]
        split_ifs <;> exact Snapshot.mem_keys_extend
      · simp only [hj, if_false, Cell.attach_eq]
        split_ifs <;> exact Iff.rfl

theorem grown_enlarge : Grown s [(id, ps)] ((s.attachAll id ps).modify id fun c =>
    { c with snapshot := c.snapshot.extend (s.seed ps) }.evaluate) := by
  have h := rewired_enlarge hs hc hps
  refine ⟨h.toSameFrame, h.gone, fun {j d} hd => ?_⟩
  obtain ⟨e, he, hp, _, _, hk⟩ := h.cell hd
  refine ⟨e, he, hp, ?_, fun q => ?_⟩
  · rw [cell?_enlarge hs, hd] at he
    rw [← Option.some.inj he]
    simp only [Cell.attach_eq]
    split_ifs <;> rfl
  · rw [hk]
    by_cases hj : j = id
    · subst hj
      obtain rfl := Option.some.inj (hc.symm.trans hd)
      simp
    · simp [hj]

end

/-! ## formulas that are extended to a line which reads nothing -/

/-- the cells of a line read nothing -/
def Silent (s : Sheet) (axis : Axis) (index : Nat) : Prop :=
  ∀ j d, s.cell? j = some d → axis.coord d.position = index → d.snapshot.keys = []

section
variable {s : Sheet} (hs : s.Wired) {axis : Axis} {index : Nat} (hline : s.Silent axis index)
include hs hline

theorem wired_enlarge {id : CellId} {c : Cell} (hc : s.cell? id = some c)
    (hid : axis.coord c.position ≠ index) {ps : List Position}
    (hps : ∀ p ∈ ps, axis.coord p = index ∧ s.contains p = true) :
    Sheet.Wired ((s.attachAll id ps).modify id fun c =>
      { c with snapshot := c.snapshot.extend (s.seed ps) }.evaluate) := by
  have hin : ∀ p ∈ ps, s.contains p = true := fun p hp => (hps p hp).2
  refine (rewired_enlarge hs hc hin).wired hs ⟨c, hc⟩
    (fun p hp => (List.mem_append.mp hp).elim (hs.key_inside hc) (hin p)) fun j d hd hp hpath => ?_
  rcases List.mem_append.mp hp with hp | hp
  · exact hs.acyclic id (Relation.TransGen.head' ((hs.reads_iff hc hd).mpr hp) hpath)
  · have hd0 := hline j d hd (hps _ hp).1
    rcases Relation.ReflTransGen.cases_head hpath with rfl | ⟨k, hjk, _⟩
    · obtain rfl := Option.some.inj (hc.symm.trans hd)
      exact hid (hps _ hp).1
    · have hread := hjk
      obtain ⟨e, he, _⟩ := hjk
      have hk := (hs.reads_iff hd he).mp hread
      rw [hd0] at hk
      cases hk

theorem extend_spec {id : CellId} {c : Cell} (hc : s.cell? id = some c)
    (hid : axis.coord c.position ≠ index) {ps : List Position}
    (hps : ∀ p ∈ ps, axis.coord p = index ∧ s.contains p = true) :
    (s.extend id ps).Wired ∧ Grown s [(id, ps)] (s.extend id ps) ∧
      (s.extend id ps).Silent axis index := by
  have hw := wired_enlarge hs hline hc hid hps
  have hal : Alike _ (s.extend id ps) := alike_notify hw id
  have hg := (grown_enlarge hs hc fun p hp => (hps p hp).2).alike hal
  refine ⟨hal.wired hw, hg, fun j e he hj => ?_⟩
  cases hd : s.cell? j with
  | none =>
    rw [hg.gone hd] at he
    cases he
  | some d =>
    obtain ⟨e', he', hp, _, hk⟩ := hg.cell hd
    obtain rfl := Option.some.inj (he.symm.trans he')
    have hd0 := hline j d hd (hp ▸ hj)
    have hne : j ≠ id := fun eq => hid (by
      subst eq
      obtain rfl := Option.some.inj (hc.symm.trans hd)
      exact hp ▸ hj)
    refine List.eq_nil_iff_forall_not_mem.mpr fun q hq => ?_
    rw [hk, hd0] at hq
    rcases hq with hq | ⟨_, hmem, _⟩
    · cases hq
    · exact hne (Prod.mk.inj (List.mem_singleton.mp hmem)).1

end

/-- a formula that is not on a line, and places on that line -/
def Extendable (s : Sheet) (axis : Axis) (index : Nat) (e : CellId × List Position) : Prop :=
  (∃ c, s.cell? e.1 = some c ∧ axis.coord c.position ≠ index) ∧
    ∀ p ∈ e.2, axis.coord p = index ∧ s.contains p = true

theorem Grown.extendable {s t : Sheet} {es : List (CellId × List Position)} (h : Grown s es t)
    {axis : Axis} {index : Nat} {e : CellId × List Position} (he : s.Extendable axis index e) :
    t.Extendable axis index e := by
  obtain ⟨⟨c, hc, hid⟩, hps⟩ := he
  obtain ⟨d, hd, hp, _⟩ := h.cell hc
  exact ⟨⟨d, hd, hp ▸ hid⟩, fun p hp => ⟨(hps p hp).1, h.contains p ▸ (hps p hp).2⟩⟩

theorem grown_foldl_extend (axis : Axis) (index : Nat) (es : List (CellId × List Position))
    {s : Sheet} (hs : s.Wired) (hline : s.Silent axis index)
    (hes : ∀ e ∈ es, s.Extendable axis index e) :
    (es.foldl (fun s e => s.extend e.1 e.2) s).Wired ∧
      Grown s es (es.foldl (fun s e => s.extend e.1 e.2) s) := by
  induction es generalizing s with
  | nil => exact ⟨hs, Grown.nil s⟩
  | cons e es ih =>
    obtain ⟨⟨c, hc, hid⟩, hps⟩ := hes e (List.mem_cons_self ..)
    obtain ⟨hw, hg, hl⟩ := extend_spec hs hline hc hid hps
    have hrest := ih hw hl fun e' he' => hg.extendable (hes e' (List.mem_cons_of_mem _ he'))
    exact ⟨hrest.1, hg.append hrest.2⟩

/-! ## every insertion -/

/-- formulas read the cells of a line that lie in their ranges, unless they read nothing -/
structure Extended (s : Sheet) (axis : Axis) (index : Nat) (t : Sheet) : Prop
    extends SameFrame s t, Wired t where
  of_cell : ∀ {j e}, t.cell? j = some e → ∃ d, s.cell? j = some d ∧ e.position = d.position ∧
    e.raw = d.raw ∧ ∀ q, q ∈ e.snapshot.keys ↔
      q ∈ d.snapshot.keys ∨ d.snapshot.keys ≠ [] ∧ q ∈ s.newTargets axis index j d.raw

theorem Extended.cell {s t : Sheet} {axis : Axis} {index : Nat} (h : Extended s axis index t)
    (hs : s.Placed) {j : CellId} {d : Cell} (hd : s.cell? j = some d) :
    ∃ e, t.cell? j = some e ∧ e.position = d.position ∧ e.raw = d.raw ∧
      ∀ q, q ∈ e.snapshot.keys ↔ q ∈ d.snapshot.keys ∨
        d.snapshot.keys ≠ [] ∧ q ∈ s.newTargets axis index j d.raw := by
  obtain ⟨e, he, hp⟩ := h.idAt?_iff.mp ((h.idAt? _).trans (hs.idAt?_position hd))
  obtain ⟨d', hd', _, hraw, hkeys⟩ := h.of_cell he
  obtain rfl := Option.some.inj (hd.symm.trans hd')
  exact ⟨e, he, hp, hraw, hkeys⟩

/-- the formulas to extend, each with the positions that it reads besides -/
def extensions (s : Sheet) (axis : Axis) (index : Nat) : List (CellId × List Position) :=
  s.places.filterMap fun place => s.extension axis index place.2

section
variable {s : Sheet} (hs : s.Wired) {axis : Axis} {index : Nat} {e : CellId × List Position}
include hs

theorem mem_extensions : e ∈ s.extensions axis index ↔
    ∃ c, s.cell? e.1 = some c ∧ c.snapshot.keys ≠ [] ∧
      e.2 = s.newTargets axis index e.1 c.raw ∧ e.2 ≠ [] := by
  rw [extensions, List.mem_filterMap]
  constructor
  · rintro ⟨⟨p, id⟩, _, he⟩
    obtain ⟨c, hc, hk, rfl, hne⟩ := extension_eq_some.mp he
    exact ⟨c, hc, hk, rfl, hne⟩
  · rintro ⟨c, hc, hk, he, hne⟩
    exact ⟨(c.position, e.1), mem_places.mpr (hs.idAt?_position hc),
      extension_eq_some.mpr ⟨c, hc, hk, Prod.ext rfl he, hne⟩⟩

theorem extendable_of_mem (hline : s.Silent axis index) (he : e ∈ s.extensions axis index) :
    s.Extendable axis index e := by
  obtain ⟨c, hc, hk, hps, _⟩ := (mem_extensions hs).mp he
  refine ⟨⟨c, hc, fun hp => hk (hline _ c hc hp)⟩, fun p hp => ?_⟩
  rw [hps] at hp
  exact ⟨(mem_newTargets.mp hp).2.1, (mem_newTargets.mp hp).2.2.1⟩

end

section
variable {s : Sheet} (hs : s.Wired) {axis : Axis} {index : Nat} (hline : s.Silent axis index)
include hs hline

theorem extended_extendRanges : Extended s axis index (s.extendRanges axis index) := by
  obtain ⟨hw, hg⟩ := grown_foldl_extend axis index (s.extensions axis index) hs hline
    fun e he => extendable_of_mem hs hline he
  have hg' : Grown s _ (s.extendRanges axis index) := hg
  refine ⟨hg.toSameFrame, hw, fun {j e} he => ?_⟩
  cases hd : s.cell? j with
  | none =>
    rw [hg'.gone hd] at he
    cases he
  | some d =>
    obtain ⟨e', he', hp, hraw, hkeys⟩ := hg'.cell hd
    obtain rfl := Option.some.inj (he.symm.trans he')
    refine ⟨d, rfl, hp, hraw, fun q => (hkeys q).trans (or_congr_right ?_)⟩
    constructor
    · rintro ⟨ps, hps, hq⟩
      obtain ⟨d', hd', hk, eps, _⟩ := (mem_extensions hs).mp hps
      obtain rfl := Option.some.inj (hd.symm.trans hd')
      change ps = _ at eps
      exact ⟨hk, eps ▸ hq⟩
    · rintro ⟨hk, hq⟩
      exact ⟨_, (mem_extensions hs).mpr ⟨d, hd, hk, rfl, List.ne_nil_of_mem hq⟩, hq⟩

end

theorem insertLine_eq_ok {s t : Sheet} {axis : Axis} {index : Nat} :
    s.insertLine axis index = .ok t ↔
      index ≤ axis.count s ∧ (s.openedAt axis index).extendRanges axis index = t := by
  unfold insertLine
  split_ifs with h
  · exact ⟨fun h => (by cases h), fun h' => absurd h'.1 (Nat.not_le_of_lt h)⟩
  · exact ⟨fun e => ⟨Nat.le_of_not_lt h, Except.ok.inj e⟩, fun e => congrArg _ e.2⟩

/-- the cells that are put in read nothing yet -/
theorem silent_openedAt {s : Sheet} (hs : s.Wired) {axis : Axis} {index : Nat}
    (hindex : index ≤ axis.count s) : (s.openedAt axis index).Silent axis index :=
  fun _ _ hd hj => (opened_openedAt hs axis index hindex).keys_of_line hd hj

theorem extended_insertLine {s t : Sheet} (hs : s.Wired) {axis : Axis} {index : Nat}
    (h : s.insertLine axis index = .ok t) : Extended (s.openedAt axis index) axis index t := by
  obtain ⟨hindex, rfl⟩ := insertLine_eq_ok.mp h
  exact extended_extendRanges (wired_openedAt hs axis index hindex) (silent_openedAt hs hindex)

section
variable {s t : Sheet} (hs : s.Wired) {axis : Axis} {index : Nat}
  (h : s.insertLine axis index = .ok t) {j : CellId}
include hs h

theorem count_insertLine :
    axis.count t = axis.count s + 1 ∧ axis.cross.count t = axis.cross.count s := by
  have hop := opened_openedAt hs axis index (insertLine_eq_ok.mp h).1
  have ht := (extended_insertLine hs h).toSameFrame
  exact ⟨(ht.count axis).trans hop.count, (ht.count axis.cross).trans hop.cross_count⟩

/-- an old cell follows the cells that it reads; if it reads any, its ranges take in what has been
put in between -/
theorem exists_cell_of_insertLine {c : Cell} (hc : s.cell? j = some c) :
    ∃ ms e, Position.Follows (axis.opened index) c.snapshot.keys ms ∧ t.cell? j = some e ∧
      e.position = axis.opened index c.position ∧ e.raw = (c.followAll ms).raw ∧
      (∀ k ∈ (c.followAll ms).snapshot.keys, t.contains k = true) ∧
      ∀ q, q ∈ e.snapshot.keys ↔ q ∈ (c.followAll ms).snapshot.keys ∨ c.snapshot.keys ≠ [] ∧
        axis.coord q = index ∧ t.contains q = true ∧ Ranged (c.followAll ms).raw q := by
  have hindex := (insertLine_eq_ok.mp h).1
  have hu := wired_openedAt hs axis index hindex
  have ht := extended_insertLine hs h
  obtain ⟨ms, hms, hd⟩ := (opened_openedAt hs axis index hindex).cell hc
  obtain ⟨e, he, hp, hraw, hkeys⟩ := ht.cell hu.toPlaced hd
  refine ⟨ms, e, hms, he, hp, hraw, fun k hk => (ht.contains k).trans (hu.key_inside hd hk),
    fun q => (hkeys q).trans (or_congr_right ?_)⟩
  have hne : (c.followAll ms).snapshot.keys ≠ [] ↔ c.snapshot.keys ≠ [] :=
    not_congr Cell.keys_followAll_eq_nil
  rw [mem_newTargets, ht.contains]
  constructor
  · rintro ⟨hk, hr, hline, hin, _⟩
    exact ⟨hne.mp hk, hline, hin, hr⟩
  · rintro ⟨hk, hline, hin, hr⟩
    refine ⟨hne.mpr hk, hr, hline, hin, fun hid => ?_⟩
    obtain ⟨d, hd', rfl⟩ := hu.idAt?_iff.mp hid
    obtain rfl := Option.some.inj (hd.symm.trans hd')
    exact axis.coord_opened_ne index c.position hline

theorem cell_of_insertLine {c : Cell} (hc : s.cell? j = some c) (hk : c.snapshot.keys ≠ []) :
    ∃ ms e, Position.Follows (axis.opened index) c.snapshot.keys ms ∧ t.cell? j = some e ∧
      e.raw = (c.followAll ms).raw ∧
      (∀ k ∈ (c.followAll ms).snapshot.keys, t.contains k = true) ∧
      ∀ q, q ∈ e.snapshot.keys ↔ q ∈ (c.followAll ms).snapshot.keys ∨
        axis.coord q = index ∧ t.contains q = true ∧ Ranged (c.followAll ms).raw q := by
  obtain ⟨ms, e, hms, he, _, hraw, hin, hkeys⟩ := exists_cell_of_insertLine hs h hc
  refine ⟨ms, e, hms, he, hraw, hin, fun q => (hkeys q).trans ?_⟩
  rw [and_iff_right hk]

theorem reads_of_insertLine {e : Cell} (he : t.cell? j = some e) (hk : e.snapshot.keys ≠ []) :
    ∃ c, s.cell? j = some c ∧ c.snapshot.keys ≠ [] := by
  have hop := opened_openedAt hs axis index (insertLine_eq_ok.mp h).1
  obtain ⟨d, hd, _, _, hkeys⟩ := (extended_insertLine hs h).of_cell he
  obtain ⟨q, hq⟩ := List.exists_mem_of_ne_nil _ hk
  have hdk : d.snapshot.keys ≠ [] := ((hkeys q).mp hq).elim List.ne_nil_of_mem And.left
  rcases hop.of_cell hd with ⟨c, ms, hc, _, rfl⟩ | ⟨_, hline, _⟩
  · exact ⟨c, hc, mt Cell.keys_followAll_eq_nil.mpr hdk⟩
  · exact absurd (hop.keys_of_line hd hline) hdk

end

end Sheet

end Worksheet
