import Worksheet.Proofs.Formula.Spelling
import Worksheet.Proofs.Formula.Word
import Worksheet.Proofs.Sheet.Extension

/-!
# Texts that follow the cells they name

* `Sheet.Fits`         the positions of a sheet have labels;
* `Sheet.HasRoom`      those of a line more would have them too;
* `Named`              the positions that the strict calls of a text name;
* `Spelled`            the positions that they name with labels as these would be written anew, which
                       labels with leading zeros are not;
* `Written`            a text all of whose labels are such, and the positions read by its cell;
* `Written.mem_iff_named` what is written anew is read again;
* `Written.closed`, `Written.opened`
                       a cell stays so when a line is taken out or put in;
* `Call.Decodes.relabelledAll` labels with leading zeros stay behind, and the others are still read.
-/

namespace Worksheet

/-! ## positions that have labels -/

namespace Sheet

/-- rows and columns are counted by numbers that a label can have -/
def Fits (s : Sheet) : Prop := s.rows ≤ maxCount ∧ s.cols ≤ maxCount

instance (s : Sheet) : Decidable s.Fits :=
  inferInstanceAs (Decidable (s.rows ≤ maxCount ∧ s.cols ≤ maxCount))

/-- one line more can be counted by such numbers, which are the words of 64 bits -/
def HasRoom (s : Sheet) (axis : Axis) : Prop := s.Fits ∧ axis.count s < maxCount

instance (s : Sheet) (axis : Axis) : Decidable (s.HasRoom axis) :=
  inferInstanceAs (Decidable (s.Fits ∧ axis.count s < maxCount))

theorem contains_iff {s : Sheet} {p : Position} :
    s.contains p = true ↔ p.row < s.rows ∧ p.col < s.cols := by
  rw [contains, Bool.and_eq_true, decide_eq_true_eq, decide_eq_true_eq]

theorem Fits.bounds {s : Sheet} (h : s.Fits) {p : Position} (hp : s.contains p = true) :
    p.row < maxCount ∧ p.col < maxCount :=
  ⟨Nat.lt_of_lt_of_le (contains_iff.mp hp).1 h.1, Nat.lt_of_lt_of_le (contains_iff.mp hp).2 h.2⟩

/-- a sheet that has room for a line fits with it -/
theorem fits_insertLine {s t : Sheet} (hs : s.Wired) {axis : Axis} {index : Nat}
    (hroom : s.HasRoom axis) (h : s.insertLine axis index = .ok t) : t.Fits := by
  obtain ⟨hcount, hcross⟩ := count_insertLine hs h
  obtain ⟨⟨hrows, hcols⟩, hlt⟩ := hroom
  cases axis with
  | row => exact ⟨hcount.trans_le hlt, hcross.trans_le hcols⟩
  | column => exact ⟨hcross.trans_le hrows, hcount.trans_le hlt⟩

theorem contains_of_mem_rect {s : Sheet} {a b p : Position} (ha : s.contains a = true)
    (hb : s.contains b = true) (hp : p ∈ Position.rect a b) : s.contains p = true := by
  rw [contains_iff] at *
  have hr := Position.mem_rect.mp hp
  omega

end Sheet

/-! ## what a text names -/

/-- a strict call of the text names the position -/
def Named (raw : Text) (q : Position) : Prop :=
  ∃ call ∈ Call.all .strict raw, ∃ ps, call.positions? = some ps ∧ q ∈ ps

/-- a strict call of the text names the position, with labels of which none has a leading zero -/
def Spelled (raw : Text) (q : Position) : Prop :=
  ∃ call ∈ Call.all .strict raw, ∃ ls, call.Spells ls ∧ q ∈ call.shape.span ls

structure Written (raw : Text) (keys : List Position) : Prop where
  spells : ∀ call ∈ Call.all .strict raw, ∃ ls, call.Spells ls
  mem_iff : ∀ {q}, q ∈ keys ↔ Spelled raw q

namespace Written
variable {raw : Text} {keys : List Position} (h : Written raw keys)
include h

theorem mem_of_label {call : Call} (hcall : call ∈ Call.all .strict raw) {ls : List Position}
    (hls : call.Spells ls) {p : Position} (hp : p ∈ ls) : p ∈ keys :=
  h.mem_iff.mpr ⟨call, hcall, ls, hls, Shape.mem_span hls.two hp⟩

/-- what is written anew is read again -/
theorem mem_iff_named (hin : ∀ p ∈ keys, p.row < maxCount ∧ p.col < maxCount) {q : Position} :
    q ∈ keys ↔ Named raw q := by
  rw [h.mem_iff]
  refine exists_congr fun call => and_congr_right fun hcall => ?_
  obtain ⟨ls, hls⟩ := h.spells call hcall
  have hdec := hls.decodes fun p hp => hin p (h.mem_of_label hcall hls hp)
  constructor
  · rintro ⟨ls', hls', hq⟩
    obtain rfl := hls.unique hls'
    exact ⟨_, Call.positions?_eq_some.mpr ⟨ls, hdec, rfl⟩, hq⟩
  · rintro ⟨ps, hps, hq⟩
    obtain ⟨ls', hdec', rfl⟩ := Call.positions?_eq_some.mp hps
    obtain rfl := hdec.unique hdec'
    exact ⟨ls, hls, hq⟩

end Written

/-! ## texts that follow moves -/

def relabelAll (ms : List (Position × Position)) (t : Text) : Text :=
  ms.foldl (fun t m => relabel m.1 m.2 t) t

theorem spelledBy_trim_relabelAll (ms : List (Position × Position)) {p : Position} {t : Text}
    (h : p.SpelledBy (Text.trim t)) :
    (Position.movedAll ms p).SpelledBy (Text.trim (relabelAll ms t)) := by
  induction ms generalizing p t with
  | nil => exact h
  | cons m ms ih => exact ih (spelledBy_trim_relabel m.1 m.2 h)

/-- a label with a leading zero stays behind -/
theorem trim_relabelAll_of_leadingZero (ms : List (Position × Position)) {p : Position} {t : Text}
    (hp : Position.ofLabel? (Text.trim t) = some p) (h0 : Position.LeadingZero (Text.trim t)) :
    Text.trim (relabelAll ms t) = Text.trim t := by
  induction ms generalizing t with
  | nil => rfl
  | cons m ms ih =>
    have hm := trim_relabel_of_leadingZero m.1 m.2 hp h0
    exact (ih (hm.symm ▸ hp) (hm.symm ▸ h0)).trans hm

namespace Call

def relabelledAll (ms : List (Position × Position)) (c : Call) : Call :=
  ms.foldl (fun c m => c.relabelled m.1 m.2) c

theorem relabelledAll_eq (ms : List (Position × Position)) (c : Call) :
    c.relabelledAll ms = ⟨c.head, relabelAll ms c.body⟩ := by
  induction ms generalizing c with
  | nil => rfl
  | cons m ms ih => exact ih (c.relabelled m.1 m.2)

variable {c : Call} (ms : List (Position × Position))

theorem shape_relabelledAll : (c.relabelledAll ms).shape = c.shape := by
  induction ms generalizing c with
  | nil => rfl
  | cons m ms ih => exact (ih (c := c.relabelled m.1 m.2)).trans (shape_relabelled ..)

theorem pieces_relabelledAll : (c.relabelledAll ms).pieces = c.pieces.map (relabelAll ms) := by
  induction ms generalizing c with
  | nil => exact (List.map_id _).symm
  | cons m ms ih =>
    refine (ih (c := c.relabelled m.1 m.2)).trans ?_
    rw [pieces_relabelled, List.map_map]
    rfl

/-- a call follows the cells that it names, if it spells their labels -/
theorem Spells.relabelledAll {ls : List Position} (h : c.Spells ls) :
    (c.relabelledAll ms).Spells (ls.map (Position.movedAll ms)) where
  parts := by
    have hparts := h.parts
    rw [parts_eq, List.forall₂_map_left_iff] at hparts
    rw [parts_eq, pieces_relabelledAll, List.map_map, List.forall₂_map_left_iff,
      List.forall₂_map_right_iff]
    exact hparts.imp fun _ _ hs => spelledBy_trim_relabelAll ms hs
  two hr := by
    rw [List.length_map]
    exact h.two (c.shape_relabelledAll ms ▸ hr)

/-- every label of a call is still read, and one with a leading zero as what it has named before -/
theorem Decodes.relabelledAll {ls : List Position} (h : c.Decodes ls)
    (hmoved : ∀ p ∈ ls, p.row < maxCount ∧ p.col < maxCount →
      (Position.movedAll ms p).row < maxCount ∧ (Position.movedAll ms p).col < maxCount) :
    ∃ ls', (c.relabelledAll ms).Decodes ls' ∧ ∀ label ∈ c.parts, Position.LeadingZero label →
      ∀ p, Position.ofLabel? label = some p → p ∈ ls' := by
  have hparts := h.parts
  rw [parts_eq, List.forall₂_map_left_iff] at hparts
  have hread : ∀ t ∈ c.pieces, ∃ p, Position.ofLabel? (Text.trim (relabelAll ms t)) = some p ∧
      (Position.LeadingZero (Text.trim t) → Position.ofLabel? (Text.trim t) = some p) := by
    intro t ht
    obtain ⟨p, hpl, hp⟩ := exists_of_forall₂_of_mem_left hparts ht
    by_cases h0 : Position.LeadingZero (Text.trim t)
    · rw [trim_relabelAll_of_leadingZero ms hp h0]
      exact ⟨p, hp, fun _ => hp⟩
    · have hb := hmoved p hpl (Position.bounds_of_ofLabel? hp)
      have hs := spelledBy_trim_relabelAll ms ((Position.spelledBy_iff hp).mpr h0)
      exact ⟨_, Position.ofLabel?_of_spelledBy hs hb.1 hb.2, fun h => absurd h h0⟩
  obtain ⟨ls', hls'⟩ := exists_forall₂ hread
  refine ⟨ls', ⟨?_, fun hr => ?_⟩, fun label hlabel h0 p hp => ?_⟩
  · rw [parts_eq, pieces_relabelledAll, List.map_map, List.forall₂_map_left_iff]
    exact hls'.imp fun _ _ hp => hp.1
  · rw [← hls'.length_eq, hparts.length_eq]
    exact h.two (c.shape_relabelledAll ms ▸ hr)
  · rw [parts_eq] at hlabel
    obtain ⟨t, ht, rfl⟩ := List.mem_map.mp hlabel
    obtain ⟨q, hq, _, hstay⟩ := exists_of_forall₂_of_mem_left hls' ht
    rwa [Option.some.inj (hp.symm.trans (hstay h0))]

end Call

theorem all_followAll (c : Cell) (ms : List (Position × Position)) :
    Call.all .strict (c.followAll ms).raw
      = (Call.all .strict c.raw).map (Call.relabelledAll ms) := by
  induction ms generalizing c with
  | nil => exact (List.map_id _).symm
  | cons m ms ih =>
    refine (ih (c.follow m.1 m.2)).trans ?_
    show (Call.all .strict (relabel m.1 m.2 c.raw)).map _ = _
    rw [Call.all_relabel, List.map_map]
    rfl

section
variable {c : Cell} (h : Written c.raw c.snapshot.keys) {σ : Position → Position}
  {ms : List (Position × Position)} (hms : Position.Follows σ c.snapshot.keys ms)
include h hms

theorem spells_followAll {call : Call} (hcall : call ∈ Call.all .strict c.raw)
    {ls : List Position} (hls : call.Spells ls) : (call.relabelledAll ms).Spells (ls.map σ) := by
  have e : ls.map (Position.movedAll ms) = ls.map σ := List.map_congr_left fun p hp =>
    hms.movedAll (h.mem_of_label hcall hls hp)
  exact e ▸ hls.relabelledAll ms

theorem spells_of_followAll : ∀ call ∈ Call.all .strict (c.followAll ms).raw,
    ∃ ls, call.Spells ls := by
  intro call hcall
  rw [all_followAll] at hcall
  obtain ⟨call, hmem, rfl⟩ := List.mem_map.mp hcall
  obtain ⟨ls, hls⟩ := h.spells call hmem
  exact ⟨_, spells_followAll h hms hmem hls⟩

theorem spelled_followAll {q : Position} : Spelled (c.followAll ms).raw q ↔
    ∃ call ∈ Call.all .strict c.raw, ∃ ls, call.Spells ls ∧ q ∈ call.shape.span (ls.map σ) := by
  rw [Spelled, all_followAll]
  constructor
  · rintro ⟨_, hmem, ls', hls', hq⟩
    obtain ⟨call, hcall, rfl⟩ := List.mem_map.mp hmem
    obtain ⟨ls, hls⟩ := h.spells call hcall
    obtain rfl := hls'.unique (spells_followAll h hms hcall hls)
    rw [Call.shape_relabelledAll] at hq
    exact ⟨call, hcall, ls, hls, hq⟩
  · rintro ⟨call, hcall, ls, hls, hq⟩
    refine ⟨_, List.mem_map_of_mem hcall, _, spells_followAll h hms hcall hls, ?_⟩
    rwa [Call.shape_relabelledAll]

end

/-- a cell none of whose positions has been on the line that is taken out -/
theorem Written.closed {c : Cell} (h : Written c.raw c.snapshot.keys) {axis : Axis} {index : Nat}
    {ms : List (Position × Position)}
    (hms : Position.Follows (axis.closed index) c.snapshot.keys ms)
    (hline : ∀ k ∈ c.snapshot.keys, axis.coord k ≠ index) :
    Written (c.followAll ms).raw (c.followAll ms).snapshot.keys where
  spells := spells_of_followAll h hms
  mem_iff {q} := by
    rw [Cell.mem_keys_of_follows hms, spelled_followAll h hms]
    have hspan : ∀ {call}, call ∈ Call.all .strict c.raw → ∀ {ls}, call.Spells ls →
        (q ∈ call.shape.span (ls.map (axis.closed index)) ↔
          ∃ k ∈ call.shape.span ls, axis.closed index k = q) := fun hcall _ hls =>
      Shape.mem_span_closed hls.two fun k hk => hline k (h.mem_iff.mpr ⟨_, hcall, _, hls, hk⟩)
    constructor
    · rintro ⟨k, hk, e⟩
      obtain ⟨call, hcall, ls, hls, hk⟩ := h.mem_iff.mp hk
      exact ⟨call, hcall, ls, hls, (hspan hcall hls).mpr ⟨k, hk, e⟩⟩
    · rintro ⟨call, hcall, ls, hls, hq⟩
      obtain ⟨k, hk, e⟩ := (hspan hcall hls).mp hq
      exact ⟨k, h.mem_iff.mpr ⟨call, hcall, ls, hls, hk⟩, e⟩

/-- a cell that begins to read what its ranges have of the line that is put in -/
theorem Written.opened {c : Cell} (h : Written c.raw c.snapshot.keys) {axis : Axis} {index : Nat}
    {ms : List (Position × Position)}
    (hms : Position.Follows (axis.opened index) c.snapshot.keys ms) {t : Sheet} (hfits : t.Fits)
    (hin : ∀ k ∈ (c.followAll ms).snapshot.keys, t.contains k = true) {keys : List Position}
    (hkeys : ∀ q, q ∈ keys ↔ q ∈ (c.followAll ms).snapshot.keys ∨
      axis.coord q = index ∧ t.contains q = true ∧ Ranged (c.followAll ms).raw q) :
    Written (c.followAll ms).raw keys where
  spells := spells_of_followAll h hms
  mem_iff {q} := by
    have hlabel : ∀ {call}, call ∈ Call.all .strict c.raw → ∀ {ls}, call.Spells ls →
        ∀ p ∈ ls.map (axis.opened index), t.contains p = true := fun hcall ls hls p hp => by
      obtain ⟨k, hk, e⟩ := List.mem_map.mp hp
      exact hin p ((Cell.mem_keys_of_follows hms).mpr ⟨k, h.mem_of_label hcall hls hk, e⟩)
    have hdec : ∀ {call}, call ∈ Call.all .strict c.raw → ∀ {ls}, call.Spells ls →
        (call.relabelledAll ms).Decodes (ls.map (axis.opened index)) := fun hcall ls hls =>
      (spells_followAll h hms hcall hls).decodes fun p hp => hfits.bounds (hlabel hcall hls p hp)
    rw [hkeys, Cell.mem_keys_of_follows hms, spelled_followAll h hms, Ranged, all_followAll]
    constructor
    · rintro (⟨k, hk, e⟩ | ⟨_, _, _, hmem, a, b, hab, hrect⟩)
      · obtain ⟨call, hcall, ls, hls, hk⟩ := h.mem_iff.mp hk
        exact ⟨call, hcall, ls, hls, (Shape.mem_span_opened hls.two).mpr (.inl ⟨k, hk, e⟩)⟩
      · obtain ⟨call, hcall, rfl⟩ := List.mem_map.mp hmem
        obtain ⟨ls, hls⟩ := h.spells call hcall
        obtain ⟨hsh, hab⟩ := Call.corners?_eq_some_iff_decodes.mp hab
        rw [Call.shape_relabelledAll] at hsh
        refine ⟨call, hcall, ls, hls, ?_⟩
        rw [(hdec hcall hls).unique hab, hsh]
        exact hrect
    · rintro ⟨call, hcall, ls, hls, hq⟩
      rcases (Shape.mem_span_opened hls.two).mp hq with ⟨k, hk, e⟩ | ⟨hsh, hi, _⟩
      · exact .inl ⟨k, h.mem_iff.mpr ⟨call, hcall, ls, hls, hk⟩, e⟩
      · have hls' := hlabel hcall hls
        have hab := hdec hcall hls
        obtain ⟨a, b, rfl⟩ := List.length_eq_two.mp (hls.two hsh)
        rw [hsh] at hq
        have hq' : q ∈ Position.rect (axis.opened index a) (axis.opened index b) := hq
        have hin' := Sheet.contains_of_mem_rect (hls' _ (List.mem_cons_self ..))
          (hls' _ (List.mem_cons_of_mem _ (List.mem_cons_self ..))) hq'
        exact .inr ⟨hi, hin', _, List.mem_map_of_mem hcall, _, _,
          Call.corners?_eq_some_iff_decodes.mpr ⟨(Call.shape_relabelledAll ms).trans hsh, hab⟩, hq'⟩

end Worksheet
