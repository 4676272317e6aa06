import Worksheet.Proofs.Sheet.Lines

/-!
# Cells that move along an axis

The cells of a block move one after the other, and each takes its readers with it.  What a reader
makes of several such moves depends on their order: a label that has been rewritten must not be
rewritten again.

* `Position.Orderly`   moves of which none starts where an earlier one started or ended;
* `Position.movedAll`  where a position goes under several moves;
* `Cell.followAll`     a cell after several of those that it reads have moved;
* `Position.Follows`   the moves that a cell has to follow, if each position goes to its image;
* `Sheet.Shifted`      each cell stands at the image of its position, and has followed the moves
                       of the cells that it reads;
* `Sheet.cell?_shift_of_wired`, `Sheet.shifted_shift`
                       a shift whose moves are orderly.
-/

namespace Worksheet

namespace Position

/-- no move starts where an earlier one has started or ended -/
abbrev Orderly (ms : List (Position × Position)) : Prop :=
  ms.Pairwise fun a b => b.1 ≠ a.1 ∧ b.1 ≠ a.2

def movedAll (ms : List (Position × Position)) (p : Position) : Position :=
  ms.foldl (fun p m => moved m.1 m.2 p) p

theorem movedAll_append (ms ms' : List (Position × Position)) (p : Position) :
    movedAll (ms ++ ms') p = movedAll ms' (movedAll ms p) :=
  List.foldl_append

theorem movedAll_of_notMem {ms : List (Position × Position)} {p : Position}
    (h : ∀ m ∈ ms, p ≠ m.1) : movedAll ms p = p := by
  induction ms with
  | nil => rfl
  | cons m ms ih =>
    rw [movedAll, List.foldl_cons, moved_of_ne (h m (List.mem_cons_self ..))]
    exact ih fun n hn => h n (List.mem_cons_of_mem _ hn)

theorem movedAll_of_mem {ms : List (Position × Position)} (h : Orderly ms) {p q : Position}
    (hm : (p, q) ∈ ms) : movedAll ms p = q := by
  induction ms with
  | nil => cases hm
  | cons m ms ih =>
    have hp := List.pairwise_cons.mp h
    rw [movedAll, List.foldl_cons]
    rcases List.mem_cons.mp hm with rfl | hm
    · rw [moved_self]
      exact movedAll_of_notMem fun n hn => ((hp.1 n hn).2).symm
    · rw [moved_of_ne (hp.1 _ hm).1]
      exact ih hp.2 hm

/-- every key with an image other than itself moves there, and nothing else moves -/
structure Follows (σ : Position → Position) (keys : List Position)
    (ms : List (Position × Position)) : Prop where
  orderly : Orderly ms
  sound : ∀ m ∈ ms, m.1 ∈ keys ∧ m.2 = σ m.1
  complete : ∀ k ∈ keys, σ k ≠ k → (k, σ k) ∈ ms

theorem Follows.movedAll {σ : Position → Position} {keys : List Position}
    {ms : List (Position × Position)} (h : Follows σ keys ms) {k : Position} (hk : k ∈ keys) :
    movedAll ms k = σ k := by
  by_cases hm : (k, σ k) ∈ ms
  · exact movedAll_of_mem h.orderly hm
  · have hfix : σ k = k := by
      by_contra hne
      exact hm (h.complete k hk hne)
    rw [hfix]
    refine movedAll_of_notMem fun m hmem e => hm ?_
    rw [e, ← (h.sound m hmem).2]
    exact hmem

theorem Follows.movedAll_cases {σ : Position → Position} {keys : List Position}
    {ms : List (Position × Position)} (h : Follows σ keys ms) (p : Position) :
    p ∈ keys ∧ Position.movedAll ms p = σ p ∨ p ∉ keys ∧ Position.movedAll ms p = p := by
  by_cases hp : p ∈ keys
  · exact .inl ⟨hp, h.movedAll hp⟩
  · refine .inr ⟨hp, movedAll_of_notMem fun m hm e => hp ?_⟩
    rw [e]
    exact (h.sound m hm).1

end Position

namespace Cell

/-- a cell at another place -/
def placeAt (c : Cell) (p : Position) : Cell := { c with position := p }

def followAll (c : Cell) (ms : List (Position × Position)) : Cell :=
  ms.foldl (fun c m => c.follow m.1 m.2) c

theorem followAll_append (c : Cell) (ms ms' : List (Position × Position)) :
    c.followAll (ms ++ ms') = (c.followAll ms).followAll ms' :=
  List.foldl_append

theorem position_followAll (c : Cell) (ms : List (Position × Position)) :
    (c.followAll ms).position = c.position := by
  induction ms generalizing c with
  | nil => rfl
  | cons m ms ih => exact ih _

theorem observers_followAll (c : Cell) (ms : List (Position × Position)) :
    (c.followAll ms).observers = c.observers := by
  induction ms generalizing c with
  | nil => rfl
  | cons m ms ih => exact ih _

theorem followAll_placeAt (c : Cell) (ms : List (Position × Position)) (p : Position) :
    (c.placeAt p).followAll ms = (c.followAll ms).placeAt p := by
  induction ms generalizing c with
  | nil => rfl
  | cons m ms ih => exact ih (c.follow m.1 m.2)

theorem mem_keys_followAll {c : Cell} {ms : List (Position × Position)} {q : Position} :
    q ∈ (c.followAll ms).snapshot.keys ↔ ∃ k ∈ c.snapshot.keys, Position.movedAll ms k = q := by
  induction ms generalizing c with
  | nil => exact ⟨fun h => ⟨q, h, rfl⟩, fun ⟨k, hk, e⟩ => e ▸ hk⟩
  | cons m ms ih =>
    refine (ih (c := c.follow m.1 m.2)).trans ?_
    show (∃ k ∈ (c.snapshot.move m.1 m.2).keys, _) ↔ _
    constructor
    · rintro ⟨k, hk, rfl⟩
      obtain ⟨k', hk', rfl⟩ := Snapshot.mem_keys_move.mp hk
      exact ⟨k', hk', rfl⟩
    · rintro ⟨k', hk', rfl⟩
      exact ⟨_, Snapshot.mem_keys_move.mpr ⟨k', hk', rfl⟩, rfl⟩

theorem keys_followAll_eq_nil {c : Cell} {ms : List (Position × Position)} :
    (c.followAll ms).snapshot.keys = [] ↔ c.snapshot.keys = [] := by
  rw [List.eq_nil_iff_forall_not_mem, List.eq_nil_iff_forall_not_mem]
  constructor
  · intro h k hk
    exact h _ (mem_keys_followAll.mpr ⟨k, hk, rfl⟩)
  · intro h q hq
    obtain ⟨k, hk, _⟩ := mem_keys_followAll.mp hq
    exact h k hk

/-- the keys go where the cells that they stand for have gone -/
theorem mem_keys_of_follows {c : Cell} {σ : Position → Position}
    {ms : List (Position × Position)} (h : Position.Follows σ c.snapshot.keys ms) {q : Position} :
    q ∈ (c.followAll ms).snapshot.keys ↔ ∃ k ∈ c.snapshot.keys, σ k = q := by
  rw [mem_keys_followAll]
  exact exists_congr fun k => and_congr_right fun hk => by rw [h.movedAll hk]

end Cell

namespace Sheet

/-! ## one cell moves -/

theorem cell?_relocate {s : Sheet} {id : CellId} {c : Cell} (hc : s.cell? id = some c)
    (hn : c.observers.Nodup) (new : Position) (j : CellId) :
    (s.relocate id new).cell? j = (s.cell? j).map fun d =>
      (if s.Reads j id then d.follow c.position new else d).placeAt
        (if j = id then new else d.position) := by
  have hread : s.Reads j id ↔ j ∈ c.observers :=
    ⟨fun ⟨d, hd, h⟩ => Option.some.inj (hc.symm.trans hd) ▸ h, fun h => ⟨c, hc, h⟩⟩
  unfold relocate
  rw [hc]
  show Sheet.cell? (Sheet.modify _ _ _) j = _
  rw [cell?_modify, cell?_foldl_modify _ hn]
  cases s.cell? j with
  | none => simp
  | some d =>
    simp only [hread]
    split_ifs <;> rfl

theorem sameFrame_relocate (s : Sheet) (id : CellId) (new : Position) :
    SameFrame s (s.relocate id new) := by
  unfold relocate
  split
  · exact SameFrame.refl s
  · exact (SameFrame.foldl (fun s i => sameFrame_modify s i _) _ _).trans (sameFrame_modify ..)

/-! ## several cells move -/

/-- the moves that the cell `i` is told of -/
def movesFor (s : Sheet) (i : CellId) (new : Position → Position)
    (cells : List (Position × CellId)) : List (Position × Position) :=
  (cells.filter fun e => s.Reads i e.2).map fun e => (e.1, new e.1)

theorem mem_movesFor {s : Sheet} {i : CellId} {new : Position → Position}
    {cells : List (Position × CellId)} {m : Position × Position} :
    m ∈ s.movesFor i new cells ↔ m.2 = new m.1 ∧ ∃ k, (m.1, k) ∈ cells ∧ s.Reads i k := by
  simp only [movesFor, List.mem_map, List.mem_filter, decide_eq_true_eq, Prod.exists]
  constructor
  · rintro ⟨p, k, ⟨hk, hr⟩, rfl⟩
    exact ⟨rfl, k, hk, hr⟩
  · rintro ⟨e, k, hk, hr⟩
    exact ⟨m.1, k, ⟨hk, hr⟩, Prod.ext rfl e.symm⟩

theorem reads_relocate {s : Sheet} {id : CellId} {c : Cell} (hc : s.cell? id = some c)
    (hn : c.observers.Nodup) (new : Position) (i j : CellId) :
    (s.relocate id new).Reads i j ↔ s.Reads i j := by
  unfold Reads
  rw [cell?_relocate hc hn]
  cases s.cell? j with
  | none => simp
  | some d =>
    have ho : ∀ e : Cell, e = (if s.Reads j id then d.follow c.position new else d).placeAt
        (if j = id then new else d.position) → e.observers = d.observers := by
      rintro _ rfl
      split_ifs <;> rfl
    simp [ho]

theorem cell?_shift (axis : Axis) (f : Nat → Nat) {cells : List (Position × CellId)} {s : Sheet}
    (hcells : ∀ p k, (p, k) ∈ cells →
      ∃ c, s.cell? k = some c ∧ c.position = p ∧ c.observers.Nodup)
    (hids : (cells.map Prod.snd).Nodup) (j : CellId) :
    (s.shift axis f cells).cell? j = (s.cell? j).map fun c =>
      (c.followAll (s.movesFor j (axis.along f) cells)).placeAt
        (if j ∈ cells.map Prod.snd then axis.along f c.position else c.position) := by
  induction cells generalizing s with
  | nil =>
    show s.cell? j = (s.cell? j).map fun c => c
    rw [Option.map_id']
  | cons e cells ih =>
    obtain ⟨p, id⟩ := e
    obtain ⟨hid, hrest⟩ := List.nodup_cons.mp hids
    obtain ⟨c, hc, hp, hn⟩ := hcells p id (List.mem_cons_self ..)
    subst hp
    have hcell := cell?_relocate hc hn (axis.along f c.position)
    have hmoves : (s.relocate id (axis.along f c.position)).movesFor j (axis.along f) cells
        = s.movesFor j (axis.along f) cells := by
      simp only [movesFor, reads_relocate hc hn]
    have hcons : s.movesFor j (axis.along f) ((c.position, id) :: cells) = if s.Reads j id then
        (c.position, axis.along f c.position) :: s.movesFor j (axis.along f) cells
        else s.movesFor j (axis.along f) cells := by
      rw [movesFor, List.filter_cons]
      by_cases hr : s.Reads j id
      · rw [if_pos (decide_eq_true hr), if_pos hr]
        rfl
      · rw [if_neg (fun h => hr (of_decide_eq_true h)), if_neg hr]
        rfl
    show ((s.relocate id (axis.along f c.position)).shift axis f cells).cell? j = _
    rw [ih _ hrest, hcell, hmoves, hcons]
    · cases hd : s.cell? j with
      | none => rfl
      | some d =>
        simp only [Option.map_some, Option.some.injEq, Cell.followAll_placeAt, List.map_cons,
          List.mem_cons]
        by_cases hj : j = id
        · subst hj
          obtain rfl := Option.some.inj (hc.symm.trans hd)
          simp only [hid, if_true, if_false, true_or]
          split_ifs <;> rfl
        · simp only [hj, if_false, false_or]
          split_ifs <;> rfl
    · intro q k hk
      obtain ⟨d, hd, hq, hdn⟩ := hcells q k (List.mem_cons_of_mem _ hk)
      have hne : k ≠ id := fun e => hid (e ▸ List.mem_map.mpr ⟨_, hk, rfl⟩)
      refine ⟨_, (hcell k).trans (congrArg _ hd), ?_, ?_⟩
      · show (if k = id then _ else d.position) = q
        rw [if_neg hne]
        exact hq
      · show (if s.Reads k id then d.follow c.position _ else d).observers.Nodup
        split_ifs <;> exact hdn

/-! ## shifted sheets -/

/-- each cell stands at the image of its position, and has followed the cells it reads to theirs -/
structure Shifted (s : Sheet) (σ : Position → Position) (t : Sheet) : Prop
    extends SameFrame s t where
  gone : ∀ {j}, s.cell? j = none → t.cell? j = none
  cell : ∀ {j c}, s.cell? j = some c → ∃ ms, Position.Follows σ c.snapshot.keys ms ∧
    t.cell? j = some ((c.followAll ms).placeAt (σ c.position))

section
variable {s : Sheet} (hs : s.Wired) {axis : Axis} {f : Nat → Nat} {σ : Position → Position}
  {cells : List (Position × CellId)} (hcells : ∀ p k, (p, k) ∈ cells → s.idAt? p = some k)
  (horder : cells.Pairwise fun a b => a.2 ≠ b.2 ∧ b.1 ≠ σ a.1)
  (hσ : ∀ p k, s.idAt? p = some k → σ p = if (p, k) ∈ cells then axis.along f p else p)
include hs hcells horder hσ

theorem follows_movesFor {j : CellId} {c : Cell} (hc : s.cell? j = some c) :
    Position.Follows σ c.snapshot.keys (s.movesFor j (axis.along f) cells) := by
  have hmoved : ∀ p k, (p, k) ∈ cells → axis.along f p = σ p :=
    fun p k hk => by rw [hσ p k (hcells p k hk), if_pos hk]
  refine ⟨List.pairwise_map.mpr (List.Pairwise.imp_of_mem (fun {a b} ha hb hab => ?_)
    (horder.filter _)), fun m hm => ?_, fun k hk hne => ?_⟩
  · have ha' := (List.mem_filter.mp ha).1
    have hb' := (List.mem_filter.mp hb).1
    refine ⟨fun e => hab.1 ?_, ?_⟩
    · have h1 := hcells a.1 a.2 ha'
      rw [← e, hcells b.1 b.2 hb'] at h1
      exact (Option.some.inj h1).symm
    · show b.1 ≠ axis.along f a.1
      rw [hmoved a.1 a.2 ha']
      exact hab.2
  · obtain ⟨hm2, k, hk, hr⟩ := mem_movesFor.mp hm
    obtain ⟨d, hd, hp⟩ := hs.idAt?_iff.mp (hcells _ _ hk)
    exact ⟨hp ▸ (hs.reads_iff hc hd).mp hr, hm2.trans (hmoved _ _ hk)⟩
  · obtain ⟨i, d, hi, hd, rfl⟩ := hs.exists_of_contains (hs.key_inside hc hk)
    have hmem : (d.position, i) ∈ cells := by
      by_contra hno
      exact hne (by rw [hσ _ i hi, if_neg hno])
    exact mem_movesFor.mpr ⟨(hmoved _ i hmem).symm, i, hmem, (hs.reads_iff hc hd).mpr hk⟩

theorem cell?_shift_of_wired (j : CellId) : (s.shift axis f cells).cell? j
    = (s.cell? j).map fun c =>
      (c.followAll (s.movesFor j (axis.along f) cells)).placeAt (σ c.position) := by
  have hlive : ∀ p k, (p, k) ∈ cells → ∃ c, s.cell? k = some c ∧ c.position = p ∧
      c.observers.Nodup := fun p k hk => by
    obtain ⟨c, hc, hp⟩ := hs.idAt?_iff.mp (hcells p k hk)
    exact ⟨c, hc, hp, hs.observers_nodup hc⟩
  have hids : (cells.map Prod.snd).Nodup := List.pairwise_map.mpr (horder.imp And.left)
  rw [cell?_shift axis f hlive hids]
  cases hc : s.cell? j with
  | none => rfl
  | some c =>
    have hiff : j ∈ cells.map Prod.snd ↔ (c.position, j) ∈ cells := by
      refine ⟨fun h => ?_, fun h => List.mem_map.mpr ⟨_, h, rfl⟩⟩
      obtain ⟨⟨p, k⟩, hk, rfl⟩ := List.mem_map.mp h
      obtain ⟨d, hd, rfl⟩ := hs.idAt?_iff.mp (hcells p k hk)
      exact Option.some.inj (hc.symm.trans hd) ▸ hk
    rw [Option.map_some, Option.map_some, hσ _ _ (hs.idAt?_position hc)]
    simp only [hiff]

theorem shifted_shift : Shifted s σ (s.shift axis f cells) := by
  have hcell := cell?_shift_of_wired hs hcells horder hσ
  refine ⟨SameFrame.foldl (fun s _ => sameFrame_relocate s _ _) cells s, fun h => ?_,
    fun {j c} hc => ⟨_, follows_movesFor hs hcells horder hσ hc, ?_⟩⟩
  · rw [hcell, h]
    rfl
  · rw [hcell, hc]
    rfl

end

namespace Shifted
variable {s t : Sheet} {σ : Position → Position}

theorem of_cell (h : Shifted s σ t) {j : CellId} {d : Cell} (hd : t.cell? j = some d) :
    ∃ c ms, s.cell? j = some c ∧ Position.Follows σ c.snapshot.keys ms ∧
      d = (c.followAll ms).placeAt (σ c.position) := by
  cases hc : s.cell? j with
  | none => rw [h.gone hc] at hd; cases hd
  | some c =>
    obtain ⟨ms, hms, hd'⟩ := h.cell hc
    exact ⟨c, ms, rfl, hms, Option.some.inj (hd.symm.trans hd')⟩

theorem reads (h : Shifted s σ t) (i j : CellId) : t.Reads i j ↔ s.Reads i j := by
  constructor
  · rintro ⟨d, hd, hi⟩
    obtain ⟨c, ms, hc, _, rfl⟩ := h.of_cell hd
    exact ⟨c, hc, Cell.observers_followAll c ms ▸ hi⟩
  · rintro ⟨c, hc, hi⟩
    obtain ⟨ms, _, hd⟩ := h.cell hc
    exact ⟨_, hd, (Cell.observers_followAll c ms).symm ▸ hi⟩

theorem numbered (h : Shifted s σ t) (hs : s.Numbered) : t.Numbered where
  vacant_nodup := by rw [h.vacant]; exact hs.vacant_nodup
  mem_vacant := by
    intro j
    rw [h.vacant, h.size, hs.mem_vacant]
    cases hc : s.cell? j with
    | none => rw [h.gone hc]
    | some c =>
      obtain ⟨ms, _, hd⟩ := h.cell hc
      rw [hd]
      simp

end Shifted

end Sheet

end Worksheet
