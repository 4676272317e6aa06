import Worksheet.Proofs.Formula.Word
import Worksheet.Proofs.Sheet.Following
import Worksheet.Proofs.Sheet.Orphans

/-!
# Texts are rewritten move by move, and as if at once

A cell is told of one move after the other, and each time looks for the old label in the whole text,
what it has written before included.  The order of the moves keeps it from finding that again:

* `respellings`        the spellings that a word takes on, one after the other;
* `relabelAll_eq_reword`
                       several moves, one after the other, replace words;
* `respell`            a word after all moves at once;
* `Position.Follows.respellings_eq`
                       a word is respelled once at most, and as if at once;
* `Sheet.raw_insertLine`, `Sheet.raw_deleteLine`
                       the moves that a cell is told of;
* `Sheet.rewritten_at_once`
                       the text of a cell after an insertion or a deletion.
-/

namespace Worksheet

/-! ## one word -/

def respellings : List (Position × Position) → Text → List Text
  | [], _ => []
  | m :: ms, w => if m.1.SpelledBy w then m.2.label :: respellings ms m.2.label else respellings ms w

/-- a word with the label of a position that moves replaced by the one of its image -/
def respell (σ : Position → Position) (keys : List Position) (w : Text) : Text :=
  ((keys.find? fun k => σ k ≠ k ∧ k.SpelledBy w).map fun k => (σ k).label).getD w

theorem respell_eq_self {σ : Position → Position} {keys : List Position} {w : Text}
    (h : ∀ k ∈ keys, σ k ≠ k → ¬k.SpelledBy w) : respell σ keys w = w := by
  have hnone : (keys.find? fun k => σ k ≠ k ∧ k.SpelledBy w) = none :=
    List.find?_eq_none.mpr fun k hk hs => h k hk (of_decide_eq_true hs).1 (of_decide_eq_true hs).2
  rw [respell, hnone]
  rfl

theorem respell_of_spelledBy {σ : Position → Position} {keys : List Position} {k : Position}
    (hk : k ∈ keys) (hσ : σ k ≠ k) {w : Text} (hw : k.SpelledBy w) :
    respell σ keys w = (σ k).label := by
  rw [respell]
  cases h : keys.find? fun k => σ k ≠ k ∧ k.SpelledBy w with
  | none => exact absurd (decide_eq_true ⟨hσ, hw⟩) (List.find?_eq_none.mp h k hk)
  | some k' =>
    have hfound := List.find?_some h
    have hw' : k'.SpelledBy w := (of_decide_eq_true hfound).2
    rw [Position.eq_of_spelledBy hw' hw]
    rfl

theorem labelLike_respell (σ : Position → Position) (keys : List Position) (w a d : Text)
    (h : LabelLike w a d) : ∃ a' d', LabelLike (respell σ keys w) a' d' := by
  rw [respell]
  cases keys.find? fun k => σ k ≠ k ∧ k.SpelledBy w with
  | none => exact ⟨a, d, h⟩
  | some k => exact ⟨_, _, (σ k).labelLike_label⟩

theorem respellings_eq_nil {ms : List (Position × Position)} {w : Text}
    (h : ∀ m ∈ ms, ¬m.1.SpelledBy w) : respellings ms w = [] := by
  induction ms with
  | nil => rfl
  | cons m ms ih =>
    rw [respellings, if_neg (h m (List.mem_cons_self ..))]
    exact ih fun n hn => h n (List.mem_cons_of_mem _ hn)

/-- no later move starts where a word has just been moved to -/
theorem respellings_of_mem {ms : List (Position × Position)} (h : Position.Orderly ms)
    {p q : Position} (hm : (p, q) ∈ ms) {w : Text} (hw : p.SpelledBy w) :
    respellings ms w = [q.label] := by
  induction ms with
  | nil => cases hm
  | cons m ms ih =>
    obtain ⟨hlater, hms⟩ := List.pairwise_cons.mp h
    rw [respellings]
    rcases List.mem_cons.mp hm with rfl | hm
    · rw [if_pos hw, respellings_eq_nil fun n hn hq => (hlater n hn).2 ?_]
      exact Position.eq_of_spelledBy hq (Position.spelledBy_label q)
    · rw [if_neg fun hw' => (hlater _ hm).1 (Position.eq_of_spelledBy hw hw')]
      exact ih hms hm

theorem Position.Follows.mem_iff {σ : Position → Position} {keys : List Position}
    {ms : List (Position × Position)} (h : Follows σ keys ms) (hne : ∀ m ∈ ms, m.2 ≠ m.1)
    (m : Position × Position) : m ∈ ms ↔ m.1 ∈ keys ∧ σ m.1 ≠ m.1 ∧ m.2 = σ m.1 := by
  constructor
  · intro hm
    obtain ⟨hk, e⟩ := h.sound m hm
    exact ⟨hk, e ▸ hne m hm, e⟩
  · rintro ⟨hk, hσ, e⟩
    have hm := h.complete m.1 hk hσ
    rwa [← e] at hm

theorem Position.Follows.respellings_eq {σ : Position → Position} {keys : List Position}
    {ms : List (Position × Position)} (h : Follows σ keys ms) (hne : ∀ m ∈ ms, m.2 ≠ m.1)
    (w : Text) :
    respellings ms w = [] ∧ respell σ keys w = w ∨ respellings ms w = [respell σ keys w] := by
  rw [respell]
  cases hk : keys.find? fun k => σ k ≠ k ∧ k.SpelledBy w with
  | none =>
    refine .inl ⟨respellings_eq_nil fun m hm hw => ?_, rfl⟩
    obtain ⟨hmk, hσ, _⟩ := (h.mem_iff hne m).mp hm
    exact List.find?_eq_none.mp hk m.1 hmk (decide_eq_true ⟨hσ, hw⟩)
  | some k =>
    have hfound := List.find?_some hk
    obtain ⟨hσ, hw⟩ : σ k ≠ k ∧ k.SpelledBy w := of_decide_eq_true hfound
    exact .inr (respellings_of_mem h.orderly (h.complete k (List.mem_of_find?_eq_some hk) hσ) hw)

/-! ## whole texts -/

theorem relabelAll_eq_reword (ms : List (Position × Position)) (t : Text) :
    relabelAll ms t = reword (fun w => (respellings ms w).getLastD w) t := by
  induction ms generalizing t with
  | nil => exact (reword_id t).symm
  | cons m ms ih =>
    show relabelAll ms (relabel m.1 m.2 t) = _
    rw [ih, relabel_eq_reword, reword_reword (labelLike_replaced m.1 m.2)]
    refine reword_congr fun w _ => ?_
    rw [respellings]
    split_ifs
    · rw [List.getLastD_cons]
    · rfl

theorem Position.Follows.relabelAll_eq {σ : Position → Position} {keys : List Position}
    {ms : List (Position × Position)} (h : Follows σ keys ms) (hne : ∀ m ∈ ms, m.2 ≠ m.1)
    (t : Text) : relabelAll ms t = reword (respell σ keys) t := by
  rw [relabelAll_eq_reword]
  refine reword_congr fun w _ => ?_
  rcases h.respellings_eq hne w with ⟨e, e'⟩ | e
  · rw [e, e']
    rfl
  · rw [e]
    rfl

theorem Cell.raw_followAll (c : Cell) (ms : List (Position × Position)) :
    (c.followAll ms).raw = relabelAll ms c.raw := by
  induction ms generalizing c with
  | nil => rfl
  | cons m ms ih => exact ih (c.follow m.1 m.2)

/-- Between `c` and `e` lie the moves `ms`, which are those of the positions that `c` reads and that
`σ` moves.  The text has been rewritten for each of them, and is as if rewritten for all at once; no
word has been respelled more than once. -/
structure Rewritten (σ : Position → Position) (ms : List (Position × Position)) (c e : Cell) :
    Prop where
  moves : ∀ m, m ∈ ms ↔ m.1 ∈ c.snapshot.keys ∧ σ m.1 ≠ m.1 ∧ m.2 = σ m.1
  one_by_one : e.raw = relabelAll ms c.raw
  at_once : e.raw = reword (respell σ c.snapshot.keys) c.raw
  once : ∀ w, respellings ms w = [] ∧ respell σ c.snapshot.keys w = w ∨
    respellings ms w = [respell σ c.snapshot.keys w]

theorem Position.Follows.rewritten {σ : Position → Position} {ms : List (Position × Position)}
    {c e : Cell} (h : Follows σ c.snapshot.keys ms) (hne : ∀ m ∈ ms, m.2 ≠ m.1)
    (he : e.raw = (c.followAll ms).raw) : Rewritten σ ms c e where
  moves := h.mem_iff hne
  one_by_one := he.trans (c.raw_followAll ms)
  at_once := he.trans ((c.raw_followAll ms).trans (h.relabelAll_eq hne c.raw))
  once := h.respellings_eq hne

namespace Sheet

/-! ## the moves that a cell is told of -/

section
variable {s t : Sheet} (hs : s.Wired) {axis : Axis} {index : Nat}
include hs

omit hs in
theorem ne_of_mem_openingMoves {j : CellId} {m : Position × Position}
    (h : m ∈ s.openingMoves axis index j) : m.2 ≠ m.1 := fun e => by
  have hcoord := congrArg axis.coord ((mem_movesFor.mp h).1.symm.trans e)
  rw [axis.coord_along] at hcoord
  exact Nat.succ_ne_self _ hcoord

theorem ne_of_mem_closingMoves {j : CellId} {m : Position × Position}
    (h : m ∈ s.closingMoves axis index j) : m.2 ≠ m.1 := fun e => by
  obtain ⟨hm, k, hk, _⟩ := mem_movesFor.mp h
  have hlt := ((mem_linesFrom hs.toPlaced axis (index + 1)).mp hk).2
  have hcoord := congrArg axis.coord (hm.symm.trans e)
  rw [axis.coord_along] at hcoord
  omega

theorem raw_insertLine (h : s.insertLine axis index = .ok t) {j : CellId} {c : Cell}
    (hc : s.cell? j = some c) : ∃ e, t.cell? j = some e ∧
      e.raw = (c.followAll (s.openingMoves axis index j)).raw := by
  obtain ⟨_, e, _, he, _⟩ := exists_cell_of_insertLine hs h hc
  obtain ⟨d, hd, _, hraw, _⟩ := (extended_insertLine hs h).of_cell he
  rw [cell?_openedAt hs axis index hc] at hd
  exact ⟨e, he, hraw.trans (Option.some.inj hd ▸ rfl)⟩

theorem raw_deleteLine (h : s.deleteLine axis index = .ok t) {j : CellId} {c : Cell}
    (hc : s.cell? j = some c) (hj : ¬s.OnLine axis index j) (ho : ¬s.Orphaned axis index j) :
    ∃ e, t.cell? j = some e ∧ e.raw = (c.followAll (s.closingMoves axis index j)).raw :=
  ⟨_, cell?_deleteLine_of_kept hs h hc hj ho, rfl⟩

end

/-! ## every insertion and every deletion -/

/-- The words that spell the label of a moved cell, if the text's own cell reads it, spell the new
label, and nothing else changes.  That is so for every cell after an insertion, and after a deletion
for those that have not lost their content. -/
theorem rewritten_at_once {s : Sheet} (h : s.Reachable) (axis : Axis) (index : Nat) :
    (∀ t, s.insertLine axis index = .ok t → ∀ j c, s.cell? j = some c → ∃ e, t.cell? j = some e ∧
      Rewritten (axis.opened index) (s.openingMoves axis index j) c e) ∧
    ∀ t, s.deleteLine axis index = .ok t → ∀ j c, s.cell? j = some c → ¬s.OnLine axis index j →
      ¬s.Orphaned axis index j → ∃ e, t.cell? j = some e ∧
        Rewritten (axis.closed index) (s.closingMoves axis index j) c e := by
  have hs := h.wired
  refine ⟨fun t ht j c hc => ?_, fun t ht j c hc hj ho => ?_⟩
  · obtain ⟨e, he, hraw⟩ := raw_insertLine hs ht hc
    exact ⟨e, he, (follows_openingMoves hs axis index hc).rewritten
      (fun m => ne_of_mem_openingMoves) hraw⟩
  · obtain ⟨e, he, hraw⟩ := raw_deleteLine hs ht hc hj ho
    exact ⟨e, he, (follows_closingMoves hs axis index hc).rewritten
      (fun m => ne_of_mem_closingMoves hs) hraw⟩

/-- `A1` and `A2` move, with small letters and before a letter, and `A10`, `AA1` and `b2` stay -/
theorem rewritten_at_once_a1b2 : ∃ s t : Sheet, s.Reachable ∧ s.insertLine .row 0 = .ok t ∧
    ∃ c e, s.cell? 1 = some c ∧ t.cell? 1 = some e ∧
      c.raw = "=SUM(a1:A2) A10 AA1 a1b2".toList ∧ e.raw = "=SUM(A2:A3) A10 AA1 A2b2".toList ∧
      Rewritten (Axis.row.opened 0) (s.openingMoves .row 0 1) c e := by
  generalize hs : (blank 2 2 []).apply (.set ⟨0, 1⟩ "=SUM(a1:A2) A10 AA1 a1b2".toList) = s
  have h : s.Reachable := hs ▸ .step _ (.blank 2 2 []) trivial
  obtain ⟨t, ht⟩ : ∃ t, s.insertLine .row 0 = .ok t := ⟨_, if_neg (by rw [← hs]; decide +kernel)⟩
  have hc : (s.cell? 1).map (fun c => (c.raw, c.snapshot.keys))
      = some ("=SUM(a1:A2) A10 AA1 a1b2".toList, [⟨0, 0⟩, ⟨1, 0⟩]) := by
    rw [← hs]
    decide +kernel
  obtain ⟨c, hc, e⟩ := Option.map_eq_some_iff.mp hc
  obtain ⟨hraw, hkeys⟩ := Prod.mk.inj e
  obtain ⟨e, he, hrew⟩ := (rewritten_at_once h .row 0).1 t ht 1 c hc
  refine ⟨s, t, h, ht, c, e, hc, he, hraw, ?_, hrew⟩
  rw [hrew.at_once, hraw, hkeys]
  decide +kernel

end Sheet

end Worksheet
