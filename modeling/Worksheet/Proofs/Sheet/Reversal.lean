import Worksheet.Proofs.Sheet.Reevaluation
import Worksheet.Proofs.Sheet.Staleness
import Worksheet.Proofs.Sheet.Storage

/-!
# A line that is put in and taken out again

Both times the labels in a text are looked for anew.  A word that the insertion has left alone can be
taken for a label by the deletion, and one that both have replaced comes back in capitals.  All else
is as before:

* `Recased`            two texts that differ in the case of words only;
* `returned`           a word after the insertion and the deletion;
* `Mistaken`           a word that only the deletion replaces;
* `recased_returned_iff`
                       without such words a text comes back, up to case;
* `Returning`          the moves that a cell is told of, there and back;
* `Returning.snapshot_eq`, `Returning.evaluate_eq`
                       what the cell has seen afterwards, and what its text comes to;
* `Sheet.Unspanned`    a sheet in which no range takes in a line;
* `Sheet.cell?_insert_delete`
                       the cell with each number, after the line has been put in and taken out;
* `Sheet.restored_of_unspanned`
                       what is restored, and what is not;
* `Sheet.not_restored_exponent`
                       the exponent of a number can be mistaken for a label.
-/

namespace Worksheet

/-! ## texts up to case -/

/-- the texts are the same but for the case of letters in their words -/
def Recased (t u : Text) : Prop :=
  reword (List.map Char.toUpper) u = reword (List.map Char.toUpper) t

instance (t u : Text) : Decidable (Recased t u) := inferInstanceAs (Decidable (_ = _))

theorem labelLike_map_toUpper (w a d : Text) (h : LabelLike w a d) :
    ∃ a' d', LabelLike (w.map Char.toUpper) a' d' :=
  ⟨_, _, h.map_toUpper⟩

theorem recased_reword_iff {f : Text → Text}
    (hf : ∀ w a d, LabelLike w a d → ∃ a' d', LabelLike (f w) a' d') {t : Text} :
    Recased t (reword f t) ↔ ∀ w ∈ words t, (f w).map Char.toUpper = w.map Char.toUpper := by
  rw [Recased, reword_reword hf]
  refine reword_eq_iff (fun w a d hw => ?_) labelLike_map_toUpper
  obtain ⟨a', d', hw'⟩ := hf w a d hw
  exact labelLike_map_toUpper _ _ _ hw'

/-! ## one word -/

section
variable (axis : Axis) (index : Nat) (keys : List Position)

/-- a word in the text of a cell that reads `keys`, after a line has been put in and taken out -/
def returned (w : Text) : Text :=
  respell (axis.closed index) (keys.map (axis.opened index)) (respell (axis.opened index) keys w)

/-- the word spells where something that is read goes when a line is put in, and nothing that is read
is there before -/
def Mistaken (w : Text) : Prop :=
  ∃ k ∈ keys, axis.opened index k ≠ k ∧ (axis.opened index k).SpelledBy w ∧
    axis.opened index k ∉ keys

instance (w : Text) : Decidable (Mistaken axis index keys w) :=
  inferInstanceAs (Decidable (∃ k ∈ keys, _))

theorem labelLike_returned (w a d : Text) (h : LabelLike w a d) :
    ∃ a' d', LabelLike (returned axis index keys w) a' d' := by
  obtain ⟨a', d', h'⟩ := labelLike_respell (axis.opened index) keys w a d h
  exact labelLike_respell _ _ _ _ _ h'

variable {axis index keys} {k : Position} (hk : k ∈ keys) (hne : axis.opened index k ≠ k)
include hk hne

/-- a label that the deletion finds is the one that there was before the insertion -/
theorem respell_closed {w : Text} (hw : (axis.opened index k).SpelledBy w) :
    respell (axis.closed index) (keys.map (axis.opened index)) w = k.label := by
  have hσ : axis.closed index (axis.opened index k) ≠ axis.opened index k := by
    rw [axis.closed_opened]
    exact hne.symm
  rw [respell_of_spelledBy (List.mem_map_of_mem hk) hσ hw, axis.closed_opened]

theorem returned_of_spelledBy {w : Text} (hw : k.SpelledBy w) :
    returned axis index keys w = k.label := by
  rw [returned, respell_of_spelledBy hk hne hw]
  exact respell_closed hk hne (Position.spelledBy_label _)

theorem returned_of_mistaken {w : Text} (hw : (axis.opened index k).SpelledBy w)
    (hno : axis.opened index k ∉ keys) : returned axis index keys w = k.label := by
  have hself : respell (axis.opened index) keys w = w :=
    respell_eq_self fun m hm _ hw' => hno (Position.eq_of_spelledBy hw' hw ▸ hm)
  rw [returned, hself]
  exact respell_closed hk hne hw

omit hk hne

theorem returned_eq_self {w : Text} (h : ∀ k ∈ keys, axis.opened index k ≠ k →
    ¬k.SpelledBy w ∧ ¬(axis.opened index k).SpelledBy w) : returned axis index keys w = w := by
  have hself : respell (axis.opened index) keys w = w :=
    respell_eq_self fun k hk hne => (h k hk hne).1
  rw [returned, hself]
  refine respell_eq_self fun q hq hne => ?_
  obtain ⟨k, hk, rfl⟩ := List.mem_map.mp hq
  rw [axis.closed_opened] at hne
  exact (h k hk hne.symm).2

theorem map_toUpper_returned_iff {w : Text} :
    (returned axis index keys w).map Char.toUpper = w.map Char.toUpper ↔
      ¬Mistaken axis index keys w := by
  by_cases hmoved : ∃ k ∈ keys, axis.opened index k ≠ k ∧ k.SpelledBy w
  · obtain ⟨k, hk, hne, hw⟩ := hmoved
    rw [returned_of_spelledBy hk hne hw, Position.spelledBy_label k]
    refine iff_of_true hw.symm fun ⟨m, _, _, hw', hno⟩ => hno ?_
    exact Position.eq_of_spelledBy hw hw' ▸ hk
  · by_cases hmis : Mistaken axis index keys w
    · refine iff_of_false ?_ (not_not_intro hmis)
      obtain ⟨k, hk, hne, hw, hno⟩ := hmis
      rw [returned_of_mistaken hk hne hw hno, Position.spelledBy_label k, hw]
      exact fun e => hne (Position.label_injective e).symm
    · refine iff_of_true (congrArg _ (returned_eq_self fun k hk hne => ?_)) hmis
      refine ⟨fun hw => hmoved ⟨k, hk, hne, hw⟩, fun hw => hmis ⟨k, hk, hne, hw, fun hk' => ?_⟩⟩
      -- what is read where `k` goes has itself moved on
      exact hmoved ⟨_, hk', fun e => hne (axis.opened_injective index e), hw⟩

end

theorem recased_returned_iff {axis : Axis} {index : Nat} {keys : List Position} {t : Text} :
    Recased t (reword (returned axis index keys) t) ↔
      ∀ w ∈ words t, ¬Mistaken axis index keys w :=
  (recased_reword_iff (labelLike_returned axis index keys)).trans
    (forall₂_congr fun _ _ => map_toUpper_returned_iff)

/-! ## one cell -/

/-- the moves that a cell is told of when a line is put in, and those when it is taken out again -/
structure Returning (axis : Axis) (index : Nat) (keys : List Position)
    (ms ms' : List (Position × Position)) : Prop where
  away : Position.Follows (axis.opened index) keys ms
  back : Position.Follows (axis.closed index) (keys.map (axis.opened index)) ms'
  away_ne : ∀ m ∈ ms, m.2 ≠ m.1
  back_ne : ∀ m ∈ ms', m.2 ≠ m.1

namespace Returning
variable {axis : Axis} {index : Nat} {keys : List Position} {ms ms' : List (Position × Position)}
  (h : Returning axis index keys ms ms')
include h

theorem eq_nil (hk : keys = []) : ms ++ ms' = [] := by
  subst hk
  refine List.append_eq_nil_iff.mpr ⟨?_, ?_⟩
  · exact List.eq_nil_iff_forall_not_mem.mpr fun m hm =>
      absurd (h.away.sound m hm).1 List.not_mem_nil
  · exact List.eq_nil_iff_forall_not_mem.mpr fun m hm =>
      absurd (h.back.sound m hm).1 List.not_mem_nil

theorem movedAll {k : Position} (hk : k ∈ keys) : Position.movedAll (ms ++ ms') k = k := by
  rw [Position.movedAll_append, h.away.movedAll hk, h.back.movedAll (List.mem_map_of_mem hk),
    axis.closed_opened]

theorem relabelAll_eq (t : Text) : relabelAll (ms ++ ms') t = reword (returned axis index keys) t := by
  have happend : relabelAll (ms ++ ms') t = relabelAll ms' (relabelAll ms t) := List.foldl_append
  rw [happend, h.away.relabelAll_eq h.away_ne, h.back.relabelAll_eq h.back_ne,
    reword_reword (labelLike_respell _ _)]
  rfl

theorem relabelledAll_eq (c : Call) : c.relabelledAll (ms ++ ms')
    = ⟨c.head, reword (returned axis index keys) c.body⟩ := by
  rw [Call.relabelledAll_eq, h.relabelAll_eq]

/-- the labels of a call are read as before -/
theorem map_ofLabel? {c : Call} {ls : List Position} (hc : c.StandsFor (Labels keys) ls) :
    (c.relabelledAll (ms ++ ms')).parts.map Position.ofLabel? = c.parts.map Position.ofLabel? := by
  have hparts := hc.parts
  rw [Call.parts_eq, List.forall₂_map_left_iff] at hparts
  rw [Call.parts_eq, Call.parts_eq, Call.pieces_relabelledAll, List.map_map, List.map_map,
    List.map_map]
  refine List.map_congr_left fun t ht => ?_
  show Position.ofLabel? (Text.trim (relabelAll (ms ++ ms') t)) = Position.ofLabel? (Text.trim t)
  obtain ⟨p, _, ⟨hp, hs⟩ | ⟨h0, hp⟩⟩ := exists_of_forall₂_of_mem_left hparts ht
  · have hs' := spelledBy_trim_relabelAll (ms ++ ms') hs
    rw [h.movedAll hp] at hs'
    exact Position.ofLabel?_congr hs' hs
  · rw [trim_relabelAll_of_leadingZero (ms ++ ms') hp h0]

section
variable {raw : Text} {s : Snapshot} (hraw : Anchored raw keys)
  (hfix : ∀ w ∈ words (exposed raw s), returned axis index keys w = w)
include hraw hfix

theorem result_eq {c : Call} (hc : c ∈ valuedCalls raw) :
    Call.result ⟨c.head, reword (returned axis index keys) c.body⟩ s = c.result s := by
  obtain ⟨-, hall, f, hf⟩ := mem_valuedCalls.mp hc
  obtain ⟨ls, hls⟩ := hraw.exists_of_lenient hall hf
  have hhead : (c.relabelledAll (ms ++ ms')).head = c.head := by rw [h.relabelledAll_eq]
  have hshape := c.shape_relabelledAll (ms ++ ms')
  have hparts := h.map_ofLabel? hls
  rw [← h.relabelledAll_eq]
  refine Call.result_congr hhead hshape (fun _ => Call.decodes_congr hshape hparts) fun hleft => ?_
  rw [h.relabelledAll_eq, reword_body_of_left hfix hc hleft]

/-- the text of a cell comes to what it came to, if no other labels than those of calls come back
changed -/
theorem evaluate_eq : evaluate (relabelAll (ms ++ ms') raw) s = evaluate raw s := by
  rw [h.relabelAll_eq]
  exact evaluate_reword (labelLike_returned axis index keys) hfix fun _ => h.result_eq hraw hfix

end

end Returning

theorem Returning.snapshot_eq {axis : Axis} {index : Nat} {c : Cell}
    {ms ms' : List (Position × Position)} (h : Returning axis index c.snapshot.keys ms ms') :
    (c.followAll (ms ++ ms')).snapshot = c.snapshot := by
  refine Snapshot.ext_get? fun p => ?_
  by_cases hp : p ∈ c.snapshot.keys
  · have hget := Cell.get?_followAll (c := c) (fun k hk k' hk' e => by
      rwa [h.movedAll hk, h.movedAll hk'] at e) hp
    rwa [h.movedAll hp] at hget
  · rw [Snapshot.get?_eq_none.mpr hp, Snapshot.get?_eq_none, Cell.mem_keys_followAll]
    rintro ⟨k, hk, rfl⟩
    rw [h.movedAll hk] at hp
    exact hp hk

namespace Sheet

/-! ## a line in no range -/

/-- no range of a cell that reads anything takes in the line -/
def Unspanned (s : Sheet) (axis : Axis) (index : Nat) : Prop :=
  ∀ j c, s.cell? j = some c → c.snapshot.keys ≠ [] → ∀ call ∈ Call.all .strict c.raw, ∀ a b,
    call.corners? = some (a, b) → spans axis index a b = false

instance (s : Sheet) (axis : Axis) (index : Nat) : Decidable (s.Unspanned axis index) :=
  decidable_of_iff (∀ o ∈ s.slots.toList, ∀ c ∈ o, c.snapshot.keys ≠ [] →
    ∀ call ∈ Call.all .strict c.raw, ∀ e ∈ call.corners?, spans axis index e.1 e.2 = false) <| by
    rw [← forall_cell?_iff, Unspanned]
    simp only [Prod.forall, Option.mem_def]

section
variable {s t : Sheet} (hs : s.Wired) {axis : Axis} {index : Nat}
  (h : s.insertLine axis index = .ok t) (hspan : t.Unspanned axis index)
include hs h hspan

/-- nothing is extended to the new line -/
theorem eq_openedAt : t = s.openedAt axis index := by
  obtain ⟨hindex, e⟩ := insertLine_eq_ok.mp h
  have hu := wired_openedAt hs axis index hindex
  have ht := extended_insertLine hs h
  have hnil : (s.openedAt axis index).extensions axis index = [] := by
    refine List.eq_nil_iff_forall_not_mem.mpr fun ext hext => ?_
    obtain ⟨d, hd, hk, hps, hne⟩ := (mem_extensions hu).mp hext
    obtain ⟨p, hp⟩ := List.exists_mem_of_ne_nil _ hne
    rw [hps] at hp
    obtain ⟨⟨call, hcall, a, b, hab, hrect⟩, hcoord, -, -⟩ := mem_newTargets.mp hp
    obtain ⟨f, hf, _, hraw, hkeys⟩ := ht.cell hu.toPlaced hd
    obtain ⟨k, hk⟩ := List.exists_mem_of_ne_nil _ hk
    have hread : f.snapshot.keys ≠ [] := List.ne_nil_of_mem ((hkeys k).mpr (.inl hk))
    have hno := hspan _ f hf hread call (hraw ▸ hcall) a b hab
    rw [← hcoord, spans_of_mem_rect hrect] at hno
    cases hno
  have hfold : (s.openedAt axis index).extendRanges axis index
      = ((s.openedAt axis index).extensions axis index).foldl (fun s e => s.extend e.1 e.2)
        (s.openedAt axis index) := rfl
  rw [← e, hfold, hnil]
  rfl

/-- no cell of the new line is read -/
theorem not_reads_line {i j : CellId} (hr : t.Reads i j) : ¬t.OnLine axis index j := by
  rintro ⟨e, he, hcoord⟩
  have hop := opened_openedAt hs axis index (insertLine_eq_ok.mp h).1
  rw [← eq_openedAt hs h hspan] at hop
  obtain ⟨c, hc, _⟩ := hop.reads hr
  rw [new_of_coord hs h he hcoord] at hc
  cases hc

/-- so nothing is lost with the line -/
theorem not_orphaned (j : CellId) : ¬t.Orphaned axis index j := by
  rintro ⟨_, r, hr, hpath⟩
  obtain ⟨k, _, hkr⟩ := Relation.TransGen.tail'_iff.mp hpath
  exact not_reads_line hs h hspan hkr hr

theorem cell?_insertLine_of_unspanned {j : CellId} {c : Cell} (hc : s.cell? j = some c) :
    t.cell? j = some
      ((c.followAll (s.openingMoves axis index j)).placeAt (axis.opened index c.position)) := by
  rw [eq_openedAt hs h hspan]
  exact cell?_openedAt hs axis index hc

theorem returning_moves {j : CellId} {c : Cell} (hc : s.cell? j = some c) :
    Returning axis index c.snapshot.keys (s.openingMoves axis index j)
      (t.closingMoves axis index j) := by
  have ht := (extended_insertLine hs h).toWired
  have hd := cell?_insertLine_of_unspanned hs h hspan hc
  have hms := follows_openingMoves hs axis index hc
  have hback := follows_closingMoves ht axis index hd
  have hkeys : ∀ q, q ∈ (c.followAll (s.openingMoves axis index j)).snapshot.keys ↔
      q ∈ c.snapshot.keys.map (axis.opened index) := fun q => by
    rw [Cell.mem_keys_of_follows hms, List.mem_map]
  refine ⟨hms, ⟨hback.orderly, fun m hm => ?_, fun k hk => ?_⟩, fun m => ne_of_mem_openingMoves,
    fun m => ne_of_mem_closingMoves ht⟩
  · exact (hback.sound m hm).imp_left (hkeys m.1).mp
  · exact hback.complete k ((hkeys k).mpr hk)

variable {u : Sheet} (hu : t.deleteLine axis index = .ok u)
include hu

open Classical in
theorem cell?_insert_delete (j : CellId) : u.cell? j = (s.cell? j).map fun c =>
    c.followAll (s.openingMoves axis index j ++ t.closingMoves axis index j) := by
  have ht := (extended_insertLine hs h).toWired
  cases hc : s.cell? j with
  | none =>
    refine cell?_deleteLine_of_gone ht hu ?_
    cases he : t.cell? j with
    | none => exact .inl rfl
    | some e => exact .inr ⟨e, he, (eq_blank_of_new hs h hc he).1⟩
  | some c =>
    have hoff : ∀ {i b}, s.cell? i = some b → ¬t.OnLine axis index i := fun hb => by
      rw [onLine_iff (cell?_insertLine_of_unspanned hs h hspan hb)]
      exact axis.coord_opened_ne index _
    obtain ⟨d, hd, e⟩ : ∃ d, t.cell? j = some d ∧ d =
        (c.followAll (s.openingMoves axis index j)).placeAt (axis.opened index c.position) :=
      ⟨_, cell?_insertLine_of_unspanned hs h hspan hc, rfl⟩
    have hobs : d.observers = c.observers := e ▸ c.observers_followAll _
    have hfull : ∀ i ∈ d.observers, ¬t.OnLine axis index i ∧ ¬t.Orphaned axis index i :=
      fun i hi => by
        obtain ⟨b, hb⟩ := hs.observer_live hc (hobs ▸ hi)
        exact ⟨hoff hb, not_orphaned hs h hspan i⟩
    rw [cell?_deleteLine_of_kept ht hu hd (hoff hc) (not_orphaned hs h hspan j),
      List.filter_eq_self.mpr fun i hi => decide_eq_true (hfull i hi), hobs, e, closedCell,
      Cell.followAll_placeAt, ← Cell.followAll_append]
    -- its place and its readers are what they were
    show some (Cell.withObservers
      (Cell.placeAt _ (axis.closed index (axis.opened index c.position))) c.observers) = _
    rw [axis.closed_opened, ← c.position_followAll, ← c.observers_followAll]
    rfl

end

/-! ## there and back -/

/-- What is left of a cell after a line has been put in and taken out again.  It has all that it had but
for its text: words that the deletion has mistaken for labels are lost, and labels have come back in
capitals.  What it shows follows from the text, and has not changed where only labels of calls have. -/
structure Restored (axis : Axis) (index : Nat) (c e : Cell) : Prop where
  position : e.position = c.position
  color : e.color = c.color
  snapshot : e.snapshot = c.snapshot
  observers : e.observers = c.observers
  raw : e.raw = reword (returned axis index c.snapshot.keys) c.raw
  recased : Recased c.raw e.raw ↔ ∀ w ∈ words c.raw, ¬Mistaken axis index c.snapshot.keys w
  evaluated : e.shown = evaluate e.raw e.snapshot
  shown : (∀ w ∈ words (exposed c.raw c.snapshot), returned axis index c.snapshot.keys w = w) →
    e.shown = c.shown

theorem restored_followAll {axis : Axis} {index : Nat} {c : Cell}
    {ms ms' : List (Position × Position)} (h : Returning axis index c.snapshot.keys ms ms')
    (hanch : c.snapshot.keys ≠ [] → Anchored c.raw c.snapshot.keys)
    (heval : c.shown = evaluate c.raw c.snapshot) :
    Restored axis index c (c.followAll (ms ++ ms')) := by
  have hraw : (c.followAll (ms ++ ms')).raw = reword (returned axis index c.snapshot.keys) c.raw :=
    (c.raw_followAll _).trans (h.relabelAll_eq c.raw)
  refine ⟨c.position_followAll _, c.color_followAll _, h.snapshot_eq, c.observers_followAll _, hraw,
    hraw ▸ recased_returned_iff, ?_, fun hfix => ?_⟩
  · by_cases hms : ms ++ ms' = []
    · rw [hms]
      exact heval
    · exact Cell.shown_followAll hms
  · by_cases hms : ms ++ ms' = []
    · rw [hms]
      rfl
    · rw [Cell.shown_followAll hms, h.snapshot_eq, c.raw_followAll, heval]
      exact h.evaluate_eq (hanch fun hk => hms (h.eq_nil hk)) hfix

/-- If there is room for the line and no range takes it in, taking it out again restores the size, the
places, the colors, what every cell has read and by whom it is read, and the texts up to mistaken words. -/
theorem restored_of_unspanned {s t : Sheet} (h : s.Reachable)
    (heval : ∀ j c, s.cell? j = some c → c.shown = evaluate c.raw c.snapshot) {axis : Axis}
    (hroom : s.HasRoom axis) {index : Nat} (ht : s.insertLine axis index = .ok t)
    (hspan : t.Unspanned axis index) :
    t.Fits ∧ ∃ u, t.deleteLine axis index = .ok u ∧ u.rows = s.rows ∧ u.cols = s.cols ∧
      (∀ p, u.idAt? p = s.idAt? p) ∧ (∀ j, s.cell? j = none → u.cell? j = none) ∧
      ∀ j c, s.cell? j = some c → ∃ e, u.cell? j = some e ∧ Restored axis index c e := by
  have hs := h.wired
  have hw := (extended_insertLine hs ht).toWired
  obtain ⟨hcount, hcross⟩ := count_insertLine hs ht
  have hindex := (insertLine_eq_ok.mp ht).1
  obtain ⟨u, hu⟩ : ∃ u, t.deleteLine axis index = .ok u := ⟨_, if_neg (by omega)⟩
  have hshort := (deleteLine_spec hw hu).2
  have hcell := cell?_insert_delete hs ht hspan hu
  have hsize : u.rows = s.rows ∧ u.cols = s.cols := by
    have hcount' : axis.count u = axis.count s := by
      have := hshort.count
      omega
    have hcross' := hshort.cross_count.trans hcross
    cases axis with
    | row => exact ⟨hcount', hcross'⟩
    | column => exact ⟨hcross', hcount'⟩
  refine ⟨fits_insertLine hs hroom ht, u, hu, hsize.1, hsize.2, fun p => ?_, fun j hj => ?_,
    fun j c hc => ?_⟩
  · rw [idAt?_deleteLine hw hu, idAt?_insertLine hs ht]
  · rw [hcell, hj]
    rfl
  · refine ⟨_, (hcell j).trans (congrArg (Option.map _) hc), ?_⟩
    exact restored_followAll (returning_moves hs ht hspan hc) (h.anchored j c hc) (heval j c hc)

/-- `a1` comes back in capitals, while `A2`, which is where `A1` has been, is read itself -/
theorem restored_of_unspanned_b1 : ∃ s t u : Sheet, s.Reachable ∧ s.insertLine .row 0 = .ok t ∧
    t.deleteLine .row 0 = .ok u ∧ s.rawAt? ⟨0, 1⟩ = some "=SUM(a1:A2)+1E2".toList ∧
    t.rawAt? ⟨1, 1⟩ = some "=SUM(A2:A3)+1E2".toList ∧
    ∃ c e, s.cell? 1 = some c ∧ u.cell? 1 = some e ∧ e.raw = "=SUM(A1:A2)+1E2".toList ∧
      Recased c.raw e.raw ∧ e.shown = c.shown ∧ e.observers = c.observers := by
  generalize hs : (blank 2 2 []).apply (.set ⟨0, 1⟩ "=SUM(a1:A2)+1E2".toList) = s
  have h : s.Reachable := hs ▸ .step _ (.blank 2 2 []) trivial
  have heval : ∀ j c, s.cell? j = some c → c.shown = evaluate c.raw c.snapshot :=
    forall_cell?_iff.mpr (by rw [← hs]; decide +kernel)
  obtain ⟨t, ht⟩ : ∃ t, s.insertLine .row 0 = .ok t := ⟨_, if_neg (by rw [← hs]; decide +kernel)⟩
  have hopen : (s.insertLine .row 0).toOption.map
      (fun t => (t.rawAt? ⟨1, 1⟩, decide (t.Unspanned .row 0)))
      = some (some "=SUM(A2:A3)+1E2".toList, true) := by
    rw [← hs]
    decide +kernel
  rw [ht] at hopen
  obtain ⟨hraw, hspan⟩ := Prod.mk.inj (Option.some.inj hopen)
  have hroom : s.HasRoom .row := by rw [← hs]; decide +kernel
  obtain ⟨_, u, hu, _, _, _, _, hcell⟩ :=
    restored_of_unspanned h heval hroom ht (of_decide_eq_true hspan)
  have hcheck : (s.cell? 1).isSome = true ∧ ∀ c ∈ s.cell? 1,
      reword (returned .row 0 c.snapshot.keys) c.raw = "=SUM(A1:A2)+1E2".toList ∧
      (∀ w ∈ words c.raw, ¬Mistaken .row 0 c.snapshot.keys w) ∧
      ∀ w ∈ words (exposed c.raw c.snapshot), returned .row 0 c.snapshot.keys w = w := by
    rw [← hs]
    decide +kernel
  obtain ⟨c, hc⟩ := Option.isSome_iff_exists.mp hcheck.1
  obtain ⟨hreturn, hwords, hfix⟩ := hcheck.2 c hc
  obtain ⟨e, he, hrest⟩ := hcell 1 c hc
  exact ⟨s, t, u, h, ht, hu, by rw [← hs]; decide +kernel, hraw, c, e, hc, he,
    hrest.raw.trans hreturn, hrest.recased.mpr hwords, hrest.shown hfix, hrest.observers⟩

/-- `1E2` is a number that the insertion leaves alone, and the deletion takes its exponent for the label
of a cell that moves -/
theorem not_restored_exponent : ∃ s t u : Sheet, s.Reachable ∧ s.InStep ∧
    (∀ j c, s.cell? j = some c → c.shown = evaluate c.raw c.snapshot) ∧
    s.insertLine .row 0 = .ok t ∧ t.Unspanned .row 0 ∧ t.deleteLine .row 0 = .ok u ∧
    s.rawAt? ⟨0, 0⟩ = some "=1E2+REF(E1)".toList ∧ u.rawAt? ⟨0, 0⟩ = some "=1E1+REF(E1)".toList ∧
    ¬Recased "=1E2+REF(E1)".toList "=1E1+REF(E1)".toList ∧
    s.shownAt? ⟨0, 0⟩ = some "100".toList ∧ u.shownAt? ⟨0, 0⟩ = some "10".toList := by
  generalize hs : (blank 5 1 []).set ⟨0, 0⟩ "=1E2+REF(E1)".toList = s
  have h : s.Consistent := by
    rw [← hs]
    exact consistent_set_of_targets (consistent_blank 5 1 []) (by decide +kernel) [⟨0, 4⟩]
      (by decide +kernel) (by decide +kernel)
  obtain ⟨t, ht⟩ : ∃ t, s.insertLine .row 0 = .ok t := ⟨_, if_neg (by rw [← hs]; decide +kernel)⟩
  have hopen : (s.insertLine .row 0).toOption.map (fun t => (decide (t.Unspanned .row 0),
      (t.deleteLine .row 0).toOption.map fun u => (u.rawAt? ⟨0, 0⟩, u.shownAt? ⟨0, 0⟩)))
      = some (true, some (some "=1E1+REF(E1)".toList, some "10".toList)) := by
    rw [← hs]
    decide +kernel
  rw [ht] at hopen
  obtain ⟨hspan, hclose⟩ := Prod.mk.inj (Option.some.inj hopen)
  obtain ⟨u, hu, e⟩ := Option.map_eq_some_iff.mp hclose
  obtain ⟨hraw, hshown⟩ := Prod.mk.inj e
  refine ⟨s, t, u, h.reachable, h.inStep, forall_cell?_iff.mpr (by rw [← hs]; decide +kernel), ht,
    of_decide_eq_true hspan, ?_, by rw [← hs]; decide +kernel, hraw, by decide +kernel,
    by rw [← hs]; decide +kernel, hshown⟩
  cases hdel : t.deleteLine .row 0 with
  | error e =>
    rw [hdel] at hu
    cases hu
  | ok v =>
    rw [hdel] at hu
    exact congrArg Except.ok (Option.some.inj hu)

end Sheet

end Worksheet
