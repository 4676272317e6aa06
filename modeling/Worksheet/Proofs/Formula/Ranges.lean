import Worksheet.Proofs.Formula.Splice

/-!
# Ranges and the lists they stand for

* `Position.pairwise_rect` a rectangle is walked through in row-major order;
* `Call.readPositions_of_corners`
                       what a range reads is what of its rectangle the snapshot has;
* `Position.listing`   positions as the body of a call, of which `Call.decodes_listing` says that it is
                       read back;
* `Call.corners?_swapped` a range with its two corners in the other order;
* `evaluate_range`     a formula shows the same with the list in place of the range, and with the corners
                       in the other order.
-/

namespace Worksheet

/-! ## rectangles -/

namespace Position

theorem pairwise_between (a b : Nat) : (between a b).Pairwise (· < ·) :=
  List.pairwise_map.mpr (List.pairwise_lt_range.imp fun h => Nat.add_lt_add_left h _)

theorem between_comm (a b : Nat) : between a b = between b a := by
  rw [between, between, Nat.max_comm, Nat.min_comm]

theorem pairwise_rect (a b : Position) : (rect a b).Pairwise (· < ·) := by
  refine List.pairwise_flatMap.mpr ⟨fun row _ => ?_, ?_⟩
  · exact List.pairwise_map.mpr ((pairwise_between _ _).imp fun h => .inr ⟨rfl, h⟩)
  · refine (pairwise_between _ _).imp fun hlt p hp q hq => ?_
    obtain ⟨col, -, rfl⟩ := List.mem_map.mp hp
    obtain ⟨col', -, rfl⟩ := List.mem_map.mp hq
    exact .inl hlt

theorem rect_comm (a b : Position) : rect a b = rect b a := by
  rw [rect, rect, between_comm a.row, between_comm a.col]

theorem rect_ne_nil (a b : Position) : rect a b ≠ [] :=
  List.ne_nil_of_mem (mem_rect.mpr (by omega : (min a.row b.row ≤ a.row ∧ a.row ≤ max a.row b.row) ∧
    min a.col b.col ≤ a.col ∧ a.col ≤ max a.col b.col))

/-! ## lists of labels -/

/-- the labels of positions, with commas between them -/
def listing (ps : List Position) : Text := List.intercalate [','] (ps.map label)

theorem listing_singleton (p : Position) : listing [p] = p.label := by
  rw [listing, List.map_singleton, List.intercalate_singleton]

theorem listing_cons_cons (p q : Position) (ps : List Position) :
    listing (p :: q :: ps) = p.label ++ ',' :: listing (q :: ps) := by
  rw [listing, List.map_cons, List.map_cons, List.intercalate_cons_cons, List.append_assoc]
  rfl

theorem of_mem_listing {ps : List Position} {c : Char} (h : c ∈ listing ps) :
    c.isAlphanum = true ∨ c = ',' := by
  rcases mem_of_mem_intercalate h with rfl | ⟨l, hl, hc⟩
  · exact .inr rfl
  · obtain ⟨p, -, rfl⟩ := List.mem_map.mp hl
    exact .inl (p.labelLike_label.isAlphanum c hc)

theorem acceptsBody_listing {ps : List Position} :
    ∀ c ∈ listing ps, Mode.lenient.acceptsBody c = true := by
  intro c hc
  show (c.isAlphanum || c == ',' || c == ':' || c == ' ' || c == '+') = true
  rcases of_mem_listing hc with h | rfl
  · simp only [h, Bool.true_or]
  · rfl

end Position

namespace Call

theorem notMem_label {c : Char} (hc : c.isAlphanum = false) (p : Position) : c ∉ p.label := fun h => by
  rw [p.labelLike_label.isAlphanum c h] at hc
  cases hc

/-- a list is no range, and its labels are its parts -/
theorem parts_listing (head : Text) {ps : List Position} (hne : ps ≠ []) :
    (Call.mk head (Position.listing ps)).shape ≠ .range ∧
      (Call.mk head (Position.listing ps)).parts = ps.map Position.label := by
  have hcolon : (Position.listing ps).contains ':' = false := by
    rw [Bool.eq_false_iff, ne_eq, List.contains_iff_mem]
    intro h
    rcases Position.of_mem_listing h with h | h <;> cases h
  have htrim : (ps.map Position.label).map Text.trim = ps.map Position.label := by
    rw [List.map_map]
    refine List.map_congr_left fun p _ => trim_of_not_isBlank fun c hc => ?_
    exact Bool.not_eq_true' _ ▸ not_isBlank_of_isAlphanum (p.labelLike_label.isAlphanum c hc)
  obtain ⟨p, ps, rfl⟩ := List.exists_cons_of_ne_nil hne
  cases ps with
  | nil =>
    have hcomma : (Position.listing [p]).contains ',' = false := by
      rw [Bool.eq_false_iff, ne_eq, List.contains_iff_mem, Position.listing_singleton]
      exact notMem_label (by decide) p
    have hshape : (Call.mk head (Position.listing [p])).shape = .single := by
      rw [shape, hcolon, hcomma]
    refine ⟨fun h => (by cases hshape.symm.trans h), ?_⟩
    rw [parts_eq, pieces, hshape]
    show [Position.listing [p]].map Text.trim = _
    rw [Position.listing_singleton]
    exact htrim
  | cons q ps =>
    have hcomma : (Position.listing (p :: q :: ps)).contains ',' = true := by
      rw [List.contains_iff_mem, Position.listing_cons_cons]
      exact List.mem_append_right _ (List.mem_cons_self ..)
    have hshape : (Call.mk head (Position.listing (p :: q :: ps))).shape = .list := by
      rw [shape, hcolon, hcomma]
    refine ⟨fun h => (by cases hshape.symm.trans h), ?_⟩
    rw [parts_eq, pieces, hshape]
    show (List.splitOn ',' (Position.listing (p :: q :: ps))).map Text.trim = _
    have hlabels : ∀ l ∈ (p :: q :: ps).map Position.label, ',' ∉ l := fun l hl => by
      obtain ⟨p', -, rfl⟩ := List.mem_map.mp hl
      exact notMem_label (by decide) p'
    rw [Position.listing, List.splitOn_intercalate ',' hlabels (by simp)]
    exact htrim

theorem decodes_listing (head : Text) {ps : List Position} (hne : ps ≠ [])
    (hps : ∀ p ∈ ps, p.row < maxCount ∧ p.col < maxCount) :
    (Call.mk head (Position.listing ps)).Decodes ps where
  parts := by
    rw [(parts_listing head hne).2, List.forall₂_map_left_iff, List.forall₂_same]
    exact fun p hp => Position.ofLabel?_of_spelledBy p.spelledBy_label (hps p hp).1 (hps p hp).2
  two h := absurd h (parts_listing head hne).1

/-! ## ranges -/

section
variable {c : Call} {a b : Position} (h : c.corners? = some (a, b))
include h

theorem readPositions_of_corners (s : Snapshot) :
    c.readPositions s = (Position.rect a b).filter (· ∈ s.keys) := by
  obtain ⟨hr, hd⟩ := corners?_eq_some_iff_decodes.mp h
  rw [readPositions_of_range hr hd]
  refine Position.eq_of_mem_iff (s.pairwise_keys.filter _)
    ((Position.pairwise_rect a b).filter _) fun p => ?_
  rw [List.mem_filter, List.mem_filter, Position.within_iff, decide_eq_true_eq]
  exact And.comm

theorem bounds_of_corners {p : Position} (hp : p ∈ Position.rect a b) :
    p.row < maxCount ∧ p.col < maxCount := by
  obtain ⟨-, s, t, -, ha, hb⟩ := corners?_eq_some.mp h
  have hr := Position.mem_rect.mp hp
  have ha := Position.bounds_of_ofLabel? ha
  have hb := Position.bounds_of_ofLabel? hb
  omega

theorem values_listing {s : Snapshot} (hs : ∀ p ∈ Position.rect a b, p ∈ s.keys) :
    (Call.mk c.head (Position.listing (Position.rect a b))).values s = c.values s := by
  have hne := Position.rect_ne_nil a b
  rw [values, readPositions_of_ne (parts_listing c.head hne).1
    (decodes_listing c.head hne fun p hp => bounds_of_corners h hp), values,
    readPositions_of_corners h, List.filter_eq_self.mpr fun p hp => decide_eq_true (hs p hp)]

/-- the corners are on the two sides of a colon -/
theorem corners?_swapped {x y : Text} (hbody : c.body = x ++ ':' :: y) :
    (Call.mk c.head (y ++ ':' :: x)).corners? = some (b, a) := by
  obtain ⟨hr, hd⟩ := corners?_eq_some_iff_decodes.mp h
  have hparts : ∀ {d : Call} {u v : Text}, d.shape = .range → d.body = u ++ ':' :: v →
      d.parts = (u.splitOn ':').map Text.trim ++ (v.splitOn ':').map Text.trim := by
    intro d u v hr e
    rw [parts_eq, pieces, hr]
    show (d.body.splitOn ':').map Text.trim = _
    rw [e, List.splitOn, List.splitOnP_append_cons _ _ rfl, List.map_append]
    rfl
  have hr' : (Call.mk c.head (y ++ ':' :: x)).shape = .range := by
    rw [← hr, shape, shape, hbody]
    have hsame : ∀ d : Char, (y ++ ':' :: x).contains d = (x ++ ':' :: y).contains d := fun d => by
      rw [Bool.eq_iff_iff, List.contains_iff_mem, List.contains_iff_mem]
      simp only [List.mem_append, List.mem_cons]
      exact ⟨fun h => by tauto, fun h => by tauto⟩
    rw [hsame, hsame]
  have hforall := hd.parts
  rw [hparts hr hbody] at hforall
  have hlen := hforall.length_eq
  have hpos : ∀ u : Text, 0 < ((u.splitOn ':').map Text.trim).length := fun u => by
    rw [List.length_map]
    exact List.length_pos_iff.mpr (List.splitOn_ne_nil ':' u)
  have hx := hpos x
  have hy := hpos y
  rw [List.length_append] at hlen
  simp only [List.length_cons, List.length_nil] at hlen
  obtain ⟨s, hs⟩ := List.length_eq_one_iff.mp (by omega : ((x.splitOn ':').map Text.trim).length = 1)
  obtain ⟨t, ht⟩ := List.length_eq_one_iff.mp (by omega : ((y.splitOn ':').map Text.trim).length = 1)
  rw [hs, ht] at hforall
  obtain ⟨ha, hrest⟩ := List.forall₂_cons.mp hforall
  refine corners?_eq_some.mpr ⟨hr', t, s, ?_, (List.forall₂_cons.mp hrest).1, ha⟩
  rw [hparts hr' rfl, hs, ht]
  rfl

end

end Call

/-! ## formulas -/

/-- A range finds what its snapshot has of its rectangle.  Where it is a sum or a mean, a formula shows
the same with the list of the positions in place of the range, if the snapshot has all of them, and with
the corners in the other order. -/
theorem evaluate_range {c : Call} {a b : Position} (hc : c.corners? = some (a, b)) (s : Snapshot) :
    c.values s = ((Position.rect a b).filter (· ∈ s.keys)).map s.valueAt ∧
    ∀ (raw : Text) (pre post : List (Stretch Call)), (Text.trim raw).head? = some '=' →
      Call.scan .lenient (Text.trim raw) = pre ++ .found c :: post → c.function? ≠ some .ref →
      ((∀ p ∈ Position.rect a b, p ∈ s.keys) →
        evaluate ((pre ++ .found ⟨c.head, Position.listing (Position.rect a b)⟩ :: post).flatMap
          Call.source) s = evaluate raw s) ∧
      ∀ x y, c.body = x ++ ':' :: y →
        evaluate ((pre ++ .found ⟨c.head, y ++ ':' :: x⟩ :: post).flatMap Call.source) s
          = evaluate raw s := by
  refine ⟨congrArg (List.map _) (Call.readPositions_of_corners hc s), ?_⟩
  intro raw pre post hraw hscan hf
  have hresult : ∀ body : Text, (Call.mk c.head body).values s = c.values s →
      Call.result ⟨c.head, body⟩ s = c.result s := fun body hvalues =>
    Call.result_of_values (c := c) (d := ⟨c.head, body⟩) rfl hvalues fun h => absurd h.1 hf
  constructor
  · intro hs
    exact evaluate_replaced hraw hscan Position.acceptsBody_listing
      (hresult _ (Call.values_listing hc hs))
  · intro x y hbody
    have haccepts : ∀ d ∈ y ++ ':' :: x, Mode.lenient.acceptsBody d = true := fun d hd => by
      refine (Call.begins_of_scan (Call.scan_found hscan)).1.acceptsBody d ?_
      rw [hbody]
      simp only [List.mem_append, List.mem_cons] at hd ⊢
      tauto
    have hvalues : (Call.mk c.head (y ++ ':' :: x)).values s = c.values s := by
      rw [Call.values, Call.readPositions_of_corners (Call.corners?_swapped hc hbody),
        Position.rect_comm, ← Call.readPositions_of_corners hc, Call.values]
    exact evaluate_replaced hraw hscan haccepts (hresult _ hvalues)

/-- a range of four cells, of which one is blank, next to a call that is not replaced -/
theorem evaluate_range_square : ∃ s : Snapshot,
    s = .ofList [(⟨0, 0⟩, "1".toList), (⟨0, 1⟩, "2".toList), (⟨1, 0⟩, []), (⟨1, 1⟩, "-4".toList)] ∧
      evaluate "=REF(A1)-SUM(A1,B1,A2,B2)*2".toList s = "3".toList ∧
      evaluate "=REF(A1)-SUM( A1:b02)*2".toList s = "3".toList := by
  refine ⟨_, rfl, ?_⟩
  generalize hs : Snapshot.ofList [(⟨0, 0⟩, "1".toList), (⟨0, 1⟩, "2".toList), (⟨1, 0⟩, []),
    (⟨1, 1⟩, "-4".toList)] = s
  have hkeys : ∀ p ∈ Position.rect ⟨1, 1⟩ ⟨0, 0⟩, p ∈ s.keys := by
    rw [← hs]
    decide +kernel
  have hshown : evaluate "=REF(A1)-SUM(b02: A1)*2".toList s = "3".toList := by
    rw [← hs]
    decide +kernel
  obtain ⟨hlist, hswap⟩ := (evaluate_range (c := ⟨"SUM".toList, "b02: A1".toList⟩) (a := ⟨1, 1⟩)
    (b := ⟨0, 0⟩) (by decide +kernel) s).2 "=REF(A1)-SUM(b02: A1)*2".toList
    [.plain '=', .found ⟨"REF".toList, "A1".toList⟩, .plain '-'] [.plain '*', .plain '2']
    (by decide +kernel) (by decide +kernel) (by decide +kernel)
  constructor
  · refine Eq.trans (congrArg (evaluate · s) ?_) ((hlist hkeys).trans hshown)
    decide +kernel
  · exact (hswap "b02".toList " A1".toList (by decide +kernel)).trans hshown

end Worksheet
