import Worksheet.Proofs.Number.Zero
import Worksheet.Proofs.Formula.Spelling
import Worksheet.Formula.Evaluation
import Worksheet.Proofs.Snapshot

/-!
# What calls find after an insertion

A call whose labels have followed the cells finds the values that it has found before, and of the new
line, if it is a range, some that are empty and count as zero.

* `Snapshot.Opened`    what was seen is seen where it now stands, and nothing is seen on the new
                       line;
* `Call.readPositions_opened`, `Call.values_opened`
                       the positions and the values that a call finds;
* `sum?_filter`        zeros that are left out of a sum do not change what is shown;
* `Call.SplitBy`       the new line runs through a range;
* `Call.result_opened` what stands for a call;
* `Call.result_of_values`, `Call.result_congr`
                       what stands for two calls that find the same values, as they do if they differ
                       in how their labels are written.
-/

namespace Worksheet

/-- positions in row-major order are determined by which they are -/
theorem Position.eq_of_mem_iff {ps qs : List Position} (hps : ps.Pairwise (· < ·))
    (hqs : qs.Pairwise (· < ·)) (h : ∀ p, p ∈ ps ↔ p ∈ qs) : ps = qs := by
  have : Std.Irrefl fun p q : Position => p < q := ⟨Position.lt_irrefl⟩
  have : Std.Antisymm fun p q : Position => p < q :=
    ⟨fun p _ hpq hqp => absurd (Position.lt_trans hpq hqp) (Position.lt_irrefl p)⟩
  exact hps.eq_of_mem_iff hqs h

/-! ## snapshots with room for a line -/

structure Snapshot.Opened (axis : Axis) (index : Nat) (s t : Snapshot) : Prop where
  get? : ∀ p, t.get? (axis.opened index p) = s.get? p
  blank : ∀ q v, axis.coord q = index → t.get? q = some v → v = []

namespace Snapshot

theorem pairwise_keys (s : Snapshot) : s.keys.Pairwise (· < ·) := List.pairwise_map.mpr s.ascending

namespace Opened
variable {axis : Axis} {index : Nat} {s t : Snapshot} (h : s.Opened axis index t)
include h

theorem valueAt (p : Position) : t.valueAt (axis.opened index p) = s.valueAt p := by
  rw [Snapshot.valueAt, h.get?, Snapshot.valueAt]

theorem valueAt_line {q : Position} (hq : axis.coord q = index) : t.valueAt q = ['0'] := by
  rw [Snapshot.valueAt]
  cases e : t.get? q with
  | none => rfl
  | some v =>
    rw [h.blank q v hq e]

theorem filter_keys :
    t.keys.filter (fun q => axis.coord q ≠ index) = s.keys.map (axis.opened index) := by
  refine Position.eq_of_mem_iff (t.pairwise_keys.filter _)
    (List.pairwise_map.mpr (s.pairwise_keys.imp (axis.opened_lt index))) fun q => ?_
  simp only [List.mem_filter, List.mem_map, mem_keys, decide_eq_true_eq]
  constructor
  · rintro ⟨⟨v, hv⟩, hq⟩
    have e := axis.opened_closed hq
    exact ⟨_, ⟨v, by rwa [← e, h.get?] at hv⟩, e⟩
  · rintro ⟨p, ⟨v, hv⟩, rfl⟩
    exact ⟨⟨v, (h.get? p).trans hv⟩, axis.coord_opened_ne index p⟩

end Opened

end Snapshot

/-! ## sums -/

theorem number?_zero : number? ['0'] = some 0 := by decide +kernel

/-- values that are zero can be left out of a sum -/
theorem foldlM_filter {v : Position → Text} {keep : Position → Bool} {qs : List Position}
    (hzero : ∀ q ∈ qs, keep q = false → v q = ['0']) {x y : Float} (hxy : Number.Same x y) :
    Option.Rel Number.Same ((qs.map v).foldlM (fun acc v => (number? v).map (acc + ·)) x)
      (((qs.filter keep).map v).foldlM (fun acc v => (number? v).map (acc + ·)) y) := by
  induction qs generalizing x y with
  | nil => exact .some hxy
  | cons q qs ih =>
    have ih := fun {x y} => @ih (fun q' hq' => hzero q' (List.mem_cons_of_mem _ hq')) x y
    rw [List.map_cons, List.foldlM_cons]
    cases hq : keep q with
    | false =>
      rw [List.filter_cons_of_neg (by rw [hq]; exact Bool.false_ne_true),
        hzero q (List.mem_cons_self ..) hq, number?_zero]
      exact ih ((Number.same_add_of_isZero Number.isZero_zero).trans hxy)
    | true =>
      rw [List.filter_cons_of_pos hq, List.map_cons, List.foldlM_cons]
      cases number? (v q) with
      | none => exact .none
      | some z => exact ih (hxy.add z)

theorem sum?_filter {v : Position → Text} {qs : List Position} (keep : Position → Bool)
    (hzero : ∀ q ∈ qs, keep q = false → v q = ['0']) :
    Option.Rel Number.Same (sum? (qs.map v)) (sum? ((qs.filter keep).map v)) :=
  foldlM_filter hzero (.inl rfl)

theorem apply_sum_eq {vs vs' : List Text} (h : Option.Rel Number.Same (sum? vs) (sum? vs')) :
    Function.sum.apply vs = Function.sum.apply vs' := by
  simp only [Function.apply]
  generalize sum? vs = x at h
  generalize sum? vs' = y at h
  cases h with
  | none => rfl
  | some h => exact congrArg (fun t => Except.ok (some t)) h.format

/-- only a reference that does not find exactly one value is left in the text -/
theorem map_getD_apply {f : Function} {vs : List Text} {u v : Text}
    (h : f = .ref → vs.length ≠ 1 → u = v) :
    (f.apply vs).map (fun t => t.getD u) = (f.apply vs).map fun t => t.getD v := by
  cases f with
  | ref =>
    by_cases hlen : vs.length = 1
    · obtain ⟨x, rfl⟩ := List.length_eq_one_iff.mp hlen
      rfl
    · rw [h rfl hlen]
  | sum =>
    simp only [Function.apply]
    cases sum? vs <;> rfl
  | avg =>
    simp only [Function.apply]
    cases sum? vs <;> rfl

/-! ## what a call finds -/

theorem Position.within_iff {p a b : Position} : p.within a b = true ↔ p ∈ rect a b := by
  rw [mem_rect]
  simp only [within, Bool.and_eq_true, decide_eq_true_eq]
  omega

namespace Call

/-- a line that is put in lies between two rows or columns of a range -/
def SplitBy (axis : Axis) (index : Nat) (c : Call) : Prop :=
  ∃ a b, c.corners? = some (a, b) ∧ min (axis.coord a) (axis.coord b) < index ∧
    index ≤ max (axis.coord a) (axis.coord b)

/-- a reference that does not find exactly one value is left in the text -/
def Left (s : Snapshot) (c : Call) : Prop := c.function? = some .ref ∧ (c.values s).length ≠ 1

instance (s : Snapshot) (c : Call) : Decidable (c.Left s) :=
  inferInstanceAs (Decidable (_ ∧ _))

theorem result_of_function? {c : Call} {f : Function} (h : c.function? = some f) (s : Snapshot) :
    c.result s = (f.apply (c.values s)).map fun t => t.getD c.text := by
  rw [result, h]

theorem readPositions_congr {c d : Call} (hshape : d.shape = c.shape)
    (hdec : ∀ ls, d.Decodes ls ↔ c.Decodes ls) (s : Snapshot) :
    d.readPositions s = c.readPositions s := by
  have hcorners : d.corners? = c.corners? := Option.ext fun ⟨a, b⟩ => by
    rw [corners?_eq_some_iff_decodes, corners?_eq_some_iff_decodes, hshape, hdec]
  have hpositions : d.positions? = c.positions? := Option.ext fun ps => by
    rw [positions?_eq_some, positions?_eq_some, hshape]
    simp only [hdec]
  rw [readPositions, readPositions, hshape, hcorners, hpositions]

theorem readPositions_of_range {c : Call} (hc : c.shape = .range) {a b : Position}
    (h : c.Decodes [a, b]) (s : Snapshot) :
    c.readPositions s = s.keys.filter fun p => p.within a b := by
  rw [readPositions, hc, corners?_eq_some_iff_decodes.mpr ⟨hc, h⟩]

theorem readPositions_of_ne {c : Call} (hc : c.shape ≠ .range) {ls : List Position}
    (h : c.Decodes ls) (s : Snapshot) : c.readPositions s = ls := by
  have hps : c.positions? = some ls :=
    positions?_eq_some.mpr ⟨ls, h, Shape.span_of_ne hc ls⟩
  rw [readPositions]
  split
  · contradiction
  · rw [hps]
    rfl

section
variable {axis : Axis} {index : Nat} {s t : Snapshot} (h : s.Opened axis index t) {c d : Call}
  (hshape : d.shape = c.shape) {ls : List Position} (hc : c.Decodes ls)
  (hd : d.Decodes (ls.map (axis.opened index)))
include h hshape hc hd

theorem readPositions_opened :
    (d.readPositions t).filter (fun q => axis.coord q ≠ index)
      = (c.readPositions s).map (axis.opened index) := by
  by_cases hr : c.shape = .range
  · obtain ⟨a, b, rfl⟩ := List.length_eq_two.mp (hc.two hr)
    rw [readPositions_of_range (hshape.trans hr) hd, readPositions_of_range hr hc,
      List.filter_comm, h.filter_keys, List.filter_map]
    refine congrArg (List.map _) (List.filter_congr fun p _ => ?_)
    rw [Bool.eq_iff_iff, Function.comp_apply, Position.within_iff, Position.within_iff]
    exact Position.opened_mem_rect
  · rw [readPositions_of_ne (hshape ▸ hr) hd, readPositions_of_ne hr hc]
    refine List.filter_eq_self.mpr fun q hq => ?_
    obtain ⟨p, _, rfl⟩ := List.mem_map.mp hq
    exact decide_eq_true (axis.coord_opened_ne index p)

theorem values_opened (hline : ∀ q ∈ d.readPositions t, axis.coord q ≠ index) :
    d.values t = c.values s := by
  have e := readPositions_opened h hshape hc hd
  rw [List.filter_eq_self.mpr fun q hq => decide_eq_true (hline q hq)] at e
  rw [values, e, List.map_map, values]
  exact List.map_congr_left fun p _ => h.valueAt p

/-- to the sum of what is found on the new line nothing is added -/
theorem sum?_opened : Option.Rel Number.Same (sum? (d.values t)) (sum? (c.values s)) := by
  have e : c.values s = ((d.readPositions t).filter fun q => axis.coord q ≠ index).map t.valueAt := by
    rw [readPositions_opened h hshape hc hd, List.map_map, values]
    exact (List.map_congr_left fun p _ => h.valueAt p).symm
  rw [e, values]
  refine sum?_filter _ fun q _ hq => h.valueAt_line ?_
  simpa using hq

/-! ## what stands for a call -/

omit h in
theorem coord_ne_of_not_splitBy (hsplit : ¬c.SplitBy axis index) :
    ∀ q ∈ d.readPositions t, axis.coord q ≠ index := by
  intro q hq hcoord
  by_cases hr : c.shape = .range
  · obtain ⟨a, b, rfl⟩ := List.length_eq_two.mp (hc.two hr)
    rw [readPositions_of_range (hshape.trans hr) hd, List.mem_filter] at hq
    have hbetween := ((Position.mem_rect_axis axis).mp (Position.within_iff.mp hq.2)).1
    rw [hcoord, axis.coord_opened, axis.coord_opened] at hbetween
    refine hsplit ⟨a, b, corners?_eq_some_iff_decodes.mpr ⟨hr, hc⟩, ?_⟩
    split_ifs at hbetween <;> omega
  · rw [readPositions_of_ne (hshape ▸ hr) hd] at hq
    obtain ⟨p, _, rfl⟩ := List.mem_map.mp hq
    exact axis.coord_opened_ne index p hcoord

theorem result_opened {f : Function} (hf : c.function? = some f) (hf' : d.function? = some f)
    (hsplit : f ≠ .sum → ¬c.SplitBy axis index) (htext : c.Left s → d.text = c.text) :
    d.result t = c.result s := by
  have hvalues : f ≠ .sum → d.values t = c.values s := fun hne =>
    values_opened h hshape hc hd (coord_ne_of_not_splitBy hshape hc hd (hsplit hne))
  rw [result_of_function? hf, result_of_function? hf']
  by_cases hsum : f = .sum
  · subst hsum
    rw [apply_sum_eq (sum?_opened h hshape hc hd)]
    exact map_getD_apply fun hno => absurd hno (by decide)
  · rw [hvalues hsum]
    exact map_getD_apply fun href hlen => htext ⟨hf.trans (congrArg some href), hlen⟩

end

/-- Two calls of one function that find the same values come to the same, if one that is left in the text
is also written alike. -/
theorem result_of_values {c d : Call} (hhead : d.head = c.head) {s : Snapshot}
    (hvalues : d.values s = c.values s) (htext : c.Left s → d.text = c.text) :
    d.result s = c.result s := by
  have hfunction : d.function? = c.function? := congrArg Function.ofHead? hhead
  cases hf : c.function? with
  | none =>
    rw [result, result, hfunction, hf]
  | some f =>
    rw [result_of_function? hf, result_of_function? (hfunction.trans hf), hvalues]
    exact map_getD_apply fun href hlen => htext ⟨hf.trans (congrArg some href), hlen⟩

/-- calls whose labels are read alike find the same values -/
theorem result_congr {c d : Call} (hhead : d.head = c.head) (hshape : d.shape = c.shape)
    (hdec : ∀ ls, d.Decodes ls ↔ c.Decodes ls) {s : Snapshot} (htext : c.Left s → d.text = c.text) :
    d.result s = c.result s :=
  result_of_values hhead (congrArg (List.map _) (readPositions_congr hshape hdec s)) htext

end Call

end Worksheet
