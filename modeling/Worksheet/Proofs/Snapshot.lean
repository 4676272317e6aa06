import Mathlib.Data.List.Sort
import Worksheet.Snapshot

/-!
# What a snapshot says after it has changed

* `Snapshot.get?_insert`, `Snapshot.get?_erase`, `Snapshot.get?_move`
                       the value at a position after one change;
* `Snapshot.get?_move_moved`
                       the value of a key after it has moved;
* `Snapshot.get?_extend`, `Snapshot.get?_ofList`
                       the value at a position after many insertions;
* `Snapshot.mem_keys`  the positions read are those with a value;
* `Snapshot.ext_get?`  snapshots with the same values are the same;
* `Snapshot.keys_insert_of_mem`
                       a new value for a position that is read already changes no key.
-/

namespace Worksheet

namespace Position

/-- where one position goes if the cell at `old` moves to `new` -/
def moved (old new p : Position) : Position := if p = old then new else p

theorem moved_self (old new : Position) : moved old new old = new := if_pos rfl
theorem moved_of_ne {old new p : Position} (h : p ≠ old) : moved old new p = p := if_neg h

end Position

namespace Snapshot

theorem keys_empty : (∅ : Snapshot).keys = [] := rfl
theorem get?_eq_some {s : Snapshot} {p : Position} {v : Text} :
    s.get? p = some v ↔ (p, v) ∈ s.entries := by
  obtain ⟨es, hes⟩ := s
  show ((es.find? fun e => e.1 = p).map Prod.snd) = some v ↔ (p, v) ∈ es
  induction es with
  | nil => simp
  | cons e es ih =>
    have hlt := List.pairwise_cons.mp hes
    rw [List.find?_cons]
    by_cases h : e.1 = p
    · have hne : ∀ w, (p, w) ∉ es := fun w hw => by
        have := hlt.1 _ hw
        rw [h] at this
        exact Position.lt_irrefl p this
      subst h
      obtain ⟨q, w⟩ := e
      simp only [decide_true, Option.map_some, Option.some.injEq, List.mem_cons, Prod.mk.injEq,
        true_and, hne, or_false, eq_comm]
    · have hne : (p, v) ≠ e := fun he => h (he ▸ rfl)
      simp only [h, decide_false, List.mem_cons, hne, false_or]
      exact ih hlt.2

theorem mem_keys {s : Snapshot} {p : Position} : p ∈ s.keys ↔ ∃ v, s.get? p = some v := by
  simp only [get?_eq_some, keys, List.mem_map, Prod.exists, exists_and_right, exists_eq_right]

theorem get?_eq_none {s : Snapshot} {p : Position} : s.get? p = none ↔ p ∉ s.keys := by
  rw [mem_keys, Option.eq_none_iff_forall_ne_some, not_exists]

theorem isEmpty_iff_keys {s : Snapshot} : s.isEmpty = true ↔ s.keys = [] := by
  rw [isEmpty, keys, List.isEmpty_iff, List.map_eq_nil_iff]

theorem eq_empty_of_keys {s : Snapshot} (h : s.keys = []) : s = ∅ :=
  ext_entries (List.map_eq_nil_iff.mp h)

theorem ext_get? {s t : Snapshot} (h : ∀ p, s.get? p = t.get? p) : s = t := by
  have : Std.Irrefl fun a b : Position × Text => a.1 < b.1 := ⟨fun a => Position.lt_irrefl a.1⟩
  have : Std.Antisymm fun a b : Position × Text => a.1 < b.1 :=
    ⟨fun a _ hab hba => absurd (Position.lt_trans hab hba) (Position.lt_irrefl a.1)⟩
  refine ext_entries (s.ascending.eq_of_mem_iff t.ascending fun ⟨p, v⟩ => ?_)
  rw [← get?_eq_some, ← get?_eq_some, h]

/-! ## one change -/

theorem find?_insertEntry (p q : Position) (v : Text) (es : List (Position × Text)) :
    ((insertEntry p v es).find? fun e => e.1 = q).map Prod.snd
      = if q = p then some v else (es.find? fun e => e.1 = q).map Prod.snd := by
  induction es with
  | nil =>
    rw [insertEntry, List.find?_cons]
    by_cases h : q = p
    · subst h; simp
    · simp [h, Ne.symm h]
  | cons e es ih =>
    rw [insertEntry]
    by_cases h : q = p
    · subst h
      rw [if_pos rfl] at ih ⊢
      split_ifs with hlt heq
      · simp
      · simp
      · rw [List.find?_cons, decide_eq_false (Ne.symm heq)]
        exact ih
    · rw [if_neg h] at ih ⊢
      split_ifs with hlt heq
      · rw [List.find?_cons, decide_eq_false (Ne.symm h)]
      · rw [List.find?_cons, List.find?_cons, decide_eq_false (Ne.symm h),
          decide_eq_false (heq ▸ Ne.symm h)]
      · rw [List.find?_cons, List.find?_cons]
        by_cases he : e.1 = q
        · rw [decide_eq_true he]
        · rw [decide_eq_false he]
          exact ih

theorem get?_insert (s : Snapshot) (p q : Position) (v : Text) :
    (s.insert p v).get? q = if q = p then some v else s.get? q :=
  find?_insertEntry p q v s.entries

/-- a value that is seen already -/
theorem insert_of_get? {s : Snapshot} {p : Position} {v : Text} (h : s.get? p = some v) :
    s.insert p v = s := by
  refine ext_get? fun q => ?_
  rw [get?_insert]
  split_ifs with hq
  · rw [hq, h]
  · rfl

theorem map_fst_insertEntry {p : Position} (v : Text) {es : List (Position × Text)}
    (hes : Ascending es) (h : p ∈ es.map Prod.fst) :
    (insertEntry p v es).map Prod.fst = es.map Prod.fst := by
  induction es with
  | nil => cases h
  | cons e es ih =>
    have hlt := List.pairwise_cons.mp hes
    rw [insertEntry]
    split_ifs with h1 h2
    · rcases List.mem_cons.mp h with rfl | h
      · exact absurd h1 (Position.lt_irrefl _)
      · obtain ⟨d, hd, rfl⟩ := List.mem_map.mp h
        exact absurd (Position.lt_trans h1 (hlt.1 d hd)) (Position.lt_irrefl _)
    · rw [List.map_cons, List.map_cons, h2]
    · rw [List.map_cons, List.map_cons, ih hlt.2 ((List.mem_cons.mp h).resolve_left h2)]

theorem keys_insert_of_mem {s : Snapshot} {p : Position} (v : Text) (h : p ∈ s.keys) :
    (s.insert p v).keys = s.keys :=
  map_fst_insertEntry v s.ascending h

theorem get?_erase (s : Snapshot) (p q : Position) :
    (s.erase p).get? q = if q = p then none else s.get? q := by
  by_cases h : q = p
  · subst h
    rw [if_pos rfl, get?_eq_none, keys, List.mem_map]
    rintro ⟨e, he, rfl⟩
    exact of_decide_eq_true (List.mem_filter.mp he).2 rfl
  · rw [if_neg h]
    apply Option.ext
    intro v
    rw [get?_eq_some, get?_eq_some, erase, List.mem_filter]
    simp [h]

theorem get?_move (s : Snapshot) (old new p : Position) :
    (s.move old new).get? p
      = if old ∈ s.keys then
          if p = new then s.get? old else if p = old then none else s.get? p
        else s.get? p := by
  rw [move]
  cases h : s.get? old with
  | none => rw [if_neg (get?_eq_none.mp h)]
  | some v =>
    rw [if_pos (mem_keys.mpr ⟨v, h⟩)]
    show ((s.erase old).insert new v).get? p = _
    rw [get?_insert, get?_erase]

/-- the keys move with the cell -/
theorem mem_keys_move {s : Snapshot} {old new p : Position} :
    p ∈ (s.move old new).keys ↔ ∃ q ∈ s.keys, Position.moved old new q = p := by
  rw [mem_keys, get?_move]
  by_cases h : old ∈ s.keys
  · rw [if_pos h]
    by_cases hp : p = new
    · subst hp
      rw [if_pos rfl, ← mem_keys]
      exact ⟨fun _ => ⟨old, h, Position.moved_self ..⟩, fun _ => h⟩
    · rw [if_neg hp]
      by_cases ho : p = old
      · subst ho
        rw [if_pos rfl]
        refine ⟨fun ⟨_, hv⟩ => (by cases hv), fun ⟨q, _, hq⟩ => ?_⟩
        by_cases e : q = p
        · rw [e, Position.moved_self] at hq
          exact absurd hq.symm hp
        · rw [Position.moved_of_ne e] at hq
          exact absurd hq e
      · rw [if_neg ho, ← mem_keys]
        refine ⟨fun hk => ⟨p, hk, Position.moved_of_ne ho⟩, fun ⟨q, hk, hq⟩ => ?_⟩
        by_cases e : q = old
        · rw [e, Position.moved_self] at hq
          exact absurd hq.symm hp
        · rw [Position.moved_of_ne e] at hq
          exact hq ▸ hk
  · rw [if_neg h, ← mem_keys]
    have hne : ∀ q ∈ s.keys, Position.moved old new q = q := fun q hq =>
      Position.moved_of_ne fun e => h (e ▸ hq)
    exact ⟨fun hk => ⟨p, hk, hne p hk⟩, fun ⟨q, hk, hq⟩ => hq ▸ (hne q hk).symm ▸ hk⟩

/-- what was seen at a key is found where the key has gone, if it has met no other there -/
theorem get?_move_moved {s : Snapshot} {old new k : Position} (hk : k ∈ s.keys)
    (hne : old ∈ s.keys → k ≠ old → k ≠ new) :
    (s.move old new).get? (Position.moved old new k) = s.get? k := by
  rw [get?_move]
  by_cases e : k = old
  · rw [if_pos (e ▸ hk), e, Position.moved_self, if_pos rfl]
  · rw [Position.moved_of_ne e]
    split_ifs with hold hnew
    · exact absurd hnew (hne hold e)
    · rfl
    · rfl

/-! ## many insertions -/

/-- insertions whose values agree with `f` -/
theorem get?_foldl_insert (f : Position → Option Text) (es : List (Position × Text))
    (h : ∀ e ∈ es, f e.1 = some e.2) (s : Snapshot) (p : Position) :
    (es.foldl (fun s e => s.insert e.1 e.2) s).get? p
      = if p ∈ es.map Prod.fst then f p else s.get? p := by
  induction es generalizing s with
  | nil => simp
  | cons e es ih =>
    rw [List.foldl_cons, ih (fun d hd => h d (List.mem_cons_of_mem _ hd)), get?_insert,
      List.map_cons]
    by_cases hp : p = e.1
    · subst hp
      rw [if_pos rfl, if_pos (List.mem_cons_self ..), h e (List.mem_cons_self ..)]
      split_ifs <;> rfl
    · simp only [hp, if_false, List.mem_cons, false_or]

theorem get?_extend (s t : Snapshot) (p : Position) :
    (s.extend t).get? p = if p ∈ t.keys then t.get? p else s.get? p :=
  get?_foldl_insert t.get? t.entries (fun _ he => get?_eq_some.mpr he) s p

theorem mem_keys_extend {s t : Snapshot} {p : Position} :
    p ∈ (s.extend t).keys ↔ p ∈ t.keys ∨ p ∈ s.keys := by
  rw [mem_keys, get?_extend]
  by_cases h : p ∈ t.keys
  · simp [h, mem_keys.mp h]
  · simp [h, mem_keys]

theorem get?_ofList (f : Position → Option Text) (es : List (Position × Text))
    (h : ∀ e ∈ es, f e.1 = some e.2) (p : Position) :
    (ofList es).get? p = if p ∈ es.map Prod.fst then f p else none :=
  get?_foldl_insert f es h ∅ p

end Snapshot

end Worksheet
