import Worksheet.Command.Execution
import Worksheet.Proofs.Sheet.Run

/-!
# Lines that fail

* `Scope`              what a command is about: a cell, a gap between lines, a line, or the sheet;
* `Scope.error?`       the error if a sheet has no such thing;
* `Edit.Settles`       an edit fails with an error and leaves the sheet as it was, or it succeeds;
* `Command.settles_execute` a command fails exactly if the sheet has not what the command is about;
* `Command.reachable_execute` a command does what an operation does, or nothing;
* `succeeding`         the lines of a session that do not fail;
* `reachable_session`  a session leaves a sheet that operations lead to;
* `fails_without_trace` a line that fails changes nothing, and a session may do without it.

An edit may fail after it has changed the sheet.  None does, because each looks first whether the
sheet has what it is about.
-/

namespace Worksheet

/-! ## what commands are about -/

inductive Scope where
  | cell (p : Position)
  | gap (axis : Axis) (index : Nat)
  | line (axis : Axis) (index : Nat)
  | sheet

def Scope.error? (s : Sheet) : Scope → Option CommandError
  | cell p => if s.contains p then none else some (.outOfBounds p)
  | gap axis index =>
    if index ≤ axis.count s then none else some (.line (axis.outOfRange s index))
  | line axis index =>
    if index < axis.count s then none else some (.line (axis.outOfRange s index))
  | sheet => none

def Command.scope : Command → Scope
  | .set p _ | .clear p | .get p | .raw p | .color p _ | .filter p _ => .cell p
  | .insertRow index => .gap .row index
  | .deleteRow index => .line .row index
  | .insertColumn index => .gap .column index
  | .deleteColumn index => .line .column index
  | .matrix | .functions | .size => .sheet

/-! ## edits -/

namespace Edit

variable {ε α β : Type} {s : Sheet}

/-- the edit fails with the error given and leaves the sheet as it was, or it succeeds -/
def Settles (x : Edit ε α) (s : Sheet) : Option ε → Prop
  | some e => x.on s = (.error e, s)
  | none => ∃ a t, x.on s = (.ok a, t)

theorem Settles.error_iff {x : Edit ε α} {r : Option ε} (h : x.Settles s r) {e : ε} :
    (x.on s).1 = .error e ↔ r = some e := by
  cases r with
  | none =>
    obtain ⟨a, t, h⟩ := h
    rw [h]
    exact iff_of_false (fun h => by cases h) fun h => by cases h
  | some e' =>
    rw [show x.on s = (.error e', s) from h]
    exact ⟨fun h => congrArg some (Except.error.inj h), fun h => congrArg _ (Option.some.inj h)⟩

theorem Settles.sheet_eq {x : Edit ε α} {r : Option ε} (h : x.Settles s r) {e : ε}
    (he : (x.on s).1 = .error e) : (x.on s).2 = s := by
  obtain rfl := h.error_iff.mp he
  exact congrArg Prod.snd h

theorem on_get (s : Sheet) : (get : Edit ε Sheet).on s = (.ok s, s) := rfl

theorem on_bind (x : Edit ε α) (f : α → Edit ε β) (s : Sheet) :
    (x >>= f).on s = match x.on s with
      | (.ok a, t) => (f a).on t
      | (.error e, t) => (.error e, t) := by
  unfold on
  simp only [ExceptT.run_bind, StateT.run_bind]
  cases (ExceptT.run x).run s with
  | mk r t => cases r <;> rfl

theorem on_adapt {ε' : Type} (f : ε → ε') (x : Edit ε α) (s : Sheet) :
    Edit.on (x.adapt f) s = ((x.on s).1.mapError f, (x.on s).2) := by
  rfl

/-! ### lines put in and taken out -/

/-- collecting readers never fails -/
theorem on_foldlM_discard (ids orphans : List CellId) (s : Sheet) :
    (ids.foldlM discard orphans : Edit ε (List CellId)).on s =
      let r := ids.foldl (fun (s, orphans) id => s.discard orphans id) (s, orphans)
      (.ok r.2, r.1) := by
  induction ids generalizing orphans s with
  | nil => rfl
  | cons id ids ih => exact ih _ _

/-- one step after the other comes to the same as all at once -/
theorem on_insertLine (axis : Axis) (index : Nat) (s : Sheet) :
    (insertLine axis index).on s = match s.insertLine axis index with
      | .ok t => (.ok (), t)
      | .error e => (.error e, s) := by
  show (if axis.count s < index then _ else _ : Edit LineError Unit).on s = _
  rw [Sheet.insertLine]
  split <;> rfl

theorem on_deleteLine (axis : Axis) (index : Nat) (s : Sheet) :
    (deleteLine axis index).on s = match s.deleteLine axis index with
      | .ok t => (.ok (), t)
      | .error e => (.error e, s) := by
  show (if axis.count s ≤ index then _ else _ : Edit LineError Unit).on s = _
  rw [Sheet.deleteLine]
  split
  · rfl
  · show (List.foldlM discard _ _ >>= _ : Edit LineError Unit).on _ = _
    rw [on_bind, on_foldlM_discard]
    rfl

theorem sheet_insertLine (axis : Axis) (index : Nat) (s : Sheet) :
    ((insertLine axis index).on s).2 = s.apply (.insert axis index) := by
  rw [on_insertLine, Sheet.apply]
  cases s.insertLine axis index <;> rfl

theorem sheet_deleteLine (axis : Axis) (index : Nat) (s : Sheet) :
    ((deleteLine axis index).on s).2 = s.apply (.delete axis index) := by
  rw [on_deleteLine, Sheet.apply]
  cases s.deleteLine axis index <;> rfl

theorem settles_insertLine (axis : Axis) (index : Nat) : (insertLine axis index).Settles s
    (if index ≤ axis.count s then none else some (axis.outOfRange s index)) := by
  have hon := on_insertLine axis index s
  rw [Sheet.insertLine] at hon
  split_ifs with h
  · rw [if_neg (Nat.not_lt.mpr h)] at hon
    exact ⟨_, _, hon⟩
  · rw [if_pos (Nat.lt_of_not_le h)] at hon
    exact hon

theorem settles_deleteLine (axis : Axis) (index : Nat) : (deleteLine axis index).Settles s
    (if index < axis.count s then none else some (axis.outOfRange s index)) := by
  have hon := on_deleteLine axis index s
  rw [Sheet.deleteLine] at hon
  split_ifs with h
  · rw [if_neg (Nat.not_le.mpr h)] at hon
    exact ⟨_, _, hon⟩
  · rw [if_pos (Nat.le_of_not_lt h)] at hon
    exact hon

end Edit

/-! ## one command -/

section
variable {s : Sheet} (p : Position)

theorem on_inside :
    (inside p).on s = if s.contains p then (.ok (), s) else (.error (.outOfBounds p), s) := by
  show (if !s.contains p then _ else _ : Edit CommandError Unit).on s = _
  cases s.contains p <;> rfl

/-- what succeeds on any sheet fails behind the check exactly if the check fails -/
theorem settles_inside {α : Type} {x : Edit CommandError α} (h : x.Settles s none) :
    (inside p >>= fun _ => x).Settles s (Scope.error? s (.cell p)) := by
  have hon := Edit.on_bind (inside p) (fun _ => x) s
  rw [on_inside] at hon
  rw [Scope.error?]
  split_ifs at hon ⊢
  · obtain ⟨a, t, h⟩ := h
    exact ⟨a, t, hon.trans h⟩
  · exact hon

theorem settles_edited (f : Sheet → Sheet) : (edited p f).Settles s (Scope.error? s (.cell p)) :=
  settles_inside p ⟨_, _, rfl⟩

theorem settles_listed (read : Sheet → List Text) :
    (listed p read).Settles s (Scope.error? s (.cell p)) :=
  settles_inside p ⟨_, _, rfl⟩

theorem on_printed (read : Sheet → Option Text) (s : Sheet) : (printed p read).on s
    = ((read s).elim (.error (.outOfBounds p)) fun t => .ok [t], s) := by
  rw [printed, Edit.on_bind, Edit.on_get]
  cases h : read s <;> simp only [h] <;> rfl

theorem settles_printed (read : Sheet → Option Text) : (printed p read).Settles s
    (if (read s).isSome then none else some (.outOfBounds p)) := by
  have hon := on_printed p read s
  cases h : read s with
  | none =>
    rw [h] at hon
    exact hon
  | some t =>
    rw [h] at hon
    exact ⟨_, _, hon⟩

theorem on_resized (x : Edit LineError Unit) (s : Sheet) :
    (resized x).on s = match x.on s with
      | (.ok _, t) => (.ok [], t)
      | (.error e, t) => (.error (.line e), t) := by
  rw [resized, Edit.on_bind, Edit.on_adapt]
  cases x.on s with
  | mk r t => cases r <;> rfl

theorem settles_resized {x : Edit LineError Unit} {r : Option LineError} (h : x.Settles s r) :
    (resized x).Settles s (r.map .line) := by
  have hon := on_resized x s
  cases r with
  | none =>
    obtain ⟨a, t, h⟩ := h
    rw [h] at hon
    exact ⟨_, _, hon⟩
  | some e =>
    rw [show x.on s = (.error e, s) from h] at hon
    exact hon

theorem settles_answered (read : Sheet → List Text) : (answered read).Settles s none :=
  ⟨_, _, rfl⟩

end

theorem Sheet.Placed.isSome_map_cellAt? {s : Sheet} (h : s.Placed) (p : Position) (f : Cell → Text) :
    ((s.cellAt? p).map f).isSome = s.contains p := by
  rw [Option.isSome_map, ← Sheet.idAt?_isSome h.rows_length, Sheet.cellAt?]
  cases hid : s.idAt? p with
  | none => rfl
  | some id =>
    obtain ⟨c, hc, _⟩ := h.idAt?_iff.mp hid
    exact congrArg Option.isSome hc

/-- on a sheet of whatever form a command that fails leaves no trace, and the error is known if every
position has its cell -/
theorem Command.exists_settles_execute (c : Command) (s : Sheet) :
    ∃ r, c.execute.Settles s r ∧ (s.Placed → r = c.scope.error? s) := by
  have hprinted {p : Position} {f : Cell → Text} (h : s.Placed) :
      (if ((s.cellAt? p).map f).isSome then none else some (.outOfBounds p))
        = Scope.error? s (.cell p) := by
    rw [h.isSome_map_cellAt?]
    rfl
  match c with
  | .set p _ => exact ⟨_, settles_edited p _, fun _ => rfl⟩
  | .clear p => exact ⟨_, settles_edited p _, fun _ => rfl⟩
  | .get p => exact ⟨_, settles_printed p _, hprinted⟩
  | .raw p => exact ⟨_, settles_printed p _, hprinted⟩
  | .color p none => exact ⟨_, settles_printed p _, hprinted⟩
  | .color p (some _) => exact ⟨_, settles_edited p _, fun _ => rfl⟩
  | .insertRow _ => exact ⟨_, settles_resized (Edit.settles_insertLine ..), fun _ => apply_ite ..⟩
  | .deleteRow _ => exact ⟨_, settles_resized (Edit.settles_deleteLine ..), fun _ => apply_ite ..⟩
  | .insertColumn _ => exact ⟨_, settles_resized (Edit.settles_insertLine ..), fun _ => apply_ite ..⟩
  | .deleteColumn _ => exact ⟨_, settles_resized (Edit.settles_deleteLine ..), fun _ => apply_ite ..⟩
  | .filter p none => exact ⟨_, settles_listed p _, fun _ => rfl⟩
  | .filter p (some _) => exact ⟨_, settles_listed p _, fun _ => rfl⟩
  | .matrix => exact ⟨_, settles_answered _, fun _ => rfl⟩
  | .functions => exact ⟨_, settles_answered _, fun _ => rfl⟩
  | .size => exact ⟨_, settles_answered _, fun _ => rfl⟩

theorem Command.settles_execute (c : Command) {s : Sheet} (h : s.Placed) :
    c.execute.Settles s (c.scope.error? s) := by
  obtain ⟨r, hr, hplaced⟩ := c.exists_settles_execute s
  exact hplaced h ▸ hr

/-! ### sheets that commands lead to -/

section
variable {s : Sheet} (hs : s.Reachable) (p : Position)
include hs

theorem reachable_edited {f : Sheet → Sheet} {o : Operation} (hf : f s = s.apply o) :
    ((edited p f).on s).2.Reachable := by
  rw [edited, Edit.on_bind, on_inside]
  split_ifs
  · exact (hf ▸ .step o hs trivial : (f s).Reachable)
  · exact hs

theorem reachable_listed (read : Sheet → List Text) : ((listed p read).on s).2.Reachable := by
  rw [listed, Edit.on_bind, on_inside]
  split_ifs <;> exact hs

theorem reachable_printed (read : Sheet → Option Text) : ((printed p read).on s).2.Reachable := by
  rw [on_printed]
  exact hs

theorem reachable_resized {x : Edit LineError Unit} {o : Operation} (hx : (x.on s).2 = s.apply o) :
    ((resized x).on s).2.Reachable := by
  have hsheet : ((resized x).on s).2 = (x.on s).2 := by
    rw [on_resized]
    cases x.on s with
    | mk r t => cases r <;> rfl
  rw [hsheet, hx]
  exact .step o hs trivial

/-- a command does what an operation does, or nothing -/
theorem Command.reachable_execute (c : Command) : (c.execute.on s).2.Reachable := by
  match c with
  | .set p content => exact reachable_edited hs p (o := .set p content) rfl
  | .clear p => exact reachable_edited hs p (o := .clear p) rfl
  | .get p => exact reachable_printed hs p _
  | .raw p => exact reachable_printed hs p _
  | .color p none => exact reachable_printed hs p _
  | .color p (some new) => exact reachable_edited hs p (o := .recolor p new) rfl
  | .insertRow index => exact reachable_resized hs (Edit.sheet_insertLine .row index s)
  | .deleteRow index => exact reachable_resized hs (Edit.sheet_deleteLine .row index s)
  | .insertColumn index => exact reachable_resized hs (Edit.sheet_insertLine .column index s)
  | .deleteColumn index => exact reachable_resized hs (Edit.sheet_deleteLine .column index s)
  | .filter p none => exact reachable_listed hs p _
  | .filter p (some _) => exact reachable_listed hs p _
  | .matrix => exact hs
  | .functions => exact hs
  | .size => exact hs

end

/-! ## one line -/

theorem on_runLine (line : Text) (s : Sheet) :
    (runLine line).on s = match Command.parse line with
      | .ok c => c.execute.on s
      | .error e => (.error e, s) := by
  rw [runLine, Edit.on_bind]
  cases Command.parse line <;> rfl

theorem sheet_eq_of_runLine {line : Text} {s : Sheet} {e : CommandError}
    (h : ((runLine line).on s).1 = .error e) : ((runLine line).on s).2 = s := by
  rw [on_runLine] at h ⊢
  cases hc : Command.parse line with
  | error e' => rfl
  | ok c =>
    rw [hc] at h
    obtain ⟨r, hr, _⟩ := c.exists_settles_execute s
    exact hr.sheet_eq h

theorem runLine_eq_error {line : Text} {s : Sheet} (hs : s.Placed) {e : CommandError} :
    ((runLine line).on s).1 = .error e ↔
      Command.parse line = .error e ∨ ∃ c, Command.parse line = .ok c ∧ c.scope.error? s = some e := by
  rw [on_runLine]
  cases hc : Command.parse line with
  | error e' =>
    refine ⟨fun h => .inl (congrArg _ (Except.error.inj h)), ?_⟩
    rintro (h | ⟨c, h, _⟩)
    · exact congrArg _ (Except.error.inj h)
    · cases h
  | ok c =>
    show (c.execute.on s).1 = _ ↔ _
    rw [(c.settles_execute hs).error_iff]
    refine ⟨fun h => .inr ⟨c, rfl, h⟩, ?_⟩
    rintro (h | ⟨c', h, he⟩)
    · cases h
    · cases h
      exact he

theorem reachable_runLine {s : Sheet} (hs : s.Reachable) (line : Text) :
    ((runLine line).on s).2.Reachable := by
  rw [on_runLine]
  cases Command.parse line with
  | error e => exact hs
  | ok c => exact c.reachable_execute hs

/-! ## many lines -/

/-- the lines of a session that do not fail -/
def succeeding (s : Sheet) (lines : List Text) : List Text :=
  ((lines.zip (session s lines).1).filter fun (_, out) => out.isOk).map Prod.fst

section
variable {s t : Sheet} {line : Text}

theorem session_cons {out : Except CommandError (List Text)} (h : (runLine line).on s = (out, t))
    (lines : List Text) :
    session s (line :: lines) = (out :: (session t lines).1, (session t lines).2) := by
  rw [session, h]

theorem succeeding_cons_of_ok {out : List Text} (h : (runLine line).on s = (.ok out, t))
    (lines : List Text) : succeeding s (line :: lines) = line :: succeeding t lines := by
  rw [succeeding, session_cons h]
  rfl

theorem succeeding_cons_of_error {e : CommandError} (h : (runLine line).on s = (.error e, t))
    (lines : List Text) : succeeding s (line :: lines) = succeeding t lines := by
  rw [succeeding, session_cons h]
  rfl

end

theorem session_succeeding (s : Sheet) (lines : List Text) :
    session s (succeeding s lines) =
      ((session s lines).1.filter Except.isOk, (session s lines).2) := by
  induction lines generalizing s with
  | nil => rfl
  | cons line lines ih =>
    obtain ⟨t, h | ⟨e, h⟩⟩ : ∃ t, (∃ out, (runLine line).on s = (.ok out, t)) ∨
        ∃ e, (runLine line).on s = (.error e, t) := by
      cases h : (runLine line).on s with
      | mk r t => cases r <;> simp
    · obtain ⟨out, h⟩ := h
      rw [succeeding_cons_of_ok h, session_cons h, session_cons h, ih]
      rfl
    · obtain rfl : t = s :=
        (congrArg Prod.snd h).symm.trans (sheet_eq_of_runLine (congrArg Prod.fst h))
      rw [succeeding_cons_of_error h, session_cons h, ih]
      rfl

/-- what holds of every sheet that operations lead to holds of what a session leaves -/
theorem reachable_session {s : Sheet} (hs : s.Reachable) (lines : List Text) :
    (session s lines).2.Reachable := by
  induction lines generalizing s with
  | nil => exact hs
  | cons line lines ih => exact ih (reachable_runLine hs line)

/-- a line that fails changes nothing, a line fails if it is not a command or if the sheet has not
what the command is about, and a session comes to the same without the lines that fail -/
theorem fails_without_trace (s : Sheet) :
    (∀ line e, ((runLine line).on s).1 = .error e → ((runLine line).on s).2 = s) ∧
      (s.Reachable → ∀ line e, ((runLine line).on s).1 = .error e ↔ Command.parse line = .error e ∨
        ∃ c, Command.parse line = .ok c ∧ c.scope.error? s = some e) ∧
      ∀ lines, session s (succeeding s lines) =
        ((session s lines).1.filter Except.isOk, (session s lines).2) :=
  ⟨fun _ _ => sheet_eq_of_runLine, fun hs _ _ => runLine_eq_error hs.wired.toPlaced,
    session_succeeding s⟩

/-- there is no third row to delete, no third column to write to, and no command to paint -/
theorem fails_without_trace_row3 : ∃ s : Sheet, s.Reachable ∧
    ((runLine "delete-row 3".toList).on s).1 = .error (.line (.rowOutOfRange 2 2)) ∧
    ((runLine "delete-row 3".toList).on s).2 = s ∧
    (session s (["delete-row 3", "set B1 =REF(A1)+1", "set C1 0", "insert-row 1",
        "paint A1"].map String.toList)).2
      = (session s (["set B1 =REF(A1)+1", "insert-row 1"].map String.toList)).2 ∧
    (session s (["set B1 =REF(A1)+1", "insert-row 1"].map String.toList)).2.shownAt? ⟨1, 1⟩
      = some "6".toList := by
  generalize hs : (Sheet.blank 2 2 []).apply (.set ⟨0, 0⟩ "5".toList) = s
  have hreach : s.Reachable := hs ▸ .step _ (.blank 2 2 []) trivial
  obtain ⟨hkeeps, hfails, hsession⟩ := fails_without_trace s
  have hline : Command.parse "delete-row 3".toList = .ok (.deleteRow 2) := by decide +kernel
  have herror : ((runLine "delete-row 3".toList).on s).1 = .error (.line (.rowOutOfRange 2 2)) :=
    (hfails hreach _ _).mpr (.inr ⟨.deleteRow 2, hline, by rw [← hs]; decide +kernel⟩)
  have hkept : succeeding s (["delete-row 3", "set B1 =REF(A1)+1", "set C1 0", "insert-row 1",
      "paint A1"].map String.toList) = ["set B1 =REF(A1)+1", "insert-row 1"].map String.toList := by
    rw [← hs]
    decide +kernel
  have hsame : ∀ lines, (session s lines).2 = (session s (succeeding s lines)).2 :=
    fun lines => by rw [hsession]
  exact ⟨s, hreach, herror, hkeeps _ _ herror, hkept ▸ hsame _, by rw [← hs]; decide +kernel⟩

end Worksheet
