import Worksheet.Position.Basic

/-!
# Snapshots

* `Snapshot`           the values that a cell last saw of the cells it reads, in row-major order of
                       their positions, each position once;
* `Snapshot.get?`      the value seen at a position;
* `Snapshot.insert`, `Snapshot.erase`, `Snapshot.extend`
                       a snapshot with entries put in, taken out, or put in from another;
* `Snapshot.keys`      the positions read.

The entries are sorted, so two snapshots with the same values are equal.
-/

namespace Worksheet

/-- the position of each entry is before those of all later ones -/
abbrev Ascending (es : List (Position × Text)) : Prop := es.Pairwise fun a b => a.1 < b.1

structure Snapshot where
  entries : List (Position × Text)
  ascending : Ascending entries
  deriving DecidableEq, Repr

namespace Snapshot

/-! ## entries -/

def insertEntry (p : Position) (v : Text) : List (Position × Text) → List (Position × Text)
  | [] => [(p, v)]
  | e :: es =>
    if p < e.1 then (p, v) :: e :: es
    else if p = e.1 then (p, v) :: es
    else e :: insertEntry p v es

theorem fst_of_mem_insertEntry {p : Position} {v : Text} {es : List (Position × Text)}
    {e : Position × Text} (h : e ∈ insertEntry p v es) : e.1 = p ∨ e ∈ es := by
  induction es with
  | nil =>
    rw [insertEntry, List.mem_singleton] at h
    exact .inl (congrArg Prod.fst h)
  | cons d ds ih =>
    rw [insertEntry] at h
    split at h
    · rcases List.mem_cons.mp h with rfl | h
      · exact .inl rfl
      · exact .inr h
    · split at h
      · rcases List.mem_cons.mp h with rfl | h
        · exact .inl rfl
        · exact .inr (List.mem_cons_of_mem _ h)
      · rcases List.mem_cons.mp h with rfl | h
        · exact .inr (List.mem_cons_self ..)
        · rcases ih h with h | h
          · exact .inl h
          · exact .inr (List.mem_cons_of_mem _ h)

theorem ascending_insertEntry (p : Position) (v : Text) {es : List (Position × Text)}
    (h : Ascending es) : Ascending (insertEntry p v es) := by
  induction es with
  | nil => exact List.pairwise_singleton ..
  | cons d ds ih =>
    have hd := List.pairwise_cons.mp h
    rw [insertEntry]
    split
    · next hp =>
      refine List.pairwise_cons.mpr ⟨fun e he => ?_, h⟩
      rcases List.mem_cons.mp he with rfl | he
      · exact hp
      · exact Position.lt_trans hp (hd.1 e he)
    · next hp =>
      split
      · next heq =>
        exact List.pairwise_cons.mpr ⟨fun e he => heq ▸ hd.1 e he, hd.2⟩
      · next hne =>
        refine List.pairwise_cons.mpr ⟨fun e he => ?_, ih hd.2⟩
        rcases fst_of_mem_insertEntry he with he | he
        · rcases Position.lt_or_eq_or_gt p d.1 with hlt | heq | hgt
          · exact absurd hlt hp
          · exact absurd heq hne
          · exact he ▸ hgt
        · exact hd.1 e he

/-! ## operations -/

def empty : Snapshot := ⟨[], List.Pairwise.nil⟩

instance : EmptyCollection Snapshot := ⟨empty⟩
instance : Inhabited Snapshot := ⟨empty⟩

def isEmpty (s : Snapshot) : Bool := s.entries.isEmpty

def keys (s : Snapshot) : List Position := s.entries.map Prod.fst

def get? (s : Snapshot) (p : Position) : Option Text :=
  (s.entries.find? fun e => e.1 = p).map Prod.snd

def insert (s : Snapshot) (p : Position) (v : Text) : Snapshot :=
  ⟨insertEntry p v s.entries, ascending_insertEntry p v s.ascending⟩

def erase (s : Snapshot) (p : Position) : Snapshot :=
  ⟨s.entries.filter fun e => e.1 ≠ p, s.ascending.filter _⟩

/-- the entries of `t` replace those of `s` at the same positions -/
def extend (s t : Snapshot) : Snapshot := t.entries.foldl (fun s e => s.insert e.1 e.2) s

/-- of several values for one position the last is kept -/
def ofList (es : List (Position × Text)) : Snapshot :=
  es.foldl (fun s e => s.insert e.1 e.2) empty

/-- the entry at `old`, if there is one, now stands at `new` -/
def move (s : Snapshot) (old new : Position) : Snapshot :=
  match s.get? old with
  | some v => (s.erase old).insert new v
  | none => s

theorem ext_entries {s t : Snapshot} (h : s.entries = t.entries) : s = t := by
  cases s; cases t; cases h; rfl

end Snapshot

end Worksheet
