import Worksheet.Proofs.Sheet.Wiring

/-!
# Values on their way to the readers

A changed cell hands its value to its readers one after the other, and each passes its own on before
the next is reached.  A cell that is reached over several paths is evaluated several times, at first
with values of which some are old.  What decides is the pair of a reader and a cell that it reads:

* `Sheet.UpToDate`     what one cell has last seen of another is what the other shows;
* `Sheet.Spread`       the readers listed have seen what a cell shows, every pair that was up to
                       date still is, and only cells that read the cell have changed;
* `Sheet.spread_notify` in a wired sheet a value spreads to all readers;
* `Sheet.Notifies`     the notification as a derivation, in which no bound on the depth occurs;
* `Sheet.notifies_notify` in a wired sheet the bound on the depth is never reached.
* `Sheet.Delivers.wired_induction`
                       a notification is followed reader by reader.

A pair that leaves its state is put right by the same call that broke it, before the call ends.  So
the order of the readers does not matter.
-/

namespace Worksheet

theorem Cell.outline_receive {c : Cell} {p : Position} (v : Text) (h : p ∈ c.snapshot.keys) :
    (c.receive p v).outline = c.outline := by
  show (⟨c.position, c.raw, c.color, (c.snapshot.insert p v).keys, c.observers⟩ : Outline) = _
  rw [Snapshot.keys_insert_of_mem v h]
  rfl

namespace Sheet

/-! ## up to date -/

/-- what the cell `i` has last seen of the cell `j`, if it reads it, is what `j` shows -/
def UpToDate (s : Sheet) (i j : CellId) : Prop :=
  ∀ c d, s.cell? i = some c → s.cell? j = some d → i ∈ d.observers →
    c.snapshot.get? d.position = some d.shown

/-- the value of the cell `id` has reached those in `rs`, and what follows from it those beyond -/
structure Spread (s : Sheet) (id : CellId) (rs : List CellId) (t : Sheet) : Prop where
  alike : Alike s t
  cell?_eq : ∀ j, ¬s.ReadsOn j id → t.cell? j = s.cell? j
  evaluated : ∀ {j d}, t.cell? j = some d → s.cell? j = some d ∨ d.shown = evaluate d.raw d.snapshot
  upToDate : ∀ {i j}, s.UpToDate i j → t.UpToDate i j
  delivered : ∀ r ∈ rs, t.UpToDate r id

namespace Spread
variable {s t u : Sheet} {id r : CellId} {rs rs' : List CellId}

theorem nil (s : Sheet) (id : CellId) : Spread s id [] s where
  alike := Alike.refl s
  cell?_eq _ _ := rfl
  evaluated := .inl
  upToDate h := h
  delivered _ h := absurd h (List.not_mem_nil)

theorem append (h : Spread s id rs t) (h' : Spread t id rs' u) : Spread s id (rs ++ rs') u where
  alike := h.alike.trans h'.alike
  cell?_eq j hj := by
    rw [h'.cell?_eq j (by rw [ReadsOn, h.alike.reads]; exact hj), h.cell?_eq j hj]
  evaluated hd := (h'.evaluated hd).elim h.evaluated .inr
  upToDate hij := h'.upToDate (h.upToDate hij)
  delivered q hq := (List.mem_append.mp hq).elim (fun hq => h'.upToDate (h.delivered q hq))
    (h'.delivered q)

/-- once all readers have the value, nothing that is read of the cell is old -/
theorem upToDate_self {c : Cell} (h : Spread s id c.observers t) (hc : s.cell? id = some c)
    (i : CellId) : t.UpToDate i id := by
  intro a b ha hb hi
  obtain ⟨c', hc', e⟩ := h.alike.cell hb
  rw [hc] at hc'
  have eo : c.observers = b.observers := Option.some.inj hc' ▸ congrArg Outline.observers e
  exact h.delivered i (eo ▸ hi) a b ha hb hi

end Spread

section
variable {s : Sheet} {id r : CellId} {c : Cell} (hs : s.Wired) (hc : s.cell? id = some c)
  (hr : r ∈ c.observers)
include hs hc hr

theorem alike_receive : Alike s (s.modify r (·.receive c.position c.shown)) := by
  refine alike_modify fun d hd => Cell.outline_receive _ ?_
  exact (hs.mem_keys_iff hd hc).mpr hr

/-- only what is read of the reader itself may become old when it receives a value -/
theorem upToDate_receive {i j : CellId} (h : s.UpToDate i j ∨ i = r ∧ j = id) (hj : j ≠ r) :
    (s.modify r (·.receive c.position c.shown)).UpToDate i j := by
  intro a b ha hb hab
  rw [cell?_modify_of_ne s _ hj] at hb
  by_cases hi : i = r
  · subst hi
    rw [cell?_modify_self] at ha
    obtain ⟨d, hd, rfl⟩ := Option.map_eq_some_iff.mp ha
    show (d.snapshot.insert c.position c.shown).get? b.position = _
    rw [Snapshot.get?_insert]
    by_cases e : b.position = c.position
    · obtain rfl := hs.eq_of_position hb hc e
      rw [hc] at hb
      rw [if_pos e, Option.some.inj hb]
    · have hij : s.UpToDate i j := h.resolve_right fun ⟨_, e'⟩ => e (by
        rw [e', hc] at hb
        rw [Option.some.inj hb])
      rw [if_neg e, hij d b hd hb hab]
  · rw [cell?_modify_of_ne s _ hi] at ha
    exact (h.resolve_right fun h => hi h.1) a b ha hb hab

/-- one reader receives the value and passes its own on -/
theorem spread_of_receive {t : Sheet} {d : Cell} (hd : s.cell? r = some d)
    (h : Spread (s.modify r (·.receive c.position c.shown)) r d.observers t) :
    Spread s id [r] t := by
  have hal := alike_receive hs hc hr
  have hrid : s.Reads r id := ⟨c, hc, hr⟩
  have hd' : (s.modify r (·.receive c.position c.shown)).cell? r
      = some (d.receive c.position c.shown) := by rw [cell?_modify_self, hd]; rfl
  refine ⟨hal.trans h.alike, fun j hj => ?_, fun {j e} he => ?_, fun {i j} hij => ?_, ?_⟩
  · have hjr : j ≠ r := fun e => hj (e ▸ .single hrid)
    rw [h.cell?_eq j (by rw [ReadsOn, hal.reads]; exact fun hjr => hj (hjr.tail hrid)),
      cell?_modify_of_ne s _ hjr]
  · rcases h.evaluated he with he | he
    · by_cases hjr : j = r
      · subst hjr
        rw [hd'] at he
        exact .inr (Option.some.inj he ▸ rfl)
      · rw [cell?_modify_of_ne s _ hjr] at he
        exact .inl he
    · exact .inr he
  · by_cases hj : j = r
    · -- the readers of `r` have been told by `r` itself
      exact hj ▸ h.upToDate_self (c := d.receive c.position c.shown) hd' i
    · exact h.upToDate (upToDate_receive hs hc hr (.inl hij) hj)
  · intro q hq
    rw [List.mem_singleton.mp hq]
    exact h.upToDate (upToDate_receive hs hc hr (.inr ⟨rfl, rfl⟩) (hs.ne_of_reads hrid).symm)

end

/-! ## notifications -/

/-- The readers listed take a value `v` from the position `p`, each with all that follows, and that
comes to an end, and leaves `t`.  A number without a cell is passed over. -/
inductive Delivers : Position → Text → Sheet → List CellId → Sheet → Prop
  | nil {p : Position} {v : Text} {s : Sheet} : Delivers p v s [] s
  | gone {p : Position} {v : Text} {s t : Sheet} {r : CellId} {rs : List CellId} :
      s.cell? r = none → Delivers p v s rs t → Delivers p v s (r :: rs) t
  | tell {p : Position} {v : Text} {s t u : Sheet} {r : CellId} {rs : List CellId} {d : Cell} :
      s.cell? r = some d →
      Delivers d.position (d.receive p v).shown (s.modify r (·.receive p v)) d.observers t →
      Delivers p v t rs u → Delivers p v s (r :: rs) u

/-- a notification that starts at the cell `id` of `s` comes to an end, and leaves `t` -/
inductive Notifies (s : Sheet) (id : CellId) : Sheet → Prop
  | gone : s.cell? id = none → Notifies s id s
  | tell {c : Cell} {t : Sheet} : s.cell? id = some c →
      Delivers c.position c.shown s c.observers t → Notifies s id t

theorem Delivers.spread {p : Position} {v : Text} {s t : Sheet} {rs : List CellId}
    (h : Delivers p v s rs t) (hs : s.Wired) {id : CellId} {c : Cell} (hc : s.cell? id = some c)
    (hp : c.position = p) (hv : c.shown = v) (hrs : ∀ r ∈ rs, r ∈ c.observers) :
    Spread s id rs t := by
  induction h generalizing id c with
  | nil => exact Spread.nil _ id
  | gone hr _ _ =>
    obtain ⟨d, hd⟩ := hs.observer_live hc (hrs _ (List.mem_cons_self ..))
    rw [hr] at hd
    cases hd
  | @tell p v s t u r rs d hd _ _ ih ihr =>
    subst hp hv
    have hr : r ∈ c.observers := hrs r (List.mem_cons_self ..)
    have hal := alike_receive hs hc hr
    have hd' : (s.modify r (·.receive c.position c.shown)).cell? r
        = some (d.receive c.position c.shown) := by rw [cell?_modify_self, hd]; rfl
    have h0 := ih (hal.wired hs) hd' rfl rfl fun _ hq => hq
    have h1 : Spread s id [r] t := spread_of_receive hs hc hr hd h0
    refine h1.append (ihr (h1.alike.wired hs) ?_ rfl rfl
      fun q hq => hrs q (List.mem_cons_of_mem _ hq))
    rw [h1.cell?_eq id (hs.acyclic id), hc]

/-- A value is handed on reader by reader: what holds of no readers, and of one more once it holds of
what that reader brings about and of the readers after it, holds of all. -/
theorem Delivers.wired_induction {motive : Sheet → CellId → Cell → List CellId → Sheet → Prop}
    (nil : ∀ s id c, motive s id c [] s)
    (tell : ∀ {s t u : Sheet} {id r : CellId} {c d : Cell} {rs : List CellId}, s.Wired →
      s.cell? id = some c → r ∈ c.observers → s.cell? r = some d →
      Spread (s.modify r (·.receive c.position c.shown)) r d.observers t →
      motive (s.modify r (·.receive c.position c.shown)) r (d.receive c.position c.shown)
        d.observers t →
      Spread t id rs u → motive t id c rs u → motive s id c (r :: rs) u)
    {s t : Sheet} {rs : List CellId} {id : CellId} {c : Cell}
    (h : Delivers c.position c.shown s rs t) (hs : s.Wired) (hc : s.cell? id = some c)
    (hrs : ∀ r ∈ rs, r ∈ c.observers) : motive s id c rs t := by
  generalize hp : c.position = p at h
  generalize hv : c.shown = v at h
  induction h generalizing id c with
  | nil => exact nil _ _ _
  | gone hr _ _ =>
    obtain ⟨d, hd⟩ := hs.observer_live hc (hrs _ (List.mem_cons_self ..))
    rw [hr] at hd
    cases hd
  | @tell p v s t u r rs d hd h0 h1 ih ihr =>
    subst hp hv
    have hr : r ∈ c.observers := hrs r (List.mem_cons_self ..)
    have hrest : ∀ q ∈ rs, q ∈ c.observers := fun q hq => hrs q (List.mem_cons_of_mem _ hq)
    have hw := (alike_receive hs hc hr).wired hs
    have hd' : (s.modify r (·.receive c.position c.shown)).cell? r
        = some (d.receive c.position c.shown) := by rw [cell?_modify_self, hd]; rfl
    have hsp0 := h0.spread hw hd' rfl rfl fun _ hq => hq
    have hsp := spread_of_receive hs hc hr hd hsp0
    have hwt := hsp.alike.wired hs
    have hct : t.cell? id = some c := by rw [hsp.cell?_eq id (hs.acyclic id), hc]
    exact tell hs hc hr hd hsp0 (ih hw hd' (fun _ hq => hq) rfl rfl)
      (h1.spread hwt hct rfl rfl hrest) (ihr hwt hct hrest rfl rfl)

theorem Notifies.spread {s t : Sheet} {id : CellId} (h : Notifies s id t) (hs : s.Wired) {c : Cell}
    (hc : s.cell? id = some c) : Spread s id c.observers t := by
  cases h with
  | gone h => rw [hc] at h; cases h
  | tell h hd =>
    obtain rfl := Option.some.inj (h.symm.trans hc)
    exact hd.spread hs hc rfl rfl fun _ hr => hr

/-! ## the depth of a notification -/

theorem push_of_vacant {depth : Nat} {s : Sheet} {id : CellId} (h : s.cell? id = none) :
    push depth s id = s := by
  cases depth with
  | zero => rfl
  | succ depth => rw [push, h]

theorem push_succ {s : Sheet} {id : CellId} {c : Cell} (h : s.cell? id = some c) (depth : Nat) :
    push (depth + 1) s id = c.observers.foldl
      (fun s r => push depth (s.modify r (·.receive c.position c.shown)) r) s := by
  rw [push, h]

/-- The depth suffices as soon as it is at least the number of dependents, of which a reader has
fewer. -/
theorem delivers_push {depth : Nat} {s : Sheet} (hs : s.Wired) {id : CellId} {c : Cell}
    (hc : s.cell? id = some c) (hn : (s.dependents id).card ≤ depth) :
    Delivers c.position c.shown s c.observers (push depth s id) := by
  induction depth generalizing s id c with
  | zero =>
    have hnil : c.observers = [] := List.eq_nil_iff_forall_not_mem.mpr fun r hr => by
      have hlt := card_dependents_lt hs ⟨c, hc, hr⟩
      omega
    exact hnil ▸ .nil
  | succ depth ih =>
    have key : ∀ rs : List CellId, (∀ r ∈ rs, r ∈ c.observers) → ∀ s : Sheet, s.Wired →
        s.cell? id = some c → (s.dependents id).card ≤ depth + 1 →
        Delivers c.position c.shown s rs
          (rs.foldl (fun s r => push depth (s.modify r (·.receive c.position c.shown)) r) s) := by
      intro rs
      induction rs with
      | nil => intro _ s _ _ _; exact .nil
      | cons r rs ihr =>
        intro hrs s hs hc hn
        have hr : r ∈ c.observers := hrs r (List.mem_cons_self ..)
        have hal := alike_receive hs hc hr
        obtain ⟨d, hd⟩ := hs.observer_live hc hr
        have hd' : (s.modify r (·.receive c.position c.shown)).cell? r
            = some (d.receive c.position c.shown) := by rw [cell?_modify_self, hd]; rfl
        have hlt := card_dependents_lt hs ⟨c, hc, hr⟩
        have h1 := ih (hal.wired hs) hd' (by rw [hal.dependents]; omega)
        have h2 := spread_of_receive hs hc hr hd
          (h1.spread (hal.wired hs) hd' rfl rfl fun _ hq => hq)
        refine .tell hd h1 (ihr (fun q hq => hrs q (List.mem_cons_of_mem _ hq)) _
          (h2.alike.wired hs) ?_ ?_)
        · rw [h2.cell?_eq id (hs.acyclic id), hc]
        · rw [h2.alike.dependents]
          exact hn
    rw [push_succ hc]
    exact key c.observers (fun _ h => h) s hs hc hn

theorem notifies_notify {s : Sheet} (hs : s.Wired) (id : CellId) : Notifies s id (s.notify id) := by
  cases hc : s.cell? id with
  | none =>
    rw [notify, push_of_vacant hc]
    exact .gone hc
  | some c => exact .tell hc (delivers_push hs hc (card_dependents_le s id))

/-! ## the spread of a value -/

theorem spread_notify {s : Sheet} (hs : s.Wired) {id : CellId} {c : Cell}
    (hc : s.cell? id = some c) : Spread s id c.observers (s.notify id) :=
  (notifies_notify hs id).spread hs hc

theorem alike_notify {s : Sheet} (hs : s.Wired) (id : CellId) : Alike s (s.notify id) := by
  cases hc : s.cell? id with
  | none =>
    rw [notify, push_of_vacant hc]
    exact Alike.refl s
  | some c => exact (spread_notify hs hc).alike

/-- after a cell has told its readers, nothing is old that was not old for another reason -/
theorem upToDate_notify {s : Sheet} (hs : s.Wired) {id : CellId} {c : Cell}
    (hc : s.cell? id = some c) {i j : CellId} (h : s.UpToDate i j ∨ j = id) :
    (s.notify id).UpToDate i j := by
  have hsp := spread_notify hs hc
  rcases h with h | rfl
  · exact hsp.upToDate h
  · exact hsp.upToDate_self hc i

end Sheet

end Worksheet
