import Worksheet.Formula.Call
import Worksheet.Proofs.Formula.Relabel

/-!
# The calls of a text

* `Call.Begins`        a text that begins with a call;
* `Call.scan_of_begins`, `Call.scan_cons`
                       the stretches of a text that begins with a call, and of one that does not;
* `Call.scan_induction` a text is walked through call by call;
* `Call.all_append`    characters like those of a label belong to no strict call;
* `Call.relabelled`    a call with a label of its body replaced;
* `Call.all_relabel`   the strict calls of a text with a label replaced are those of the text with that
                       label replaced: no call comes about or is lost.
-/

namespace Worksheet

/-- two cuts at the first `c` are the same -/
theorem append_cons_cancel {c : Char} {u u' v v' : Text} (hu : c ∉ u) (hu' : c ∉ u')
    (h : u ++ c :: v = u' ++ c :: v') : u = u' ∧ v = v' := by
  induction u generalizing u' with
  | nil =>
    cases u' with
    | nil => exact ⟨rfl, (List.cons.inj h).2⟩
    | cons d u' => exact absurd ((List.cons.inj h).1 ▸ List.mem_cons_self ..) hu'
  | cons d u ih =>
    cases u' with
    | nil => exact absurd ((List.cons.inj h).1 ▸ List.mem_cons_self ..) hu
    | cons d' u' =>
      obtain ⟨rfl, htail⟩ := List.cons.inj h
      obtain ⟨rfl, rfl⟩ := ih (fun hm => hu (List.mem_cons_of_mem _ hm))
        (fun hm => hu' (List.mem_cons_of_mem _ hm)) htail
      exact ⟨rfl, rfl⟩

namespace Call

/-! ## where a call begins -/

/-- `t` is a call with this name and this body, followed by `rest` -/
structure Begins (mode : Mode) (t head body rest : Text) : Prop where
  eq : t = head ++ '(' :: (body ++ ')' :: rest)
  length : head.length = 3
  acceptsHead : ∀ c ∈ head, mode.acceptsHead c = true
  acceptsBody : ∀ c ∈ body, mode.acceptsBody c = true

theorem acceptsBody_strict (c : Char) : Mode.strict.acceptsBody c = true ↔ c ≠ ')' := by
  show (c != ')') = true ↔ c ≠ ')'
  exact bne_iff_ne

theorem acceptsBody_close (mode : Mode) : mode.acceptsBody ')' = false := by
  cases mode <;> decide

namespace Begins
variable {mode : Mode} {t head body rest : Text}

theorem isAlpha (h : Begins mode t head body rest) : ∀ c ∈ head, c.isAlpha = true := fun c hc => by
  cases mode with
  | strict => exact Letter.isAlpha_of_isUpper (h.acceptsHead c hc)
  | lenient => exact h.acceptsHead c hc

theorem notMem (h : Begins mode t head body rest) : ')' ∉ body := fun hm => by
  have hclose := h.acceptsBody _ hm
  rw [acceptsBody_close] at hclose
  cases hclose

theorem length_rest (h : Begins mode t head body rest) : rest.length < t.length := by
  rw [h.eq]
  simp only [List.length_append, List.length_cons]
  omega

end Begins

theorem atStart?_of_begins {mode : Mode} {t head body rest : Text}
    (h : Begins mode t head body rest) (before : Option Char) :
    atStart? mode before t = some (⟨head, body⟩, body.length + 5) := by
  obtain ⟨a, b, c, rfl⟩ := List.length_eq_three.mp h.length
  have hup : mode.acceptsHead a ∧ mode.acceptsHead b ∧ mode.acceptsHead c :=
    ⟨h.acceptsHead a (by simp), h.acceptsHead b (by simp), h.acceptsHead c (by simp)⟩
  rw [h.eq]
  show (if _ then _ else _) = _
  rw [if_pos hup, List.takeWhile_append_of_pos h.acceptsBody,
    List.dropWhile_append_of_pos h.acceptsBody, List.takeWhile_cons, List.dropWhile_cons,
    acceptsBody_close]
  show some (Call.mk [a, b, c] (body ++ []), (body ++ []).length + 5) = _
  rw [List.append_nil]

theorem atStart?_eq_none {mode : Mode} {t : Text}
    (h : ∀ head body rest, ¬Begins mode t head body rest) (before : Option Char) :
    atStart? mode before t = none := by
  unfold atStart?
  split
  · next a b c t =>
    split
    · next hup =>
      dsimp only
      split
      · next rest e =>
        refine absurd ?_ (h [a, b, c] (t.takeWhile mode.acceptsBody) rest)
        refine ⟨?_, rfl, ?_, fun _ => List.mem_takeWhile_imp⟩
        · rw [← e, List.takeWhile_append_dropWhile]
          rfl
        · simp only [List.mem_cons, List.not_mem_nil, or_false]
          rintro _ (rfl | rfl | rfl)
          · exact hup.1
          · exact hup.2.1
          · exact hup.2.2
      · rfl
    · rfl
  · rfl

/-! ## the calls of a text -/

section
variable {mode : Mode}

theorem scan_eq (before : Option Char) (t : Text) :
    scan mode t = stretchesFrom (atStart? mode) before 0 t := by
  cases t <;> rfl

theorem scan_of_begins {t head body rest : Text} (h : Begins mode t head body rest) :
    scan mode t = .found ⟨head, body⟩ :: scan mode rest := by
  have hat := atStart?_of_begins h none
  have hlen : (head ++ '(' :: (body ++ [')'])).length = body.length + 5 := by
    simp only [List.length_append, List.length_cons, List.length_nil, h.length]
    omega
  have e : t = (head ++ '(' :: (body ++ [')'])) ++ rest := by
    rw [h.eq]
    simp only [List.append_assoc, List.cons_append, List.nil_append]
  rw [e, ← hlen] at hat
  rw [scan_eq none, e, stretchesFrom_found (by simp) hat, ← scan_eq]

theorem scan_cons {c : Char} {t : Text}
    (h : ∀ head body rest, ¬Begins mode (c :: t) head body rest) :
    scan mode (c :: t) = .plain c :: scan mode t := by
  rw [scan_eq none, stretchesFrom_plain (atStart?_eq_none h none), ← scan_eq]

/-- a text is walked through call by call, and where there is none, character by character -/
theorem scan_induction (mode : Mode) {motive : Text → Prop} (nil : motive [])
    (call : ∀ t head body rest, Begins mode t head body rest → motive rest → motive t)
    (other : ∀ c t, (∀ head body rest, ¬Begins mode (c :: t) head body rest) → motive t →
      motive (c :: t))
    (t : Text) : motive t := by
  generalize hn : t.length = n
  induction n using Nat.strongRecOn generalizing t with
  | _ n ih =>
    by_cases hb : ∃ head body rest, Begins mode t head body rest
    · obtain ⟨head, body, rest, hb⟩ := hb
      exact call t head body rest hb (ih rest.length (hn ▸ hb.length_rest) rest rfl)
    · cases t with
      | nil => exact nil
      | cons c t =>
        rw [List.length_cons] at hn
        exact other c t (fun head body rest h => hb ⟨head, body, rest, h⟩)
          (ih t.length (by omega) t rfl)

theorem all_of_begins {t head body rest : Text} (h : Begins mode t head body rest) :
    all mode t = ⟨head, body⟩ :: all mode rest := by
  rw [all, scan_of_begins h]
  rfl

theorem all_cons {c : Char} {t : Text}
    (h : ∀ head body rest, ¬Begins mode (c :: t) head body rest) :
    all mode (c :: t) = all mode t := by
  rw [all, scan_cons h]
  rfl

end

theorem not_begins_append {w : Text} (hw : ∀ c ∈ w, c.isAlphanum = true) {x : Char} (hx : x ∈ w)
    (hdigit : x.isDigit = true) (t head body rest : Text) :
    ¬Begins .strict (w ++ t) head body rest := by
  intro h
  have hhead : x ∉ head := fun hm => by
    have ha := h.isAlpha x hm
    rw [Letter.not_isAlpha_of_isDigit hdigit] at ha
    cases ha
  rcases List.append_eq_append_iff.mp h.eq with ⟨s, e, -⟩ | ⟨s, e, e'⟩
  · exact hhead (e ▸ List.mem_append_left _ hx)
  · cases s with
    | nil =>
      rw [List.append_nil] at e
      exact hhead (e ▸ hx)
    | cons c s =>
      have hc : c = '(' := (List.cons.inj e').1.symm
      have hm : '(' ∈ w := by
        rw [e, hc]
        exact List.mem_append_right _ (List.mem_cons_self ..)
      exact absurd (hw _ hm) (by decide)

/-- what is like a label belongs to no call that begins in it -/
theorem all_append {w a d : Text} (h : LabelLike w a d) (t : Text) :
    all .strict (w ++ t) = all .strict t := by
  have step : ∀ (u : Text) (x : Char), (∀ c ∈ u, c.isAlphanum = true) → x.isDigit = true →
      all .strict (u ++ x :: t) = all .strict t := by
    intro u x hu hx
    have hx' : x.isAlphanum = true := by
      rw [Char.isAlphanum, hx, Bool.or_true]
    induction u with
    | nil =>
      have hw : ∀ y ∈ [x], y.isAlphanum = true := fun y hy => List.mem_singleton.mp hy ▸ hx'
      exact all_cons (not_begins_append hw (List.mem_singleton_self x) hx t)
    | cons c u ih =>
      rw [List.cons_append, all_cons, ih fun y hy => hu y (List.mem_cons_of_mem _ hy)]
      intro head body rest
      have hw : ∀ y ∈ (c :: u) ++ [x], y.isAlphanum = true := fun y hy => by
        rcases List.mem_append.mp hy with hy | hy
        · exact hu y hy
        · rw [List.mem_singleton.mp hy]
          exact hx'
      have hno := not_begins_append hw (List.mem_append_right _ (List.mem_singleton_self x)) hx t
        head body rest
      rwa [List.append_assoc] at hno
  obtain ⟨d', x, hd⟩ := (List.eq_nil_or_concat' d).resolve_left h.digits_ne_nil
  have hmem : ∀ c ∈ a ++ d', c.isAlphanum = true := fun c hc => h.isAlphanum c (by
    rw [h.eq, hd, ← List.append_assoc]
    exact List.mem_append_left _ hc)
  have hlast : x.isDigit = true := h.isDigit x (by
    rw [hd]
    exact List.mem_append_right _ (List.mem_singleton_self x))
  rw [← step (a ++ d') x hmem hlast]
  rw [h.eq, hd]
  simp only [List.append_assoc, List.cons_append, List.nil_append]

/-! ## the calls of a text with a label replaced -/

/-- the call with a label of its body replaced -/
def relabelled (old new : Position) (c : Call) : Call := ⟨c.head, relabel old new c.body⟩

section
variable (old new : Position)

theorem begins_relabelFrom {t head body rest : Text} (h : Begins .strict t head body rest)
    (before : Option Char) :
    Begins .strict (relabelFrom old new before t) head (relabel old new body) (relabel old new rest) where
  eq := by
    have hdigit : ∀ c ∈ head, c.isDigit = false := fun c hc =>
      Letter.not_isDigit_of_isAlpha (h.isAlpha c hc)
    rw [h.eq, relabelFrom_append_cons old new (by decide), relabelFrom_of_not_isDigit before hdigit,
      ← relabel_eq, relabel_append_cons old new (by decide)]
  length := h.length
  acceptsHead := h.acceptsHead
  acceptsBody c hc := (acceptsBody_strict c).mpr fun e =>
    h.notMem ((mem_relabelFrom old new (by decide) none body).mp (e ▸ hc))

/-- a replacement without digits has replaced nothing -/
theorem relabelFrom_eq_self {before : Option Char} {t : Text}
    (h : ∀ c ∈ relabelFrom old new before t, c.isDigit = false) :
    relabelFrom old new before t = t := by
  induction before, t using relabel_induction old with
  | nil before => rfl
  | found before l rest hl _ =>
    obtain ⟨c, hc, hd⟩ := (⟨new.spelledBy_label, rfl, rfl⟩ :
      StandsAlone new none new.label []).exists_isDigit
    rw [relabelFrom_found hl] at h
    rw [h c (List.mem_append_left _ hc)] at hd
    cases hd
  | plain before c t hno ih =>
    rw [relabelFrom_plain hno] at h ⊢
    rw [ih fun d hd => h d (List.mem_cons_of_mem _ hd)]

/-- a call with a label replaced was a call -/
theorem begins_of_relabelFrom {before : Option Char} {t head body rest : Text}
    (h : Begins .strict (relabelFrom old new before t) head body rest) :
    ∃ body' rest', Begins .strict t head body' rest' := by
  have hopen : '(' ∈ relabelFrom old new before t := by
    rw [h.eq]
    exact List.mem_append_right _ (List.mem_cons_self ..)
  rw [mem_relabelFrom old new (by decide)] at hopen
  obtain ⟨u, v, rfl, hu⟩ := List.eq_append_cons_of_mem hopen
  have e := h.eq
  rw [relabelFrom_append_cons old new (by decide), ← relabel_eq] at e
  have hu' : '(' ∉ relabelFrom old new before u := fun hm =>
    hu ((mem_relabelFrom old new (by decide) before u).mp hm)
  have hhead : '(' ∉ head := fun hm => absurd (h.isAlpha _ hm) (by decide)
  obtain ⟨rfl, hv⟩ := append_cons_cancel hu' hhead e
  have hself := relabelFrom_eq_self old new fun c hc =>
    Letter.not_isDigit_of_isAlpha (h.isAlpha c hc)
  have hclose : ')' ∈ relabel old new v := by
    rw [hv]
    exact List.mem_append_right _ (List.mem_cons_self ..)
  rw [relabel_eq, mem_relabelFrom old new (by decide)] at hclose
  obtain ⟨body', rest', rfl, hbody'⟩ := List.eq_append_cons_of_mem hclose
  exact ⟨body', rest', by rw [hself], h.length, h.acceptsHead, fun c hc =>
    (acceptsBody_strict c).mpr fun e => hbody' (e ▸ hc)⟩

theorem all_relabelFrom (before : Option Char) (t : Text) :
    all .strict (relabelFrom old new before t) = (all .strict t).map (relabelled old new) := by
  generalize hn : t.length = n
  induction n using Nat.strongRecOn generalizing before t with
  | _ n ih =>
    by_cases hb : ∃ head body rest, Begins .strict t head body rest
    · obtain ⟨head, body, rest, hb⟩ := hb
      have hlen : rest.length < n := hn ▸ hb.length_rest
      have hrest : all .strict (relabel old new rest) = (all .strict rest).map (relabelled old new) :=
        ih rest.length hlen none rest rfl
      rw [all_of_begins (begins_relabelFrom old new hb before), all_of_begins hb, hrest]
      rfl
    · by_cases hl : ∃ l rest, t = l ++ rest ∧ StandsAlone old before l rest
      · obtain ⟨l, rest, rfl, hl⟩ := hl
        have hpos := List.length_pos_iff.mpr hl.ne_nil
        rw [List.length_append] at hn
        rw [relabelFrom_found hl, all_append new.labelLike_label, all_append hl.labelLike,
          ih rest.length (by omega) _ rest rfl]
      · have hno : ∀ l rest, t = l ++ rest → ¬StandsAlone old before l rest := fun l rest e h =>
          hl ⟨l, rest, e, h⟩
        cases t with
        | nil => rfl
        | cons c t =>
          have hrel : relabelFrom old new before (c :: t) = c :: relabelFrom old new (some c) t :=
            relabelFrom_plain hno
          rw [List.length_cons] at hn
          rw [hrel, all_cons, all_cons fun head body rest h => hb ⟨head, body, rest, h⟩,
            ih t.length (by omega) _ t rfl]
          intro head body rest h
          rw [← hrel] at h
          obtain ⟨body', rest', h'⟩ := begins_of_relabelFrom old new h
          exact hb ⟨head, body', rest', h'⟩

/-- no call comes about or is lost where a label is replaced -/
theorem all_relabel (t : Text) :
    all .strict (relabel old new t) = (all .strict t).map (relabelled old new) :=
  all_relabelFrom old new none t

end

end Call

end Worksheet
