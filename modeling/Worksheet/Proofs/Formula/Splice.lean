import Worksheet.Proofs.Formula.Evaluation
import Worksheet.Proofs.Formula.Scan

/-!
# One call of a formula is replaced

* `Call.begins_of_scan`, `Call.not_begins_of_scan`
                       what a text begins with, from its first stretch;
* `Call.Fenced`        no call that begins in front of a text reaches into it;
* `Call.scan_splice`   the stretches of a text in which others stand in place of a call;
* `Call.scan_replaced`, `Call.scan_bracketed`
                       the call has another body, or stands in brackets;
* `evaluate_splice`    what is shown then;
* `evaluate_replaced`  it is what was shown before, if both calls come to the same.

Only the stretches that take the place of the call are scanned anew: a call that begins before them
ends before them, since neither a name nor a lenient body has a bracket in it.
-/

namespace Worksheet

namespace Call

/-! ## the first stretch -/

section
variable {mode : Mode} {t : Text} {l : List (Stretch Call)}

theorem begins_of_scan {c : Call} (h : scan mode t = .found c :: l) :
    Begins mode t c.head c.body (l.flatMap source) ∧ scan mode (l.flatMap source) = l := by
  by_cases hb : ∃ head body rest, Begins mode t head body rest
  · obtain ⟨head, body, rest, hb⟩ := hb
    rw [scan_of_begins hb] at h
    obtain ⟨e, rfl⟩ := List.cons.inj h
    obtain rfl := Stretch.found.inj e
    rw [flatMap_source]
    exact ⟨hb, rfl⟩
  · cases t with
    | nil => cases h
    | cons d t =>
      rw [scan_cons fun head body rest hb' => hb ⟨head, body, rest, hb'⟩] at h
      cases (List.cons.inj h).1

theorem not_begins_of_scan {c : Char} (h : scan mode t = .plain c :: l) :
    (∀ head body rest, ¬Begins mode t head body rest) ∧ scan mode (l.flatMap source) = l := by
  have hno : ∀ head body rest, ¬Begins mode t head body rest := fun head body rest hb => by
    rw [scan_of_begins hb] at h
    cases (List.cons.inj h).1
  cases t with
  | nil => cases h
  | cons d t =>
    rw [scan_cons hno] at h
    obtain ⟨-, rfl⟩ := List.cons.inj h
    rw [flatMap_source]
    exact ⟨hno, rfl⟩

theorem head?_of_scan {c : Char} (h : scan mode t = .plain c :: l) : t.head? = some c := by
  rw [← flatMap_source mode t, h]
  rfl

theorem not_begins_cons {c : Char} (hc : c.isAlpha = false) (head body rest : Text) :
    ¬Begins mode (c :: t) head body rest := by
  intro h
  obtain ⟨x, y, z, rfl⟩ := List.length_eq_three.mp h.length
  obtain rfl := (List.cons.inj h.eq).1
  rw [h.isAlpha c (List.mem_cons_self ..)] at hc
  cases hc

end

/-! ## calls that end before a text -/

/-- a call that begins before `v` ends before it -/
def Fenced (v : Text) : Prop :=
  ∀ u head body rest, u ≠ [] → Begins .lenient (u ++ v) head body rest →
    ∃ rest', u = head ++ '(' :: (body ++ ')' :: rest')

theorem open_notMem_of_begins {t head body rest : Text} (h : Begins .lenient t head body rest) :
    '(' ∉ head ∧ '(' ∉ body :=
  ⟨fun hm => absurd (h.isAlpha _ hm) (by decide), fun hm => absurd (h.acceptsBody _ hm) (by decide)⟩

/-- a body ends before letters that an opening bracket follows -/
theorem exists_eq_of_append_close {u v body rest : Text} (letters : Text) (hbody : '(' ∉ body)
    (hl : ∀ c ∈ letters, c.isAlpha = true)
    (h : u ++ (letters ++ '(' :: v) = body ++ ')' :: rest) : ∃ rest', u = body ++ ')' :: rest' := by
  rcases List.append_eq_append_iff.mp h with ⟨s, rfl, e⟩ | ⟨s, rfl, e⟩
  · exact absurd e.symm
      (append_close_ne (fun hm => hbody (List.mem_append_right _ hm)) hl)
  · cases s with
    | nil => exact absurd e (append_close_ne (b := []) List.not_mem_nil hl)
    | cons c s =>
      obtain rfl := (List.cons.inj e).1
      exact ⟨s, rfl⟩

section
variable {v head body rest : Text} (hv : Begins .lenient v head body rest)
include hv

theorem fenced_of_begins : Fenced v := by
  intro u head' body' rest' hne h
  obtain ⟨hhead, hbody⟩ := open_notMem_of_begins h
  have e := h.eq
  rw [hv.eq] at e
  by_cases hopen : '(' ∈ u
  · obtain ⟨u1, u2, rfl, hu1⟩ := List.eq_append_cons_of_mem hopen
    rw [List.append_assoc, List.cons_append] at e
    obtain ⟨rfl, e2⟩ := append_cons_cancel hu1 hhead e
    obtain ⟨rest'', rfl⟩ := exists_eq_of_append_close _ hbody hv.isAlpha e2
    exact ⟨rest'', rfl⟩
  · -- then the name of the call would be longer than three letters
    have hno : '(' ∉ u ++ head := fun hm =>
      (List.mem_append.mp hm).elim hopen (open_notMem_of_begins hv).1
    rw [← List.append_assoc] at e
    have hlen := congrArg List.length (append_cons_cancel hno hhead e).1
    rw [List.length_append, hv.length, h.length] at hlen
    exact absurd (List.length_eq_zero_iff.mp (by omega)) hne

theorem fenced_bracketed : Fenced ('(' :: v) := by
  intro u head' body' rest' _ h
  obtain ⟨hhead, hbody⟩ := open_notMem_of_begins h
  have e := h.eq
  by_cases hopen : '(' ∈ u
  · obtain ⟨u1, u2, rfl, hu1⟩ := List.eq_append_cons_of_mem hopen
    rw [List.append_assoc, List.cons_append] at e
    obtain ⟨rfl, e2⟩ := append_cons_cancel hu1 hhead e
    obtain ⟨rest'', rfl⟩ := exists_eq_of_append_close [] hbody
      (fun _ hc => absurd hc List.not_mem_nil) e2
    exact ⟨rest'', rfl⟩
  · -- then the body of the call would have a bracket in it
    obtain ⟨-, e2⟩ := append_cons_cancel hopen hhead e
    rw [hv.eq] at e2
    exact absurd e2.symm (append_close_ne hbody hv.isAlpha)

end

/-! ## other stretches in place of a call -/

section
variable {t : Text} {pre post : List (Stretch Call)} {c : Call}

theorem scan_splice {l m : List (Stretch Call)} (h : scan .lenient t = pre ++ l)
    (hm : scan .lenient (m.flatMap source) = m) (hfence : Fenced (m.flatMap source)) :
    scan .lenient ((pre ++ m).flatMap source) = pre ++ m := by
  induction pre generalizing t with
  | nil => exact hm
  | cons x pre ih =>
    rw [List.cons_append, List.flatMap_cons]
    cases x with
    | found d =>
      obtain ⟨hb, hrest⟩ := begins_of_scan h
      have hb' : Begins .lenient (source (.found d) ++ (pre ++ m).flatMap source) d.head d.body
          ((pre ++ m).flatMap source) :=
        ⟨by simp only [source, text, List.append_assoc, List.cons_append, List.nil_append],
          hb.length, hb.acceptsHead, hb.acceptsBody⟩
      rw [scan_of_begins hb', ih hrest]
    | plain d =>
      obtain ⟨hno, hrest⟩ := not_begins_of_scan h
      have ht : t = (d :: pre.flatMap source) ++ l.flatMap source := by
        rw [← flatMap_source .lenient t, h, List.cons_append, List.flatMap_cons, List.flatMap_append]
        rfl
      refine (scan_cons fun head body rest hb => ?_).trans (congrArg _ (ih hrest))
      have hb : Begins .lenient ((d :: pre.flatMap source) ++ m.flatMap source) head body rest := by
        rw [List.flatMap_append] at hb
        exact hb
      obtain ⟨rest', e⟩ := hfence _ _ _ _ (List.cons_ne_nil d _) hb
      refine hno head body (rest' ++ l.flatMap source) ⟨?_, hb.length, hb.acceptsHead, hb.acceptsBody⟩
      rw [ht, e]
      simp only [List.append_assoc, List.cons_append]

variable (h : scan .lenient t = pre ++ .found c :: post)
include h

theorem scan_found : scan .lenient ((Stretch.found c :: post).flatMap source) = .found c :: post := by
  induction pre generalizing t with
  | nil =>
    rw [List.nil_append] at h
    rw [← h, flatMap_source]
  | cons x pre ih =>
    cases x with
    | found d => exact ih (begins_of_scan h).2
    | plain d => exact ih (not_begins_of_scan h).2

/-- the call is found with another body in its place -/
theorem scan_replaced {body : Text} (hbody : ∀ x ∈ body, Mode.lenient.acceptsBody x = true) :
    scan .lenient ((pre ++ .found ⟨c.head, body⟩ :: post).flatMap source)
      = pre ++ .found ⟨c.head, body⟩ :: post := by
  obtain ⟨hb, hrest⟩ := begins_of_scan (scan_found h)
  have hb' : Begins .lenient ((Stretch.found ⟨c.head, body⟩ :: post).flatMap source) c.head body
      (post.flatMap source) :=
    ⟨by simp only [List.flatMap_cons, source, text, List.append_assoc, List.cons_append,
      List.nil_append], hb.length, hb.acceptsHead, hbody⟩
  refine scan_splice h ?_ (fenced_of_begins hb')
  rw [scan_of_begins hb', hrest]

/-- the call is found between the brackets -/
theorem scan_bracketed :
    scan .lenient ((pre ++ .plain '(' :: .found c :: .plain ')' :: post).flatMap source)
      = pre ++ .plain '(' :: .found c :: .plain ')' :: post := by
  obtain ⟨hb, hrest⟩ := begins_of_scan (scan_found h)
  have hclose : scan .lenient ((Stretch.plain ')' :: post).flatMap source) = .plain ')' :: post :=
    (scan_cons (not_begins_cons (by decide))).trans (congrArg _ hrest)
  have hb' : Begins .lenient ((Stretch.found c :: .plain ')' :: post).flatMap source) c.head c.body
      ((Stretch.plain ')' :: post).flatMap source) :=
    ⟨by simp only [List.flatMap_cons, source, text, List.append_assoc, List.cons_append,
      List.nil_append], hb.length, hb.acceptsHead, hb.acceptsBody⟩
  refine scan_splice h ?_ (fenced_bracketed hb')
  refine (scan_cons (not_begins_cons (by decide))).trans (congrArg _ ?_)
  exact (scan_of_begins hb').trans (congrArg _ hclose)

end

end Call

/-! ## what is shown -/

/-- the value of a formula that is made up of these stretches -/
def stretchesValue (l : List (Stretch Call)) (s : Snapshot) : Except Fault Text := do
  let ts ← l.mapM (replacement s)
  Expression.value (Text.stripFirst '=' ts.flatten)

theorem stretchesValue_eq {l : List (Stretch Call)} {s : Snapshot} {ts : List Text}
    (h : l.mapM (replacement s) = .ok ts) :
    stretchesValue (.plain '=' :: l) s = Expression.value ts.flatten := by
  rw [stretchesValue, List.mapM_cons, h]
  rfl

theorem evaluate_of_scan {raw : Text} (hraw : (Text.trim raw).head? = some '=')
    {l : List (Stretch Call)} (hscan : Call.scan .lenient (Text.trim raw) = l) (s : Snapshot) :
    evaluate raw s = Fault.shown (stretchesValue l s) := by
  rw [evaluate]
  simp only [hraw, if_true]
  rw [formulaValue, substitute, hscan, stretchesValue]
  cases l.mapM (replacement s) <;> rfl

section
variable {raw : Text} {pre post : List (Stretch Call)} {c : Call}
  (hraw : (Text.trim raw).head? = some '=')
  (hscan : Call.scan .lenient (Text.trim raw) = pre ++ .found c :: post)
include hraw hscan

/-- in front of a call of a formula there is the equals sign at least -/
theorem exists_plain_of_scan : ∃ pre', pre = .plain '=' :: pre' := by
  obtain ⟨t, ht⟩ := List.head?_eq_some_iff.mp hraw
  rw [ht, Call.scan_cons (Call.not_begins_cons (by decide))] at hscan
  cases pre with
  | nil => cases hscan
  | cons x pre =>
    obtain ⟨rfl, -⟩ := List.cons.inj hscan
    exact ⟨pre, rfl⟩

/-- Other stretches stand in place of the call, and the last of them ends in a closing bracket as the
call does. -/
theorem evaluate_splice {m : List (Stretch Call)} {w : Text} (hw : m.flatMap Call.source = w ++ [')'])
    (hm : Call.scan .lenient ((pre ++ (m ++ post)).flatMap Call.source) = pre ++ (m ++ post))
    (s : Snapshot) : evaluate ((pre ++ (m ++ post)).flatMap Call.source) s
      = Fault.shown (stretchesValue (pre ++ (m ++ post)) s) := by
  obtain ⟨pre', rfl⟩ := exists_plain_of_scan hraw hscan
  generalize ht : (Stretch.plain '=' :: pre' ++ (m ++ post)).flatMap Call.source = t at hm ⊢
  have hhead : t.head? = some '=' := by
    rw [← ht]
    rfl
  have hold : Text.trim raw = ((Stretch.plain '=' :: pre').flatMap Call.source
      ++ (c.head ++ '(' :: c.body)) ++ ')' :: post.flatMap Call.source := by
    rw [← Call.flatMap_source .lenient (Text.trim raw), hscan, List.flatMap_append,
      List.flatMap_cons (x := Stretch.found c)]
    simp only [Call.source, Call.text, List.append_assoc, List.cons_append, List.nil_append]
  have hnew : t = ((Stretch.plain '=' :: pre').flatMap Call.source ++ w)
      ++ ')' :: post.flatMap Call.source := by
    rw [← ht, List.flatMap_append, List.flatMap_append, hw]
    simp only [List.append_assoc, List.cons_append, List.nil_append]
  have htrim : Text.trim t = t := by
    have hlast := getLast?_trim raw
    rw [hold, List.getLast?_append, List.getLast?_cons] at hlast
    refine trim_eq_self (by rw [hhead]; rfl) ?_
    rw [hnew, List.getLast?_append, List.getLast?_cons]
    exact hlast
  exact evaluate_of_scan (htrim.symm ▸ hhead) (htrim.symm ▸ hm) s

/-- a call with another body that comes to the same -/
theorem evaluate_replaced {body : Text} (hbody : ∀ x ∈ body, Mode.lenient.acceptsBody x = true)
    {s : Snapshot} (hresult : Call.result ⟨c.head, body⟩ s = c.result s) :
    evaluate ((pre ++ .found ⟨c.head, body⟩ :: post).flatMap Call.source) s = evaluate raw s := by
  have hw : [Stretch.found (Call.mk c.head body)].flatMap Call.source
      = (c.head ++ '(' :: body) ++ [')'] := by
    simp only [List.flatMap_cons, List.flatMap_nil, Call.source, Call.text, List.append_assoc,
      List.cons_append, List.append_nil]
  have hone : replacement s (.found ⟨c.head, body⟩) = replacement s (.found c) := hresult
  refine (evaluate_splice hraw hscan hw (Call.scan_replaced hscan hbody) s).trans ?_
  rw [evaluate_of_scan hraw hscan, stretchesValue, stretchesValue, List.cons_append, List.nil_append,
    List.mapM_append, List.mapM_append, List.mapM_cons, List.mapM_cons, hone]

end

end Worksheet
