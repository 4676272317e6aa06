import Worksheet.Proofs.Formula.Evaluation
import Worksheet.Proofs.Formula.Scan

/-!
# The two modes agree on what may be wired

What a formula reads is decided by its strict calls, and what it is given by the lenient calls of the
trimmed text.  Each walk passes over what a call covers, so they could get out of step.

* `Call.begun`         the calls that begin anywhere in a text, also where another call stands;
* `Call.spansFrom_scan` these are the calls of the text, unless a body has an opening bracket;
* `Call.Plain`         a body of labels, separators and blanks, which all have that may be wired;
* `Call.Spaced`        a body with no other blanks than spaces;
* `Call.filter_spans`  if all strict calls are plain, the lenient calls of functions are the strict
                       ones that are spaced;
* `Call.agree_and_resolve`
                       so it is for content that may be wired, and each of these calls finds values
                       at the positions that are wired.
-/

namespace Worksheet

namespace Call

/-! ## the calls that begin in a text -/

/-- each call with its first byte and the first byte after it, in a text that begins at the byte
`start` -/
def begun (mode : Mode) : Nat → Text → List (Call × Nat × Nat)
  | _, [] => []
  | start, c :: t =>
    match atStart? mode none (c :: t) with
    | some (call, _) =>
      (call, start, start + Text.byteLength call.text) :: begun mode (start + c.utf8Size) t
    | none => begun mode (start + c.utf8Size) t

namespace Begins
variable {mode mode' : Mode} {t head head' body body' rest rest' : Text}

theorem notMem_head (h : Begins mode t head body rest) : '(' ∉ head := fun hm =>
  absurd (h.isAlpha _ hm) (by decide)

theorem unique (h : Begins mode t head body rest) (h' : Begins mode' t head' body' rest') :
    head = head' ∧ body = body' := by
  obtain ⟨rfl, e⟩ := append_cons_cancel h.notMem_head h'.notMem_head (h.eq.symm.trans h'.eq)
  exact ⟨rfl, (append_cons_cancel h.notMem h'.notMem e).1⟩

/-- a call has three characters before its bracket -/
theorem length_of_append {u v : Text} (hu : '(' ∉ u) (h : Begins mode (u ++ '(' :: v) head body rest) :
    u.length = 3 := by
  rw [(append_cons_cancel hu h.notMem_head h.eq).1, h.length]

end Begins

section
variable {mode : Mode}

theorem begun_of_begins {c : Char} {t head body rest : Text}
    (h : Begins mode (c :: t) head body rest) (start : Nat) : begun mode start (c :: t)
      = (⟨head, body⟩, start, start + Text.byteLength (Call.mk head body).text)
        :: begun mode (start + c.utf8Size) t := by
  rw [begun, atStart?_of_begins h none]

theorem begun_cons {c : Char} {t : Text}
    (h : ∀ head body rest, ¬Begins mode (c :: t) head body rest) (start : Nat) :
    begun mode start (c :: t) = begun mode (start + c.utf8Size) t := by
  rw [begun, atStart?_eq_none h none]

/-- no call begins in a body without an opening bracket -/
theorem begun_body {b : Text} (hb : '(' ∉ b) (rest : Text) (start : Nat) :
    begun mode start (b ++ ')' :: rest) = begun mode (start + Text.byteLength b + 1) rest := by
  induction b generalizing start with
  | nil => exact begun_cons (fun _ _ _ h => append_close_ne hb h.isAlpha h.eq) start
  | cons c b ih =>
    have hno : ∀ hd b' r, ¬Begins mode (c :: (b ++ ')' :: rest)) hd b' r := fun _ _ _ h =>
      append_close_ne hb h.isAlpha h.eq
    rw [List.cons_append, begun_cons hno, ih fun hm => hb (List.mem_cons_of_mem _ hm),
      Text.byteLength_cons, Nat.add_assoc start]

theorem begun_call {t head body rest : Text} (h : Begins mode t head body rest) (hb : '(' ∉ body)
    (start : Nat) : begun mode start t
      = (⟨head, body⟩, start, start + Text.byteLength (Call.mk head body).text)
        :: begun mode (start + Text.byteLength (Call.mk head body).text) rest := by
  obtain ⟨x, y, z, rfl⟩ := List.length_eq_three.mp h.length
  have e : t = x :: y :: z :: '(' :: (body ++ ')' :: rest) := h.eq
  obtain ⟨-, hy, hz⟩ : '(' ≠ x ∧ '(' ≠ y ∧ '(' ≠ z := by
    have hhead := h.notMem_head
    simp only [List.mem_cons, List.not_mem_nil, or_false, not_or] at hhead
    exact hhead
  have before : ∀ {u v : Text}, '(' ∉ u → u.length ≠ 3 →
      ∀ hd b r, ¬Begins mode (u ++ '(' :: v) hd b r := fun hu hlen _ _ _ hbegins =>
    hlen (hbegins.length_of_append hu)
  rw [e] at h ⊢
  have hy' : ∀ hd b r, ¬Begins mode (y :: z :: '(' :: (body ++ ')' :: rest)) hd b r :=
    before (u := [y, z]) (by simp [hy, hz]) (by simp)
  have hz' : ∀ hd b r, ¬Begins mode (z :: '(' :: (body ++ ')' :: rest)) hd b r :=
    before (u := [z]) (by simp [hz]) (by simp)
  rw [begun_of_begins h, begun_cons hy', begun_cons hz',
    begun_cons (before (u := []) List.not_mem_nil (by decide)), begun_body hb]
  have hsize : Text.byteLength (Call.mk [x, y, z] body).text
      = x.utf8Size + (y.utf8Size + (z.utf8Size + (1 + (Text.byteLength body + 1)))) := by
    show Text.byteLength (x :: y :: z :: '(' :: (body ++ [')'])) = _
    simp only [Text.byteLength_cons, Text.byteLength_append, Text.byteLength_nil, Nat.add_zero]
    rfl
  rw [hsize]
  congr 2
  show start + _ + _ + _ + 1 + _ + 1 = _
  omega

theorem spansFrom_scan {t : Text} (hno : ∀ d ∈ all mode t, '(' ∉ d.body) (start : Nat) :
    spansFrom start (scan mode t) = begun mode start t := by
  induction t using scan_induction mode generalizing start with
  | nil => rfl
  | call t head body rest h ih =>
    rw [all_of_begins h] at hno
    rw [scan_of_begins h, begun_call h (hno _ (List.mem_cons_self ..)), spansFrom,
      ih fun d hd => hno d (List.mem_cons_of_mem _ hd)]
  | other c t h ih =>
    rw [all_cons h] at hno
    rw [scan_cons h, begun_cons h, spansFrom, ih hno]

theorem map_fst_spans (t : Text) : (spans mode t).map Prod.fst = all mode t := by
  have hfrom : ∀ (l : List (Stretch Call)) (start : Nat),
      (spansFrom start l).map Prod.fst = l.filterMap Stretch.found? := by
    intro l
    induction l with
    | nil => exact fun _ => rfl
    | cons s l ih =>
      intro start
      cases s with
      | plain c => exact ih _
      | found call => exact congrArg (call :: ·) (ih _)
  exact hfrom _ 0

theorem mem_all_iff {t : Text} {c : Call} : c ∈ all mode t ↔ ∃ span, (c, span) ∈ spans mode t := by
  rw [← map_fst_spans, List.mem_map]
  exact ⟨fun ⟨e, he, h⟩ => ⟨e.2, h ▸ he⟩, fun ⟨span, h⟩ => ⟨_, h, rfl⟩⟩

/-! ## blanks around a text -/

/-- a call with its place in a text, of which the first `n` bytes have been left out -/
def shiftedBy (n : Nat) (e : Call × Nat × Nat) : Call × Nat × Nat := (e.1, e.2.1 + n, e.2.2 + n)

theorem begun_add (start n : Nat) (t : Text) :
    begun mode (start + n) t = (begun mode start t).map (shiftedBy n) := by
  induction t generalizing start with
  | nil => rfl
  | cons c t ih =>
    have hstart : start + n + c.utf8Size = start + c.utf8Size + n := by omega
    by_cases hb : ∃ head body rest, Begins mode (c :: t) head body rest
    · obtain ⟨head, body, rest, hb⟩ := hb
      rw [begun_of_begins hb, begun_of_begins hb, hstart, ih, List.map_cons,
        Nat.add_right_comm start n]
      rfl
    · have hno := fun head body rest h => hb ⟨head, body, rest, h⟩
      rw [begun_cons hno, begun_cons hno, hstart, ih]

theorem begun_blanks_append {l : Text} (hl : ∀ c ∈ l, isBlank c = true) (t : Text) (start : Nat) :
    begun mode start (l ++ t) = begun mode (start + Text.byteLength l) t := by
  induction l generalizing start with
  | nil => rfl
  | cons c l ih =>
    rw [List.cons_append, begun_cons, ih fun d hd => hl d (List.mem_cons_of_mem _ hd),
      Text.byteLength_cons, Nat.add_assoc]
    intro head body rest h
    obtain ⟨x, y, z, rfl⟩ := List.length_eq_three.mp h.length
    have hx : c = x := (List.cons.inj h.eq).1
    have halpha := not_isAlphanum_of_isBlank (hl c (List.mem_cons_self ..))
    rw [Char.isAlphanum, hx, h.isAlpha x (List.mem_cons_self ..)] at halpha
    cases halpha

/-- blanks that follow belong to no call -/
theorem begins_append_blanks {r : Text} (hr : ∀ c ∈ r, isBlank c = true) {t head body rest : Text}
    (h : Begins mode (t ++ r) head body rest) : ∃ rest', Begins mode t head body rest' := by
  have e : t ++ r = (head ++ '(' :: (body ++ [')'])) ++ rest := by
    rw [h.eq]
    simp only [List.append_assoc, List.cons_append, List.nil_append]
  rcases List.append_eq_append_iff.mp e with ⟨s, hs, hrest⟩ | ⟨s, hs, _⟩
  · -- the call would end among the blanks
    rcases List.eq_nil_or_concat' s with rfl | ⟨s, c, rfl⟩
    · refine ⟨[], ?_, h.length, h.acceptsHead, h.acceptsBody⟩
      rw [← List.append_nil t, ← hs]
    · have hc : c = ')' := by
        have hlast := congrArg List.getLast? hs
        simp only [← List.cons_append, ← List.append_assoc, List.getLast?_concat,
          Option.some.injEq] at hlast
        exact hlast.symm
      have hm : ')' ∈ r := by
        rw [hrest, hc]
        simp
      exact absurd (hr _ hm) (by decide)
  · refine ⟨s, ?_, h.length, h.acceptsHead, h.acceptsBody⟩
    rw [hs]
    simp only [List.append_assoc, List.cons_append, List.nil_append]

theorem begun_append_blanks {r : Text} (hr : ∀ c ∈ r, isBlank c = true) (t : Text) (start : Nat) :
    begun mode start (t ++ r) = begun mode start t := by
  induction t generalizing start with
  | nil =>
    have hnil : begun mode start (r ++ []) = begun mode (start + Text.byteLength r) [] :=
      begun_blanks_append hr [] start
    rw [List.append_nil] at hnil
    rw [List.nil_append, hnil]
    rfl
  | cons c t ih =>
    by_cases hb : ∃ head body rest, Begins mode (c :: t) head body rest
    · obtain ⟨head, body, rest, hb⟩ := hb
      have hb' : Begins mode (c :: (t ++ r)) head body (rest ++ r) := by
        refine ⟨?_, hb.length, hb.acceptsHead, hb.acceptsBody⟩
        rw [← List.cons_append, hb.eq]
        simp only [List.append_assoc, List.cons_append]
      rw [List.cons_append, begun_of_begins hb', begun_of_begins hb, ih]
    · rw [List.cons_append, begun_cons fun head body rest h => hb ?_,
        begun_cons fun head body rest h => hb ⟨head, body, rest, h⟩, ih]
      obtain ⟨rest', h'⟩ := begins_append_blanks (t := c :: t) hr h
      exact ⟨head, body, rest', h'⟩

end

/-! ## bodies -/

/-- labels, separators and blanks -/
def Plain (c : Call) : Prop :=
  ∀ x ∈ c.body, x.isAlphanum = true ∨ x = ',' ∨ x = ':' ∨ isBlank x = true

/-- no other blanks than spaces -/
def Spaced (c : Call) : Prop := ∀ x ∈ c.body, isBlank x = true → x = ' '

instance (c : Call) : Decidable c.Spaced :=
  List.decidableBAll (fun x => isBlank x = true → x = ' ') c.body

theorem Plain.notMem {c : Call} (h : c.Plain) : '(' ∉ c.body := fun hm =>
  absurd (h _ hm) (by decide)

theorem Plain.acceptsBody_iff {c : Call} (h : c.Plain) :
    (∀ x ∈ c.body, Mode.lenient.acceptsBody x = true) ↔ c.Spaced := by
  refine forall₂_congr fun x hx => ?_
  show (x.isAlphanum || x == ',' || x == ':' || x == ' ' || x == '+') = true ↔ _
  simp only [Bool.or_eq_true, beq_iff_eq]
  constructor
  · rintro ((((hx | rfl) | rfl) | rfl) | rfl) hb
    · rw [not_isAlphanum_of_isBlank hb] at hx
      cases hx
    · exact absurd hb (by decide)
    · exact absurd hb (by decide)
    · rfl
    · exact absurd hb (by decide)
  · intro hspace
    rcases h x hx with hx | rfl | rfl | hb
    · exact .inl (.inl (.inl (.inl hx)))
    · exact .inl (.inl (.inl (.inr rfl)))
    · exact .inl (.inl (.inr rfl))
    · exact .inl (.inr (hspace hb))

theorem exists_mem_of_mem_splitOn {sep c : Char} (hne : c ≠ sep) {t : Text} (hc : c ∈ t) :
    ∃ u ∈ t.splitOn sep, c ∈ u := by
  generalize hn : t.length = n
  induction n using Nat.strongRecOn generalizing t with
  | _ n ih =>
    by_cases h : sep ∈ t
    · obtain ⟨u, v, rfl, _⟩ := List.eq_append_cons_of_mem h
      rw [List.length_append, List.length_cons] at hn
      rw [List.splitOn_append_cons_self]
      rcases List.mem_append.mp hc with hu | hv
      · obtain ⟨w, hw, hcw⟩ := ih u.length (by omega) hu rfl
        exact ⟨w, List.mem_append_left _ hw, hcw⟩
      · have hv := (List.mem_cons.mp hv).resolve_left hne
        obtain ⟨w, hw, hcw⟩ := ih v.length (by omega) hv rfl
        exact ⟨w, List.mem_append_right _ hw, hcw⟩
    · exact ⟨t, List.splitOn_eq_singleton h ▸ List.mem_singleton.mpr rfl, hc⟩

theorem exists_mem_pieces {c : Call} {x : Char} (hcolon : x ≠ ':') (hcomma : x ≠ ',')
    (hx : x ∈ c.body) : ∃ t ∈ c.pieces, x ∈ t := by
  rw [pieces]
  cases c.shape with
  | single => exact ⟨c.body, List.mem_singleton.mpr rfl, hx⟩
  | list => exact exists_mem_of_mem_splitOn hcomma hx
  | range => exact exists_mem_of_mem_splitOn hcolon hx

theorem plain_of_parts {c : Call} (h : ∀ part ∈ c.parts, ∃ a d, LabelLike part a d) : c.Plain := by
  intro x hx
  by_cases hcomma : x = ','
  · exact .inr (.inl hcomma)
  by_cases hcolon : x = ':'
  · exact .inr (.inr (.inl hcolon))
  obtain ⟨t, ht, hxt⟩ := exists_mem_pieces hcolon hcomma hx
  obtain ⟨a, d, hlike⟩ := h (Text.trim t) (parts_eq c ▸ List.mem_map_of_mem ht)
  obtain ⟨l, r, e, hl, hr⟩ := exists_blanks t
  rw [e, List.mem_append, List.mem_append] at hxt
  rcases hxt with (hxt | hxt) | hxt
  · exact .inr (.inr (.inr (hl x hxt)))
  · exact .inl (hlike.isAlphanum x hxt)
  · exact .inr (.inr (.inr (hr x hxt)))

/-! ## one mode and the other -/

/-- the names of functions are written in capitals -/
theorem isUpper_of_function? {c : Call} {f : Function} (h : c.function? = some f) :
    ∀ x ∈ c.head, x.isUpper = true := by
  have hfind : Function.all.find? (fun f => f.name.toList = c.head) = some f := h
  have e := List.find?_some hfind
  have hupper : f.name.toList.all Char.isUpper = true := by cases f <;> rfl
  rw [← of_decide_eq_true e]
  exact List.all_eq_true.mp hupper

theorem Begins.strict {t head body rest : Text} (h : Begins .lenient t head body rest)
    (hf : (Call.mk head body).function?.isSome = true) : Begins .strict t head body rest := by
  obtain ⟨f, hf⟩ := Option.isSome_iff_exists.mp hf
  exact ⟨h.eq, h.length, isUpper_of_function? hf, fun x hx =>
    (acceptsBody_strict x).mpr fun e => h.notMem (e ▸ hx)⟩

theorem filter_begun {t : Text} {start : Nat} (h : ∀ e ∈ begun .strict start t, e.1.Plain) :
    (begun .lenient start t).filter (fun e => e.1.function?.isSome)
      = (begun .strict start t).filter fun e => e.1.function?.isSome ∧ e.1.Spaced := by
  induction t generalizing start with
  | nil => rfl
  | cons c t ih =>
    by_cases hs : ∃ head body rest, Begins .strict (c :: t) head body rest
    · obtain ⟨head, body, rest, hs⟩ := hs
      rw [begun_of_begins hs] at h ⊢
      obtain ⟨hplain, htail⟩ := List.forall_mem_cons.mp h
      by_cases hspace : (Call.mk head body).Spaced
      · have hl : Begins .lenient (c :: t) head body rest :=
          ⟨hs.eq, hs.length, hs.isAlpha, hplain.acceptsBody_iff.mpr hspace⟩
        rw [begun_of_begins hl, List.filter_cons, List.filter_cons, ih htail]
        simp only [hspace, and_true, Bool.decide_eq_true]
      · rw [begun_cons, List.filter_cons_of_neg (by simp [hspace]), ih htail]
        intro head' body' rest' hl
        obtain ⟨rfl, rfl⟩ := hs.unique hl
        exact hspace (hplain.acceptsBody_iff.mp hl.acceptsBody)
    · have hno := fun head body rest hb => hs ⟨head, body, rest, hb⟩
      rw [begun_cons hno] at h ⊢
      by_cases hl : ∃ head body rest, Begins .lenient (c :: t) head body rest
      · obtain ⟨head, body, rest, hl⟩ := hl
        have hnot : ¬(Call.mk head body).function?.isSome = true := fun hf =>
          hno head body rest (hl.strict hf)
        rw [begun_of_begins hl, List.filter_cons_of_neg (by exact hnot), ih h]
      · rw [begun_cons fun head body rest hb => hl ⟨head, body, rest, hb⟩, ih h]

theorem filter_spans {t : Text} (h : ∀ d ∈ all .strict t, d.Plain) :
    ((spans .lenient (Text.trim t)).filter fun e => e.1.function?.isSome).map
        (shiftedBy (Text.byteLength (t.takeWhile isBlank)))
      = (spans .strict t).filter fun e => e.1.function?.isSome ∧ e.1.Spaced := by
  obtain ⟨r, e, hr⟩ := exists_eq_trim_append t
  have hstrict : spans .strict t = begun .strict 0 t :=
    spansFrom_scan (fun d hd => (h d hd).notMem) 0
  have hlenient : spans .lenient (Text.trim t) = begun .lenient 0 (Text.trim t) := by
    refine spansFrom_scan (fun d hd hm => ?_) 0
    obtain ⟨_, _, _, _, hb⟩ := exists_begins_of_mem_all hd
    exact absurd (hb.acceptsBody _ hm) (by decide)
  have hbegun : begun .lenient (0 + Text.byteLength (t.takeWhile isBlank)) (Text.trim t)
      = begun .lenient 0 t := by
    conv => rhs; rw [e, List.append_assoc]
    rw [begun_blanks_append fun c hc => List.mem_takeWhile_imp hc, begun_append_blanks hr]
  rw [hstrict, ← filter_begun fun e he => h e.1 (mem_all_iff.mpr ⟨e.2, hstrict ▸ he⟩), ← hbegun,
    begun_add, hlenient, List.filter_map]
  rfl

theorem mem_all_strict_of_lenient {t : Text} (h : ∀ d ∈ all .strict t, d.Plain) {c : Call}
    (hc : c ∈ all .lenient (Text.trim t)) {f : Function} (hf : c.function? = some f) :
    c ∈ all .strict t := by
  obtain ⟨span, hspan⟩ := mem_all_iff.mp hc
  have hfilter : (c, span) ∈ (spans .lenient (Text.trim t)).filter fun e => e.1.function?.isSome :=
    List.mem_filter.mpr ⟨hspan, by show c.function?.isSome = true; rw [hf]; rfl⟩
  have hmem := List.mem_map_of_mem (f := shiftedBy (Text.byteLength (t.takeWhile isBlank))) hfilter
  rw [filter_spans h] at hmem
  exact mem_all_iff.mpr ⟨_, (List.mem_filter.mp hmem).1⟩

/-! ## values -/

section
variable {c : Call} {ps : List Position} (h : c.positions? = some ps)
include h

theorem ne_nil_of_positions? : ps ≠ [] := by
  obtain ⟨ls, hls, rfl⟩ := positions?_eq_some.mp h
  have hpieces : c.pieces ≠ [] := by
    rw [pieces]
    cases c.shape with
    | single => exact List.cons_ne_nil _ _
    | list => exact List.splitOn_ne_nil _ _
    | range => exact List.splitOn_ne_nil _ _
  obtain ⟨piece, hpiece⟩ := List.exists_mem_of_ne_nil _ hpieces
  obtain ⟨p, hp, _⟩ := exists_of_forall₂_of_mem_left hls.parts
    (parts_eq c ▸ List.mem_map_of_mem hpiece)
  exact List.ne_nil_of_mem (Shape.mem_span hls.two hp)

/-- a call looks for all positions that it names, if they have been seen -/
theorem mem_readPositions_iff {s : Snapshot} (hps : ∀ p ∈ ps, p ∈ s.keys) {p : Position} :
    p ∈ c.readPositions s ↔ p ∈ ps := by
  obtain ⟨ls, hls, rfl⟩ := positions?_eq_some.mp h
  by_cases hr : c.shape = .range
  · obtain ⟨a, b, rfl⟩ := List.length_eq_two.mp (hls.two hr)
    rw [hr] at hps ⊢
    rw [readPositions_of_range hr hls, List.mem_filter, Position.within_iff]
    exact and_iff_right_of_imp (hps p)
  · rw [readPositions_of_ne hr hls, Shape.span_of_ne hr]

end

/-- In content of which every strict call may be wired, the lenient calls of functions are the strict
ones without other blanks than spaces.  Each of them finds values, at all positions that it names and
no others, and these are wired. -/
theorem agree_and_resolve {content : Text} {origin : Position} {rows cols : Nat}
    (h : ∀ c ∈ all .strict content, ∃ ps, c.targets origin rows cols = .ok ps) :
    ((spans .lenient (Text.trim content)).filter fun e => e.1.function?.isSome).map
        (shiftedBy (Text.byteLength (content.takeWhile isBlank)))
      = ((spans .strict content).filter fun e => e.1.function?.isSome ∧ e.1.Spaced) ∧
    ∀ s : Snapshot, (∀ p, p ∈ s.keys ↔ ∃ c ∈ all .strict content, ∃ ps,
        c.targets origin rows cols = .ok ps ∧ p ∈ ps) →
      ∀ c ∈ all .lenient (Text.trim content), c.function?.isSome = true →
        (∃ ps, c.targets origin rows cols = .ok ps ∧ ∀ p, p ∈ c.readPositions s ↔ p ∈ ps) ∧
        (∀ p ∈ c.readPositions s, p ∈ s.keys) ∧ c.values s ≠ [] := by
  have hplain : ∀ d ∈ all .strict content, d.Plain := fun d hd => by
    obtain ⟨ps, hps⟩ := h d hd
    refine plain_of_parts fun part hpart => ?_
    obtain ⟨p, hp, _⟩ := (positions?_of_targets hps).2 part hpart
    exact ⟨_, _, (Position.ofLabel?_eq_some hp).1⟩
  refine ⟨filter_spans hplain, fun s hs c hc hf => ?_⟩
  obtain ⟨f, hf⟩ := Option.isSome_iff_exists.mp hf
  have hc' := mem_all_strict_of_lenient hplain hc hf
  obtain ⟨ps, hps⟩ := h c hc'
  have hpos := (positions?_of_targets hps).1
  have hkeys : ∀ p ∈ ps, p ∈ s.keys := fun p hp => (hs p).mpr ⟨c, hc', ps, hps, hp⟩
  have hread : ∀ p, p ∈ c.readPositions s ↔ p ∈ ps := fun p => mem_readPositions_iff hpos hkeys
  refine ⟨⟨ps, hps, hread⟩, fun p hp => hkeys p ((hread p).mp hp), fun hnil => ?_⟩
  obtain ⟨p, hp⟩ := List.exists_mem_of_ne_nil _ (ne_nil_of_positions? hpos)
  rw [values, List.map_eq_nil_iff] at hnil
  exact absurd ((hread p).mpr hp) (hnil ▸ List.not_mem_nil)

/-- of five calls, the third has a tab in its body, the fourth has no capitals, and the last is of no
function -/
theorem agree_and_resolve_tab : ∃ content : Text,
    content = "\t=REF( B1 )+SUM(A2:B3)-AVG(\tC1)+sum(D1)+ABC(D2)".toList ∧
    (all .strict content).map head = ["REF".toList, "SUM".toList, "AVG".toList, "ABC".toList] ∧
    (all .lenient (Text.trim content)).map head
      = ["REF".toList, "SUM".toList, "sum".toList, "ABC".toList] ∧
    ((spans .lenient (Text.trim content)).filter fun e => e.1.function?.isSome).map (shiftedBy 1)
      = [(⟨"REF".toList, " B1 ".toList⟩, 2, 11), (⟨"SUM".toList, "A2:B3".toList⟩, 12, 22)] ∧
    ∀ s : Snapshot, (∀ p, p ∈ s.keys ↔ ∃ c ∈ all .strict content, ∃ ps,
        c.targets ⟨0, 0⟩ 4 4 = .ok ps ∧ p ∈ ps) →
      ∀ c ∈ all .lenient (Text.trim content), c.function?.isSome = true → c.values s ≠ [] := by
  generalize hcontent : "\t=REF( B1 )+SUM(A2:B3)-AVG(\tC1)+sum(D1)+ABC(D2)".toList = content
  have hsome : ∀ c ∈ all .strict content, (c.targets ⟨0, 0⟩ 4 4).toOption.isSome = true := by
    rw [← hcontent]
    decide +kernel
  have hwired : ∀ c ∈ all .strict content, ∃ ps, c.targets ⟨0, 0⟩ 4 4 = .ok ps := fun c hc => by
    obtain ⟨ps, hps⟩ := Option.isSome_iff_exists.mp (hsome c hc)
    cases ht : c.targets ⟨0, 0⟩ 4 4 with
    | error f =>
      rw [ht] at hps
      cases hps
    | ok qs => exact ⟨qs, rfl⟩
  obtain ⟨hspans, hvalues⟩ := agree_and_resolve hwired
  have hmargin : Text.byteLength (content.takeWhile isBlank) = 1 := by
    rw [← hcontent]
    decide +kernel
  rw [hmargin] at hspans
  refine ⟨content, rfl, by rw [← hcontent]; decide +kernel, by rw [← hcontent]; decide +kernel,
    hspans.trans (by rw [← hcontent]; decide +kernel), fun s hs c hc hf => (hvalues s hs c hc hf).2.2⟩

end Call

end Worksheet
