import Mathlib.Data.List.Pairwise
import Worksheet.Proofs.Formula.Modes

/-!
# Where calls stand in a text

* `Call.begins_octets`, `Call.begins_of_octets`
                       a call begins with the bytes of a text just if one begins with the text;
* `Call.bytewise_atStart?` so calls can be looked for in the bytes;
* `Call.Found`         a call that stands in a text between two of its bytes;
* `Call.Decomposes`    calls of a text, one behind the other, such that no byte outside of them begins a
                       call;
* `Call.Decomposes.unique`
                       there are no two lists of such calls;
* `Call.decomposed_uniquely`
                       the calls that a scan finds are such a list, and they are found among the bytes.

The scan passes over a call that it has found, and over one character where it finds none.  A call that
begins inside another one is not found, but no call is hidden by what only looks like the beginning of
one.
-/

namespace Worksheet

/-! ## bytes -/

namespace Text

theorem eq_nil_of_byteLength {t : Text} (h : byteLength t = 0) : t = [] := by
  cases t with
  | nil => rfl
  | cons c t =>
    have hpos := c.utf8Size_pos
    rw [byteLength_cons] at h
    omega

/-- a text is divided at a byte in one way -/
theorem append_inj_of_byteLength {u v u' v' : Text} (h : u ++ v = u' ++ v')
    (hlen : byteLength u = byteLength u') : u = u' ∧ v = v' := by
  rcases List.append_eq_append_iff.mp h with ⟨s, rfl, rfl⟩ | ⟨s, rfl, rfl⟩
  · rw [byteLength_append] at hlen
    obtain rfl := eq_nil_of_byteLength (t := s) (by omega)
    exact ⟨(List.append_nil u).symm, rfl⟩
  · rw [byteLength_append] at hlen
    obtain rfl := eq_nil_of_byteLength (t := s) (by omega)
    exact ⟨List.append_nil u', rfl⟩

theorem drop_octets (u v : Text) : (octets (u ++ v)).drop (byteLength u) = octets v := by
  rw [octets_append, ← length_octets, List.drop_left]

section
variable {p : Char → Prop} (hp : ∀ {c d}, ¬IsAscii c → ¬IsAscii d → (p c ↔ p d))
include hp

/-- a test that does not tell apart the characters of several bytes is passed by the bytes of a text if
it is passed by its characters -/
theorem forall_mem_octets (t : Text) : (∀ c ∈ octets t, p c) ↔ ∀ c ∈ t, p c := by
  induction t with
  | nil => exact iff_of_true (fun _ h => absurd h List.not_mem_nil) fun _ h =>
      absurd h List.not_mem_nil
  | cons c t ih =>
    rw [octets_cons, List.forall_mem_append, ih, List.forall_mem_cons]
    refine and_congr_left fun _ => ?_
    by_cases hc : IsAscii c
    · rw [octets_singleton hc, List.forall_mem_singleton]
    · obtain ⟨d, ds, hds⟩ := List.exists_cons_of_ne_nil (octets_singleton_ne_nil c)
      constructor
      · intro h
        have hd : d ∈ octets [c] := hds ▸ List.mem_cons_self ..
        exact (hp hc (not_isAscii_of_mem_octets hc hd)).mpr (h d hd)
      · intro h d hd
        exact (hp hc (not_isAscii_of_mem_octets hc hd)).mp h

end

theorem mem_octets {c : Char} (hc : IsAscii c) {t : Text} : c ∈ octets t ↔ c ∈ t := by
  have hne : ∀ {d d'}, ¬IsAscii d → ¬IsAscii d' → (d ≠ c ↔ d' ≠ c) := fun hd hd' =>
    iff_of_true (fun e => hd (e ▸ hc)) fun e => hd' (e ▸ hc)
  have hall := forall_mem_octets (p := (· ≠ c)) hne t
  rw [List.forall_mem_ne', List.forall_mem_ne'] at hall
  exact not_iff_not.mp hall

end Text

namespace Call

variable {mode : Mode}

/-! ## calls among the bytes -/

theorem acceptsBody_congr (mode : Mode) {c d : Char} (hc : ¬Text.IsAscii c) (hd : ¬Text.IsAscii d) :
    mode.acceptsBody c = true ↔ mode.acceptsBody d = true := by
  cases mode with
  | strict =>
    have hclose : ∀ {c}, ¬Text.IsAscii c → c ≠ ')' := fun h e => h (e ▸ by decide)
    rw [acceptsBody_strict, acceptsBody_strict]
    exact iff_of_true (hclose hc) (hclose hd)
  | lenient =>
    have hno : ∀ {c}, ¬Text.IsAscii c → Mode.lenient.acceptsBody c ≠ true := fun {c} h hbody => by
      have hor : (c.isAlphanum || c == ',' || c == ':' || c == ' ' || c == '+') = true := hbody
      simp only [Bool.or_eq_true, beq_iff_eq] at hor
      rcases hor with (((halnum | rfl) | rfl) | rfl) | rfl
      · exact h (Text.isAscii_of_isAlphanum halnum)
      all_goals exact h (by decide)
    exact iff_of_false (hno hc) (hno hd)

theorem forall_acceptsBody_octets (body : Text) :
    (∀ c ∈ Text.octets body, mode.acceptsBody c = true) ↔ ∀ c ∈ body, mode.acceptsBody c = true :=
  Text.forall_mem_octets (acceptsBody_congr mode) body

namespace Begins
variable {t head body rest : Text} (h : Begins mode t head body rest)
include h

theorem isAscii : ∀ c ∈ head, Text.IsAscii c := fun c hc =>
  Text.isAscii_of_isAlphanum (by rw [Char.isAlphanum, h.isAlpha c hc, Bool.true_or])

theorem octets_head : Text.octets head = head := Text.octets_of_isAscii h.isAscii

theorem byteLength_head : Text.byteLength head = 3 := by
  rw [← Text.length_octets, h.octets_head, h.length]

theorem byteLength_text :
    Text.byteLength (Call.mk head body).text = Text.byteLength body + 5 := by
  show Text.byteLength (head ++ '(' :: body ++ [')']) = _
  rw [Text.byteLength_append, Text.byteLength_append, h.byteLength_head, Text.byteLength_cons]
  show 3 + (1 + Text.byteLength body) + (1 + 0) = _
  omega

theorem length_text : (Call.mk head body).text.length = body.length + 5 := by
  simp only [text, List.length_append, List.length_cons, List.length_nil, h.length]
  omega

theorem eq_text : t = (Call.mk head body).text ++ rest := by
  rw [h.eq, text]
  simp only [List.append_assoc, List.cons_append, List.nil_append]

end Begins

theorem begins_octets {t head body rest : Text} (h : Begins mode t head body rest) :
    Begins mode (Text.octets t) head (Text.octets body) (Text.octets rest) where
  eq := by
    have hopen : Text.octets ['('] = ['('] := Text.octets_singleton (by decide)
    have hclose : Text.octets [')'] = [')'] := Text.octets_singleton (by decide)
    rw [h.eq, Text.octets_append, h.octets_head, Text.octets_cons, hopen, Text.octets_append,
      Text.octets_cons ')', hclose]
    rfl
  length := h.length
  acceptsHead := h.acceptsHead
  acceptsBody := (forall_acceptsBody_octets body).mpr h.acceptsBody

theorem begins_of_octets {t head body rest : Text} (h : Begins mode (Text.octets t) head body rest) :
    ∃ body' rest', Begins mode t head body' rest' := by
  have hstart : ∀ c ∈ head ++ ['('], Text.IsAscii c := by
    intro c hc
    rcases List.mem_append.mp hc with hc | hc
    · exact h.isAscii c hc
    · exact List.mem_singleton.mp hc ▸ by decide
  have hsplit : Text.octets t = head ++ ['('] ++ (body ++ ')' :: rest) := by
    rw [h.eq, List.append_assoc]
    rfl
  obtain ⟨u, rfl, hu⟩ := Text.exists_eq_append_of_octets hstart hsplit
  -- the bytes behind the opening bracket have a closing one, so the characters have one
  have hmem : ')' ∈ Text.octets u := hu ▸ List.mem_append_right _ (List.mem_cons_self ..)
  obtain ⟨body', rest', rfl, hbody'⟩ :=
    List.eq_append_cons_of_mem ((Text.mem_octets (by decide)).mp hmem)
  have hbody : Text.octets body' = body := by
    rw [Text.octets_append, Text.octets_cons ')', Text.octets_singleton (by decide)] at hu
    exact (append_cons_cancel (mt (Text.mem_octets (by decide)).mp hbody') h.notMem hu).1
  refine ⟨body', rest', ?_, h.length, h.acceptsHead, ?_⟩
  · rw [List.append_assoc]
    rfl
  · rw [← forall_acceptsBody_octets, hbody]
    exact h.acceptsBody

/-- the call with the bytes of its name and its body -/
def octets (c : Call) : Call := ⟨Text.octets c.head, Text.octets c.body⟩

theorem Begins.length_octets_text {t head body rest : Text} (h : Begins mode t head body rest) :
    (Call.mk head body).octets.text.length = Text.byteLength (Call.mk head body).text := by
  rw [octets, h.octets_head, (begins_octets h).length_text, Text.length_octets, h.byteLength_text]

theorem bytewise_atStart? (mode : Mode) : Bytewise (atStart? mode) octets where
  covers {before t a n} h := by
    by_cases hb : ∃ head body rest, Begins mode t head body rest
    · obtain ⟨head, body, rest, hb⟩ := hb
      rw [atStart?_of_begins hb] at h
      refine ⟨(Call.mk head body).text, rest, hb.eq_text, by simp [text], ?_⟩
      rw [hb.length_text]
      exact congrArg Prod.snd (Option.some.inj h)
    · rw [atStart?_eq_none fun head body rest hb' => hb ⟨head, body, rest, hb'⟩] at h
      cases h
  octets u t := by
    by_cases hb : ∃ head body rest, Begins mode t head body rest
    · obtain ⟨head, body, rest, hb⟩ := hb
      rw [atStart?_of_begins hb, atStart?_of_begins (begins_octets hb), Option.map_some, octets,
        hb.octets_head, ← hb.length_text, hb.eq_text, List.take_left, hb.byteLength_text,
        Text.length_octets]
    · rw [atStart?_eq_none fun head body rest hb' => hb ⟨head, body, rest, hb'⟩, Option.map_none]
      refine atStart?_eq_none (fun head body rest hb' => hb ?_) _
      obtain ⟨body', rest', hb'⟩ := begins_of_octets hb'
      exact ⟨head, body', rest', hb'⟩
  inside before b t hb := by
    refine atStart?_eq_none (fun head body rest h => hb ?_) before
    obtain ⟨x, y, z, rfl⟩ := List.length_eq_three.mp h.length
    rw [(List.cons.inj h.eq).1]
    exact h.isAscii x (List.mem_cons_self ..)

/-! ## spans -/

/-- A call with its first byte and the first byte after it stands in a text: its name and its body are
slices of the text, and so is the whole of it. -/
structure Found (mode : Mode) (t : Text) (e : Call × Nat × Nat) : Prop where
  slice : t.SliceAt e.2.1 e.2.2 e.1.text
  head : t.SliceAt e.2.1 (e.2.1 + 3) e.1.head
  body : t.SliceAt (e.2.1 + 4) (e.2.2 - 1) e.1.body
  length : e.1.head.length = 3
  acceptsHead : ∀ c ∈ e.1.head, mode.acceptsHead c = true
  acceptsBody : ∀ c ∈ e.1.body, mode.acceptsBody c = true ∧ c ≠ ')'

/-- Calls that stand one behind the other in a text, such that no byte outside of them is the first of a
call. -/
structure Decomposes (mode : Mode) (t : Text) (l : List (Call × Nat × Nat)) : Prop where
  found : ∀ e ∈ l, Found mode t e
  ordered : l.Pairwise fun e e' => e.2.2 ≤ e'.2.1
  covered : ∀ i, (∀ e ∈ l, ¬(e.2.1 ≤ i ∧ i < e.2.2)) →
    ∀ head body rest, ¬Begins mode ((Text.octets t).drop i) head body rest

namespace Found
variable {t : Text} {e e' : Call × Nat × Nat}

/-- the text divided at the first byte of the call -/
theorem exists_begins (h : Found mode t e) : ∃ u w, t = u ++ (e.1.text ++ w) ∧
    Text.byteLength u = e.2.1 ∧ e.2.2 = e.2.1 + Text.byteLength e.1.text ∧
    Begins mode (e.1.text ++ w) e.1.head e.1.body w := by
  obtain ⟨u, w, ht, hstart, hstop⟩ := h.slice
  refine ⟨u, w, by rw [ht, List.append_assoc], hstart, ?_, ?_, h.length, h.acceptsHead, fun c hc =>
    (h.acceptsBody c hc).1⟩
  · rw [← hstop, Text.byteLength_append, hstart]
  · simp only [text, List.append_assoc, List.cons_append, List.nil_append]

theorem start_lt_stop (h : Found mode t e) : e.2.1 < e.2.2 := by
  obtain ⟨u, w, -, -, hstop, hb⟩ := h.exists_begins
  rw [hstop, hb.byteLength_text]
  omega

/-- its first byte is the first of a call -/
theorem begins_drop (h : Found mode t e) :
    ∃ body rest, Begins mode ((Text.octets t).drop e.2.1) e.1.head body rest := by
  obtain ⟨u, w, ht, hstart, -, hb⟩ := h.exists_begins
  rw [ht, ← hstart, Text.drop_octets]
  exact ⟨_, _, begins_octets hb⟩

theorem eq_of_start (h : Found mode t e) (h' : Found mode t e') (hstart : e.2.1 = e'.2.1) :
    e = e' := by
  obtain ⟨u, w, ht, hu, hstop, hb⟩ := h.exists_begins
  obtain ⟨u', w', ht', hu', hstop', hb'⟩ := h'.exists_begins
  obtain ⟨-, hrest⟩ := Text.append_inj_of_byteLength (ht.symm.trans ht')
    (hu.trans (hstart.trans hu'.symm))
  rw [← hrest] at hb'
  obtain ⟨hhead, hbody⟩ := hb.unique hb'
  have hcall : e.1 = e'.1 := by
    obtain ⟨⟨head, body⟩, span⟩ := e
    obtain ⟨⟨head', body'⟩, span'⟩ := e'
    exact congrArg₂ Call.mk hhead hbody
  refine Prod.ext hcall (Prod.ext hstart ?_)
  rw [hstop, hstop', hstart, hcall]

end Found

namespace Decomposes
variable {t : Text} {l l' : List (Call × Nat × Nat)}

theorem eq_of_inside (h : Decomposes mode t l) {e e' : Call × Nat × Nat} (he : e ∈ l) (he' : e' ∈ l)
    (hle : e'.2.1 ≤ e.2.1) (hlt : e.2.1 < e'.2.2) : e = e' := by
  have hapart : l.Pairwise fun e e' => e.2.2 ≤ e'.2.1 ∨ e'.2.2 ≤ e.2.1 := h.ordered.imp .inl
  have : Std.Symm fun e e' : Call × Nat × Nat => e.2.2 ≤ e'.2.1 ∨ e'.2.2 ≤ e.2.1 :=
    ⟨fun _ _ h => h.symm⟩
  by_contra hne
  have hstop := (h.found e he).start_lt_stop
  rcases hapart.forall he he' hne with hbefore | hbehind <;> omega

/-- Of the calls in another list that cover the first byte of a call, one begins there: one that began
before it would stand in this list too. -/
theorem subset (h : Decomposes mode t l) (h' : Decomposes mode t l') {e : Call × Nat × Nat}
    (he : e ∈ l) : e ∈ l' := by
  generalize hn : e.2.1 = n
  induction n using Nat.strongRecOn generalizing e l l' with
  | _ n ih =>
    obtain ⟨body, rest, hb⟩ := (h.found e he).begins_drop
    obtain ⟨e', he', hle, hlt⟩ : ∃ e' ∈ l', e'.2.1 ≤ e.2.1 ∧ e.2.1 < e'.2.2 := by
      by_contra hno
      exact h'.covered e.2.1 (fun e' he' hin => hno ⟨e', he', hin⟩) _ _ _ hb
    rcases Nat.eq_or_lt_of_le hle with heq | hlt'
    · exact (h.found e he).eq_of_start (h'.found e' he') heq.symm ▸ he'
    · have hmem : e' ∈ l := ih e'.2.1 (hn ▸ hlt') h' h he' rfl
      exact h.eq_of_inside he hmem hle hlt ▸ he'

theorem pairwise_start (h : Decomposes mode t l) : l.Pairwise fun e e' => e.2.1 < e'.2.1 :=
  h.ordered.imp_of_mem fun he _ hle => Nat.lt_of_lt_of_le (h.found _ he).start_lt_stop hle

theorem unique (h : Decomposes mode t l) (h' : Decomposes mode t l') : l = l' := by
  have : Std.Irrefl fun e e' : Call × Nat × Nat => e.2.1 < e'.2.1 := ⟨fun _ => Nat.lt_irrefl _⟩
  have : Std.Antisymm fun e e' : Call × Nat × Nat => e.2.1 < e'.2.1 :=
    ⟨fun _ _ hlt hlt' => absurd hlt (Nat.lt_asymm hlt')⟩
  exact h.pairwise_start.eq_of_mem_iff h'.pairwise_start fun e => ⟨h.subset h', h'.subset h⟩

end Decomposes

/-! ## the spans of a scan -/

theorem le_start_of_mem_spansFrom {e : Call × Nat × Nat} {n : Nat} {l : List (Stretch Call)}
    (h : e ∈ spansFrom n l) : n ≤ e.2.1 := by
  induction l generalizing n with
  | nil => cases h
  | cons s l ih =>
    cases s with
    | plain c =>
      have hle := ih (n := n + c.utf8Size) h
      omega
    | found call =>
      rcases List.mem_cons.mp h with rfl | h
      · exact Nat.le_refl n
      · have hle := ih (n := n + Text.byteLength call.text) h
        omega

theorem pairwise_spansFrom (n : Nat) (l : List (Stretch Call)) :
    (spansFrom n l).Pairwise fun e e' => e.2.2 ≤ e'.2.1 := by
  induction l generalizing n with
  | nil => exact .nil
  | cons s l ih =>
    cases s with
    | plain c => exact ih _
    | found call => exact List.pairwise_cons.mpr ⟨fun e he => le_start_of_mem_spansFrom he, ih _⟩

theorem found_of_begins {u t head body rest : Text} (h : Begins mode t head body rest) :
    Found mode (u ++ t) (⟨head, body⟩, Text.byteLength u,
      Text.byteLength u + Text.byteLength (Call.mk head body).text) where
  slice := ⟨u, rest, by rw [h.eq_text, List.append_assoc], rfl, Text.byteLength_append ..⟩
  head := by
    refine ⟨u, '(' :: (body ++ ')' :: rest), by rw [h.eq, List.append_assoc], rfl, ?_⟩
    rw [Text.byteLength_append, h.byteLength_head]
  body := by
    have hopen : Text.byteLength (u ++ (head ++ ['('])) = Text.byteLength u + 4 := by
      rw [Text.byteLength_append, Text.byteLength_append, h.byteLength_head]
      rfl
    refine ⟨u ++ (head ++ ['(']), ')' :: rest, ?_, hopen, ?_⟩
    · rw [h.eq]
      simp only [List.append_assoc, List.cons_append, List.nil_append]
    · rw [Text.byteLength_append, hopen, h.byteLength_text]
      show Text.byteLength u + 4 + Text.byteLength body
        = Text.byteLength u + (Text.byteLength body + 5) - 1
      omega
  length := h.length
  acceptsHead := h.acceptsHead
  acceptsBody c hc := ⟨h.acceptsBody c hc, fun e => h.notMem (e ▸ hc)⟩

theorem found_of_mem_spansFrom (u t : Text) {e : Call × Nat × Nat}
    (h : e ∈ spansFrom (Text.byteLength u) (scan mode t)) : Found mode (u ++ t) e := by
  induction t using scan_induction mode generalizing u with
  | nil => cases h
  | call t head body rest hb ih =>
    rw [scan_of_begins hb] at h
    rcases List.mem_cons.mp h with rfl | h
    · exact found_of_begins hb
    · rw [hb.eq_text, ← List.append_assoc]
      refine ih (u ++ (Call.mk head body).text) ?_
      rwa [Text.byteLength_append]
  | other c t hno ih =>
    rw [scan_cons hno] at h
    have hu : Text.byteLength (u ++ [c]) = Text.byteLength u + c.utf8Size := Text.byteLength_append ..
    have hfound := ih (u ++ [c]) (hu ▸ h)
    rwa [List.append_assoc] at hfound

/-- no call begins with a byte behind the first of a character -/
theorem not_begins_inside {c : Char} {t : Text} {i : Nat} (hpos : 0 < i) (hlt : i < c.utf8Size)
    (head body rest : Text) : ¬Begins mode ((Text.octets (c :: t)).drop i) head body rest := by
  intro h
  have hlen : (Text.octets [c]).length = c.utf8Size := Text.length_octets [c]
  have hc : ¬Text.IsAscii c := fun hc => by
    rw [Text.octets_singleton hc, List.length_singleton] at hlen
    omega
  rw [Text.octets_cons, List.drop_append_of_le_length (by omega)] at h
  obtain ⟨b, bs, hbs⟩ : ∃ b bs, (Text.octets [c]).drop i = b :: bs :=
    List.exists_cons_of_ne_nil (mt List.drop_eq_nil_iff.mp (by omega))
  have hb : b ∈ Text.octets [c] := List.mem_of_mem_drop (hbs ▸ List.mem_cons_self ..)
  obtain ⟨x, y, z, rfl⟩ := List.length_eq_three.mp h.length
  rw [hbs] at h
  refine Text.not_isAscii_of_mem_octets hc hb ?_
  rw [(List.cons.inj h.eq).1]
  exact h.isAscii x (List.mem_cons_self ..)

/-- every byte at which a call begins is in a call that is found -/
theorem exists_mem_spansFrom {t : Text} {i : Nat} {head body rest : Text}
    (h : Begins mode ((Text.octets t).drop i) head body rest) (n : Nat) :
    ∃ e ∈ spansFrom n (scan mode t), e.2.1 ≤ n + i ∧ n + i < e.2.2 := by
  induction t using scan_induction mode generalizing n i with
  | nil =>
    rw [show Text.octets [] = [] from rfl, List.drop_nil] at h
    exact absurd h.length_rest (Nat.not_lt_zero _)
  | call t head' body' rest' hb ih =>
    rw [scan_of_begins hb]
    by_cases hi : i < Text.byteLength (Call.mk head' body').text
    · exact ⟨_, List.mem_cons_self .., Nat.le_add_right .., Nat.add_lt_add_left hi n⟩
    · obtain ⟨j, rfl⟩ := Nat.exists_eq_add_of_le (Nat.le_of_not_lt hi)
      rw [hb.eq_text, ← List.drop_drop, Text.drop_octets] at h
      obtain ⟨e, he, hin⟩ := ih h (n + Text.byteLength (Call.mk head' body').text)
      rw [Nat.add_assoc] at hin
      exact ⟨e, List.mem_cons_of_mem _ he, hin⟩
  | other c t hno ih =>
    rw [scan_cons hno]
    by_cases hi : i < c.utf8Size
    · exfalso
      cases i with
      | zero =>
        obtain ⟨body', rest', hb⟩ := begins_of_octets h
        exact hno head body' rest' hb
      | succ i => exact not_begins_inside (Nat.succ_pos i) hi head body rest h
    · obtain ⟨j, rfl⟩ := Nat.exists_eq_add_of_le (Nat.le_of_not_lt hi)
      have hdrop : (Text.octets (c :: t)).drop c.utf8Size = Text.octets t := Text.drop_octets [c] t
      rw [← List.drop_drop, hdrop] at h
      obtain ⟨e, he, hin⟩ := ih h (n + c.utf8Size)
      rw [Nat.add_assoc] at hin
      exact ⟨e, he, hin⟩

theorem decomposes_spans (mode : Mode) (t : Text) : Decomposes mode t (spans mode t) where
  found _ he := found_of_mem_spansFrom [] t he
  ordered := pairwise_spansFrom 0 _
  covered i hi head body rest h := by
    obtain ⟨e, he, hin⟩ := exists_mem_spansFrom h 0
    rw [Nat.zero_add] at hin
    exact hi e he hin

/-! ## the walk along the bytes -/

/-- the spans of the calls among stretches of single bytes, of which the first is the byte `i` -/
def byteSpansFrom : Nat → List (Stretch Call) → List (Nat × Nat)
  | _, [] => []
  | i, .plain _ :: rest => byteSpansFrom (i + 1) rest
  | i, .found call :: rest =>
    (i, i + call.text.length) :: byteSpansFrom (i + call.text.length) rest

/-- the spans of the calls that are found when the bytes of a text are walked along: at the end of a call
the walk goes on behind it, and where there is no call, at the next byte -/
def byteSpans (mode : Mode) (t : Text) : List (Nat × Nat) := byteSpansFrom 0 (scan mode (Text.octets t))

theorem byteSpansFrom_plain (i : Nat) (bs : Text) (rest : List (Stretch Call)) :
    byteSpansFrom i (bs.map .plain ++ rest) = byteSpansFrom (i + bs.length) rest := by
  induction bs generalizing i with
  | nil => rfl
  | cons b bs ih =>
    rw [List.map_cons, List.cons_append, byteSpansFrom, ih, List.length_cons, Nat.add_assoc,
      Nat.add_comm 1]

theorem byteSpansFrom_octets (i : Nat) (t : Text) :
    byteSpansFrom i ((scan mode t).flatMap (Stretch.octets octets))
      = (spansFrom i (scan mode t)).map Prod.snd := by
  induction t using scan_induction mode generalizing i with
  | nil => rfl
  | call t head body rest h ih =>
    rw [scan_of_begins h, List.flatMap_cons, spansFrom, List.map_cons, ← ih]
    show (i, i + (Call.mk head body).octets.text.length)
      :: byteSpansFrom (i + (Call.mk head body).octets.text.length) _ = _
    rw [h.length_octets_text]
    rfl
  | other c t h ih =>
    rw [scan_cons h, List.flatMap_cons, spansFrom, ← ih]
    show byteSpansFrom i ((Text.octets [c]).map .plain ++ _) = _
    rw [byteSpansFrom_plain, Text.length_octets]
    rfl

theorem byteSpans_eq (mode : Mode) (t : Text) : byteSpans mode t = (spans mode t).map Prod.snd := by
  rw [byteSpans, scan, stretches_octets (bytewise_atStart? mode)]
  exact byteSpansFrom_octets 0 t

/-- The calls that a scan finds are the only list of calls that stand one behind the other in a text,
between bytes at which characters begin, such that no byte outside of them begins a call.  They are
found where the walk along the bytes finds them. -/
theorem decomposed_uniquely (mode : Mode) (t : Text) :
    (∀ l, Decomposes mode t l ↔ l = spans mode t) ∧
    byteSpans mode t = (spans mode t).map Prod.snd :=
  ⟨fun _ => ⟨fun h => h.unique (decomposes_spans mode t), fun h => h ▸ decomposes_spans mode t⟩,
    byteSpans_eq mode t⟩

/-- a body that is broken off at a character of two bytes hides no call behind it -/
example : spans .lenient "ABC(é:REF(A1)".toList = [(⟨"REF".toList, "A1".toList⟩, 7, 14)] := by
  decide +kernel

end Call

end Worksheet
