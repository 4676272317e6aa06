import Worksheet.Proofs.Formula.Call
import Worksheet.Proofs.Formula.Word

/-!
# Bodies that are replaced

* `Call.flatMap_source` the stretches of a text make up the text;
* `Call.rebody`, `Call.render`
                       a stretch, and a text, with other bodies in its lenient calls;
* `Call.scan_render`   the calls are found again, with the other bodies;
* `Call.reword_eq_render`
                       to replace words in the bodies only is to replace them everywhere, if no word
                       of the rest is replaced;
* `Call.scan_reword`   so the calls are found again with words of their bodies replaced.
-/

namespace Worksheet

namespace Call

theorem flatMap_source (mode : Mode) (t : Text) : (scan mode t).flatMap source = t := by
  induction t using scan_induction mode with
  | nil => rfl
  | call t head body rest h ih =>
    rw [scan_of_begins h, List.flatMap_cons, ih, h.eq, source, text]
    simp only [List.append_assoc, List.cons_append, List.nil_append]
  | other c t h ih =>
    rw [scan_cons h, List.flatMap_cons, ih]
    rfl

/-! ## other bodies -/

def rebody (g : Call → Text) : Stretch Call → Stretch Call
  | .plain c => .plain c
  | .found call => .found ⟨call.head, g call⟩

/-- the text with other bodies -/
def render (g : Call → Text) (t : Text) : Text := ((scan .lenient t).map (rebody g)).flatMap source

section
variable {g : Call → Text}

theorem render_of_begins {t head body rest : Text} (h : Begins .lenient t head body rest) :
    render g t = head ++ '(' :: (g ⟨head, body⟩ ++ ')' :: render g rest) := by
  rw [render, scan_of_begins h, List.map_cons, List.flatMap_cons, rebody, source, text]
  simp only [List.append_assoc, List.cons_append, List.nil_append]
  rfl

theorem render_cons {c : Char} {t : Text}
    (h : ∀ head body rest, ¬Begins .lenient (c :: t) head body rest) :
    render g (c :: t) = c :: render g t := by
  rw [render, scan_cons h]
  rfl

/-- a character of the new text is one of the old, or a call begins there -/
theorem eq_cons_of_render {t u : Text} {c : Char} (h : render g t = c :: u) :
    (∃ t', t = c :: t' ∧ render g t' = u) ∨
      ∃ head body rest, Begins .lenient t head body rest ∧
        c :: u = head ++ '(' :: (g ⟨head, body⟩ ++ ')' :: render g rest) := by
  by_cases hb : ∃ head body rest, Begins .lenient t head body rest
  · obtain ⟨head, body, rest, hb⟩ := hb
    exact .inr ⟨head, body, rest, hb, h ▸ render_of_begins hb⟩
  · cases t with
    | nil => cases h
    | cons d t =>
      rw [render_cons fun head body rest h => hb ⟨head, body, rest, h⟩] at h
      obtain ⟨rfl, rfl⟩ := List.cons.inj h
      exact .inl ⟨t, rfl, rfl⟩

end

/-- a body does not go on into a call -/
theorem append_close_ne {b head r z : Text} (hb : '(' ∉ b)
    (hhead : ∀ c ∈ head, c.isAlpha = true) : b ++ ')' :: r ≠ head ++ '(' :: z := by
  intro h
  rcases List.append_eq_append_iff.mp h with ⟨s, rfl, e⟩ | ⟨s, rfl, e⟩
  · cases s with
    | nil => exact absurd (List.cons.inj e).1 (by decide)
    | cons c s =>
      obtain rfl := (List.cons.inj e).1
      exact absurd (hhead ')' (List.mem_append_right _ (List.mem_cons_self ..))) (by decide)
  · cases s with
    | nil => exact absurd (List.cons.inj e).1 (by decide)
    | cons c s =>
      obtain rfl := (List.cons.inj e).1
      exact hb (List.mem_append_right _ (List.mem_cons_self ..))

section
variable {g : Call → Text}

theorem eq_append_of_render {b t r : Text} (hb : ∀ c ∈ b, Mode.lenient.acceptsBody c = true)
    (h : render g t = b ++ ')' :: r) : ∃ r', t = b ++ ')' :: r' := by
  induction b generalizing t with
  | nil =>
    rcases eq_cons_of_render h with ⟨t', rfl, _⟩ | ⟨head, body, rest, hcall, e⟩
    · exact ⟨t', rfl⟩
    · exact absurd e (append_close_ne (b := []) List.not_mem_nil hcall.isAlpha)
  | cons c b ih =>
    rcases eq_cons_of_render h with ⟨t', rfl, ht'⟩ | ⟨head, body, rest, hcall, e⟩
    · obtain ⟨r', rfl⟩ := ih (fun d hd => hb d (List.mem_cons_of_mem _ hd)) ht'
      exact ⟨r', rfl⟩
    · exact absurd e (append_close_ne (b := c :: b) (fun hm => absurd (hb _ hm) (by decide))
        hcall.isAlpha)

/-- where no call was, none comes about -/
theorem not_begins_render {t : Text} (hno : ∀ head body rest, ¬Begins .lenient t head body rest)
    (head body rest : Text) : ¬Begins .lenient (render g t) head body rest := by
  intro h
  obtain ⟨x, y, z, rfl⟩ := List.length_eq_three.mp h.length
  have hopen : ∀ {c : Char}, c = '(' → c.isAlpha ≠ true := fun e => by rw [e]; decide
  -- a call that began after the first of these characters would have the bracket in its head
  have e0 : render g t = x :: y :: z :: '(' :: (body ++ ')' :: rest) := h.eq
  obtain ⟨t1, rfl, e1⟩ := (eq_cons_of_render e0).resolve_right fun ⟨hd, b, r, hb, _⟩ =>
    hno hd b r hb
  obtain ⟨t2, rfl, e2⟩ := (eq_cons_of_render e1).resolve_right fun ⟨hd, b, r, hb, e⟩ => by
    obtain ⟨x', y', z', rfl⟩ := List.length_eq_three.mp hb.length
    simp only [List.cons_append, List.cons.injEq] at e
    exact hopen e.2.2.1.symm (hb.isAlpha z' (by simp))
  obtain ⟨t3, rfl, e3⟩ := (eq_cons_of_render e2).resolve_right fun ⟨hd, b, r, hb, e⟩ => by
    obtain ⟨x', y', z', rfl⟩ := List.length_eq_three.mp hb.length
    simp only [List.cons_append, List.cons.injEq] at e
    exact hopen e.2.1.symm (hb.isAlpha y' (by simp))
  obtain ⟨t4, rfl, e4⟩ := (eq_cons_of_render e3).resolve_right fun ⟨hd, b, r, hb, e⟩ => by
    obtain ⟨x', y', z', rfl⟩ := List.length_eq_three.mp hb.length
    simp only [List.cons_append, List.cons.injEq] at e
    exact hopen e.1.symm (hb.isAlpha x' (by simp))
  obtain ⟨r', rfl⟩ := eq_append_of_render h.acceptsBody e4
  exact hno [x, y, z] body r' ⟨rfl, rfl, h.acceptsHead, h.acceptsBody⟩

theorem scan_render (hg : ∀ head b, (∀ c ∈ b, Mode.lenient.acceptsBody c = true) →
    ∀ c ∈ g ⟨head, b⟩, Mode.lenient.acceptsBody c = true) (t : Text) :
    scan .lenient (render g t) = (scan .lenient t).map (rebody g) := by
  induction t using scan_induction .lenient with
  | nil => rfl
  | call t head body rest h ih =>
    have h' : Begins .lenient (render g t) head (g ⟨head, body⟩) (render g rest) :=
      ⟨render_of_begins h, h.length, h.acceptsHead, hg head body h.acceptsBody⟩
    rw [scan_of_begins h', ih, scan_of_begins h, List.map_cons, rebody]
  | other c t h ih =>
    have hno := not_begins_render (g := g) h
    rw [render_cons h] at hno ⊢
    rw [scan_cons hno, ih, scan_cons h, List.map_cons, rebody]

/-- every new body stands in the text between its brackets -/
theorem exists_render_eq {c : Call} {t : Text} (h : c ∈ all .lenient t) :
    ∃ u v, render g t = u ++ '(' :: (g c ++ ')' :: v) := by
  induction t using scan_induction .lenient with
  | nil => cases h
  | call t head body rest hb ih =>
    rw [render_of_begins hb]
    rcases List.mem_cons.mp (all_of_begins hb ▸ h) with rfl | h
    · exact ⟨head, render g rest, rfl⟩
    · obtain ⟨u, v, e⟩ := ih h
      refine ⟨head ++ '(' :: (g ⟨head, body⟩ ++ ')' :: u), v, ?_⟩
      rw [e]
      simp only [List.append_assoc, List.cons_append]
  | other d t hno ih =>
    obtain ⟨u, v, e⟩ := ih (all_cons hno ▸ h)
    exact ⟨d :: u, v, (render_cons hno).trans (congrArg (d :: ·) e)⟩

end

/-! ## words in bodies -/

/-- a call with words of its body replaced -/
def reworded (f : Text → Text) (c : Call) : Text := reword f c.body

section
variable {f : Text → Text} {shown : Call → Text}

/-- Words are replaced in the bodies only, if none is replaced in what is left with other bodies,
behind a text in which none is replaced either. -/
theorem reword_append_flatMap (u : Text) (l : List (Stretch Call))
    (h : ∀ w ∈ words (u ++ (l.map (rebody shown)).flatMap source), f w = w) :
    reword f (u ++ l.flatMap source) = u ++ (l.map (rebody (reworded f))).flatMap source := by
  induction l generalizing u with
  | nil =>
    rw [List.map_nil, List.flatMap_nil, List.append_nil] at h
    rw [List.flatMap_nil, List.append_nil, reword_eq_self h]
    exact (List.append_nil u).symm
  | cons s l ih =>
    rw [List.map_cons, List.flatMap_cons] at h
    rw [List.map_cons, List.flatMap_cons, List.flatMap_cons]
    cases s with
    | plain c =>
      simp only [rebody, source, ← List.append_assoc] at h ⊢
      exact ih (u ++ [c]) h
    | found call =>
      obtain ⟨head, body⟩ := call
      have hopen : ('(' : Char).isAlphanum = false := by decide
      have hclose : (')' : Char).isAlphanum = false := by decide
      have e : ∀ b v : Text, u ++ (source (.found ⟨head, b⟩) ++ v)
          = (u ++ head) ++ '(' :: (b ++ ')' :: v) := fun b v => by
        simp only [source, text, List.append_assoc, List.cons_append, List.nil_append]
      rw [rebody, e, words_append_cons hopen, words_append_cons hclose] at h
      rw [rebody, e, e, reword_append_cons hopen, reword_append_cons hclose,
        reword_eq_self fun w hw => h w (List.mem_append_left _ hw)]
      refine congrArg (fun v => u ++ head ++ '(' :: (reword f body ++ ')' :: v)) ?_
      exact ih [] fun w hw => h w (List.mem_append_right _ (List.mem_append_right _ hw))

theorem reword_eq_render {t : Text} (h : ∀ w ∈ words (render shown t), f w = w) :
    reword f t = render (reworded f) t := by
  have hl := reword_append_flatMap [] (scan .lenient t) h
  rwa [flatMap_source] at hl

theorem mem_words_render {c : Call} {t : Text} (h : c ∈ all .lenient t) {w : Text}
    (hw : w ∈ words (shown c)) : w ∈ words (render shown t) := by
  obtain ⟨u, v, e⟩ := exists_render_eq (g := shown) h
  rw [e, words_append_cons (by decide), words_append_cons (by decide)]
  exact List.mem_append_right _ (List.mem_append_left _ hw)

end

section
variable {f : Text → Text} (hf : ∀ w a d, LabelLike w a d → ∃ a' d', LabelLike (f w) a' d')
include hf

/-- the characters of a text whose words are replaced by words -/
theorem forall_mem_reword {p : Char → Prop} (hp : ∀ c, c.isAlphanum = true → p c) {t : Text}
    (h : ∀ c ∈ t, p c) : ∀ c ∈ reword f t, p c := by
  induction t using word_induction with
  | nil => exact h
  | word w a d rest hw hrest ih =>
    obtain ⟨a', d', hw'⟩ := hf w a d hw
    rw [reword_word f hw hrest]
    intro c hc
    rcases List.mem_append.mp hc with hc | hc
    · exact hp c (hw'.isAlphanum c hc)
    · exact ih (fun c hc => h c (List.mem_append_right _ hc)) c hc
  | letters a rest _ ha hrest ih =>
    rw [reword_letters f ha hrest]
    intro c hc
    rcases List.mem_append.mp hc with hc | hc
    · exact h c (List.mem_append_left _ hc)
    · exact ih (fun c hc => h c (List.mem_append_right _ hc)) c hc
  | other c rest hc ih =>
    rw [reword_cons f hc]
    intro d hd
    rcases List.mem_cons.mp hd with rfl | hd
    · exact h d (List.mem_cons_self ..)
    · exact ih (fun c hc => h c (List.mem_cons_of_mem _ hc)) d hd

/-- the calls of a text in which words are replaced in the bodies of calls only -/
theorem scan_reword {shown : Call → Text} {t : Text}
    (h : ∀ w ∈ words (render shown t), f w = w) :
    scan .lenient (reword f t) = (scan .lenient t).map (rebody (reworded f)) := by
  rw [reword_eq_render h]
  refine scan_render (fun head b hb => ?_) t
  refine forall_mem_reword hf (fun c hc => ?_) hb
  show (c.isAlphanum || c == ',' || c == ':' || c == ' ' || c == '+') = true
  simp only [hc, Bool.true_or]

end

/-! ## where a call stands -/

theorem exists_begins_of_mem_all {mode : Mode} {call : Call} {t : Text} (h : call ∈ all mode t) :
    ∃ u t' rest, t = u ++ t' ∧ Begins mode t' call.head call.body rest := by
  induction t using scan_induction mode with
  | nil => cases h
  | call t head body rest hb ih =>
    rw [all_of_begins hb] at h
    rcases List.mem_cons.mp h with rfl | h
    · exact ⟨[], t, rest, rfl, hb⟩
    · obtain ⟨u, t', rest', rfl, hb'⟩ := ih h
      refine ⟨head ++ '(' :: (body ++ ')' :: u), t', rest', ?_, hb'⟩
      rw [hb.eq]
      simp only [List.append_assoc, List.cons_append]
  | other c t hno ih =>
    obtain ⟨u, t', rest, rfl, hb⟩ := ih (all_cons hno ▸ h)
    exact ⟨c :: u, t', rest, rfl, hb⟩

end Call

end Worksheet
