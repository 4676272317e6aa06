import Worksheet.Proofs.Formula.Relabel

/-!
# Words of a text

A word is a run of letters that a run of digits follows, both as long as can be.  Labels are words,
so that a label is replaced exactly where it is a word, and never in the middle of one:

* `wordAt?`            the word at this place, if it is to be found;
* `words`              the words of a text;
* `reword`             a text with another in the place of each of its words;
* `word_induction`     a text is walked through word by word;
* `stretches_word`, `stretches_letters`, `stretches_cons`
                       how words are found on the way;
* `words_append_cons`, `reword_append_cons`
                       the words on both sides of a character that belongs to none;
* `relabel_eq_reword`  the replacement of a label replaces words;
* `reword_reword`      two replacements, one after the other, are one;
* `reword_eq_iff`      two replacements are the same if they are for every word;
* `trim_reword`, `trim_relabel`
                       the blanks around a text are left alone;
* `labelLike_of_reword` a text that becomes one word was one;
* `spelledBy_trim_relabel` what spells a position spells the place to which it has moved.
-/

namespace Worksheet

instance (p : Position) (t : Text) : Decidable (p.SpelledBy t) :=
  inferInstanceAs (Decidable (t.map Char.toUpper = p.label))

/-! ## runs of characters -/

/-- what stands between lists is in one of them, or stands between two -/
theorem mem_of_mem_intercalate {α : Type} {a sep : α} {ls : List (List α)}
    (h : a ∈ List.intercalate [sep] ls) : a = sep ∨ ∃ l ∈ ls, a ∈ l := by
  induction ls with
  | nil => cases h
  | cons l ls ih =>
    cases ls with
    | nil =>
      rw [List.intercalate_singleton] at h
      exact .inr ⟨l, List.mem_singleton_self l, h⟩
    | cons l' ls =>
      rw [List.intercalate_cons_cons, List.append_assoc, List.mem_append, List.singleton_append,
        List.mem_cons] at h
      rcases h with h | h | h
      · exact .inr ⟨l, List.mem_cons_self .., h⟩
      · exact .inl h
      · exact (ih h).imp_right fun ⟨m, hm, ha⟩ => ⟨m, List.mem_cons_of_mem _ hm, ha⟩

theorem head?_all_cons {α : Type} {p : α → Bool} {a : α} {l : List α} :
    (a :: l).head?.all (!p ·) = true ↔ p a = false :=
  Iff.of_eq (Bool.not_eq_true' (p a))

/-- where neither a letter nor a digit comes next -/
theorem head?_all_of_isAlphanum {t : Text} (h : t.head?.all (!·.isAlphanum) = true) :
    t.head?.all (!·.isAlpha) = true ∧ t.head?.all (!·.isDigit) = true := by
  cases t with
  | nil => exact ⟨rfl, rfl⟩
  | cons c t =>
    have hc := head?_all_cons.mp h
    exact ⟨head?_all_cons.mpr (not_isAlpha_of_not_isAlphanum hc),
      head?_all_cons.mpr (not_isDigit_of_not_isAlphanum hc)⟩

theorem takeWhile_append_of_head? {α : Type} {p : α → Bool} {l rest : List α}
    (hl : ∀ a ∈ l, p a = true) (hrest : rest.head?.all (!p ·) = true) :
    (l ++ rest).takeWhile p = l := by
  rw [List.takeWhile_append_of_pos hl]
  cases rest with
  | nil => rw [List.takeWhile_nil, List.append_nil]
  | cons a rest =>
    rw [List.takeWhile_cons, head?_all_cons.mp hrest]
    exact List.append_nil l

theorem dropWhile_append_of_head? {α : Type} {p : α → Bool} {l rest : List α}
    (hl : ∀ a ∈ l, p a = true) (hrest : rest.head?.all (!p ·) = true) :
    (l ++ rest).dropWhile p = rest := by
  have e := List.takeWhile_append_dropWhile (p := p) (l := l ++ rest)
  rw [takeWhile_append_of_head? hl hrest] at e
  exact List.append_cancel_left e

theorem head?_dropWhile {α : Type} (p : α → Bool) (l : List α) :
    (l.dropWhile p).head?.all (!p ·) = true := by
  induction l with
  | nil => rfl
  | cons a l ih =>
    rw [List.dropWhile_cons]
    split_ifs with h
    · exact ih
    · exact head?_all_cons.mpr (Bool.eq_false_iff.mpr h)

namespace LabelLike
variable {w a d : Text} (h : LabelLike w a d)
include h

/-- a word begins with a letter -/
theorem exists_cons : ∃ c cs, w = c :: cs ∧ c.isAlpha = true := by
  obtain ⟨c, cs, e⟩ := List.exists_cons_of_ne_nil h.letters_ne_nil
  exact ⟨c, cs ++ d, by rw [h.eq, e, List.cons_append],
    h.isAlpha c (e ▸ List.mem_cons_self ..)⟩

theorem ne_nil : w ≠ [] := by
  obtain ⟨c, cs, e, _⟩ := h.exists_cons
  rw [e]
  exact List.cons_ne_nil c cs

/-- the letters of a word end where its digits begin -/
theorem head?_digits (rest : Text) : (d ++ rest).head?.all (!·.isAlpha) = true := by
  obtain ⟨c, cs, e⟩ := List.exists_cons_of_ne_nil h.digits_ne_nil
  have hc := Letter.not_isAlpha_of_isDigit (h.isDigit c (e ▸ List.mem_cons_self ..))
  rw [e, List.cons_append]
  exact head?_all_cons.mpr hc

theorem getLast? : ∃ c, w.getLast? = some c ∧ c.isAlpha = false := by
  obtain ⟨ds, c, e⟩ := List.eq_nil_or_concat d |>.resolve_left h.digits_ne_nil
  refine ⟨c, ?_, Letter.not_isAlpha_of_isDigit (h.isDigit c ?_)⟩
  · rw [h.eq, e, List.concat_eq_append, ← List.append_assoc, List.getLast?_concat]
  · rw [e, List.concat_eq_append]
    exact List.mem_append_right _ (List.mem_singleton_self c)

end LabelLike

/-! ## words -/

/-- the word at this place, if no letter comes before it and it is accepted -/
def wordAt? {α : Type} (accept : Text → Option α) (before : Option Char) (t : Text) :
    Option (α × Nat) :=
  let letters := t.takeWhile Char.isAlpha
  let digits := (t.dropWhile Char.isAlpha).takeWhile Char.isDigit
  if before.all (!·.isAlpha) ∧ letters ≠ [] ∧ digits ≠ [] then
    (accept (letters ++ digits)).map fun a => (a, (letters ++ digits).length)
  else none

def words (t : Text) : List Text := (stretches (wordAt? some) t).filterMap Stretch.found?

def reword (f : Text → Text) (t : Text) : Text :=
  (stretches (wordAt? fun w => some (f w)) t).flatMap fun
    | .plain c => [c]
    | .found w => w

section
variable {α : Type} {accept : Text → Option α}

theorem wordAt?_append {before : Option Char} (hb : before.all (!·.isAlpha) = true) {w a d : Text}
    (hw : LabelLike w a d) {rest : Text} (hrest : rest.head?.all (!·.isDigit) = true) :
    wordAt? accept before (w ++ rest) = (accept w).map fun x => (x, w.length) := by
  have hletters : (w ++ rest).takeWhile Char.isAlpha = a := by
    rw [hw.eq, List.append_assoc, takeWhile_append_of_head? hw.isAlpha (hw.head?_digits rest)]
  have hdigits : ((w ++ rest).dropWhile Char.isAlpha).takeWhile Char.isDigit = d := by
    rw [hw.eq, List.append_assoc, dropWhile_append_of_head? hw.isAlpha (hw.head?_digits rest),
      takeWhile_append_of_head? hw.isDigit hrest]
  rw [wordAt?, hletters, hdigits, ← hw.eq]
  exact if_pos ⟨hb, hw.letters_ne_nil, hw.digits_ne_nil⟩

/-- behind a letter no word begins -/
theorem wordAt?_of_isAlpha {b : Char} (hb : b.isAlpha = true) (t : Text) :
    wordAt? accept (some b) t = none := by
  refine if_neg fun h => ?_
  have hno : (!b.isAlpha) = true := h.1
  rw [hb] at hno
  cases hno

/-- a word begins with a letter -/
theorem wordAt?_of_head? (before : Option Char) {t : Text} (ht : t.head?.all (!·.isAlpha) = true) :
    wordAt? accept before t = none := by
  refine if_neg fun h => h.2.1 ?_
  exact takeWhile_append_of_head? (l := []) (fun _ h => absurd h List.not_mem_nil) ht

/-- letters that no digit follows are not a word -/
theorem wordAt?_of_letters (before : Option Char) {a : Text} (ha : ∀ c ∈ a, c.isAlpha = true)
    {rest : Text} (hrest : rest.head?.all (!·.isAlphanum) = true) :
    wordAt? accept before (a ++ rest) = none := by
  obtain ⟨halpha, hdigit⟩ := head?_all_of_isAlphanum hrest
  refine if_neg fun h => h.2.2 ?_
  rw [dropWhile_append_of_head? ha halpha]
  exact takeWhile_append_of_head? (l := []) (fun _ h => absurd h List.not_mem_nil) hdigit

theorem wordAt?_some {b : Char} (hb : b.isAlpha = false) (t : Text) :
    wordAt? accept (some b) t = wordAt? accept none t := by
  rw [wordAt?, wordAt?]
  simp only [Option.all_some, Option.all_none, hb, Bool.not_false]

/-- the label of a position is found where it is a word -/
theorem labelAt?_eq_wordAt? (p : Position) :
    labelAt? p = wordAt? fun w => if p.SpelledBy w then some () else none := by
  funext before t
  by_cases h : ∃ l rest, t = l ++ rest ∧ StandsAlone p before l rest
  · obtain ⟨l, rest, rfl, hl⟩ := h
    rw [labelAt?_append hl, wordAt?_append hl.before hl.labelLike hl.rest, if_pos hl.spelled]
    rfl
  · rw [labelAt?_eq_none fun l rest e hl => h ⟨l, rest, e, hl⟩, wordAt?]
    split_ifs with hw hs
    · refine absurd ?_ h
      refine ⟨_, (t.dropWhile Char.isAlpha).dropWhile Char.isDigit, ?_, hs, hw.1,
        head?_dropWhile ..⟩
      rw [List.append_assoc, List.takeWhile_append_dropWhile, List.takeWhile_append_dropWhile]
    · rfl
    · rfl

end

/-- a text is walked through word by word, and where there is none, over all letters at once or over
a single other character -/
theorem word_induction {motive : Text → Prop} (nil : motive [])
    (word : ∀ w a d rest, LabelLike w a d → rest.head?.all (!·.isDigit) = true → motive rest →
      motive (w ++ rest))
    (letters : ∀ a rest, a ≠ [] → (∀ c ∈ a, c.isAlpha = true) →
      rest.head?.all (!·.isAlphanum) = true → motive rest → motive (a ++ rest))
    (other : ∀ c rest, c.isAlpha = false → motive rest → motive (c :: rest))
    (t : Text) : motive t := by
  generalize hn : t.length = n
  induction n using Nat.strongRecOn generalizing t with
  | _ n ih =>
    have hsplit := List.takeWhile_append_dropWhile (p := Char.isAlpha) (l := t)
    have ha : ∀ c ∈ t.takeWhile Char.isAlpha, c.isAlpha = true := fun _ => List.mem_takeWhile_imp
    have hhead := head?_dropWhile Char.isAlpha t
    generalize t.takeWhile Char.isAlpha = a at hsplit ha
    generalize t.dropWhile Char.isAlpha = r at hsplit hhead
    subst hsplit
    rw [List.length_append] at hn
    by_cases hne : a = []
    · subst hne
      cases r with
      | nil => exact nil
      | cons c r =>
        rw [List.length_cons] at hn
        exact other c r (head?_all_cons.mp hhead) (ih r.length (by omega) r rfl)
    · have hpos := List.length_pos_iff.mpr hne
      have hsplit := List.takeWhile_append_dropWhile (p := Char.isDigit) (l := r)
      have hd : ∀ c ∈ r.takeWhile Char.isDigit, c.isDigit = true := fun _ => List.mem_takeWhile_imp
      have hhead' := head?_dropWhile Char.isDigit r
      generalize r.takeWhile Char.isDigit = d at hsplit hd
      generalize r.dropWhile Char.isDigit = rest at hsplit hhead'
      subst hsplit
      rw [List.length_append] at hn
      by_cases hdne : d = []
      · subst hdne
        refine letters a _ hne ha ?_ (ih rest.length (by omega) rest rfl)
        rw [List.nil_append] at hhead ⊢
        cases rest with
        | nil => rfl
        | cons c rest =>
          refine head?_all_cons.mpr (Bool.or_eq_false_iff.mpr ?_)
          exact ⟨head?_all_cons.mp hhead, head?_all_cons.mp hhead'⟩
      · rw [← List.append_assoc]
        exact word _ a d rest ⟨rfl, ha, hd, hne, hdne⟩ hhead' (ih rest.length (by omega) rest rfl)

/-! ## how words are found -/

section
variable {α : Type} {accept : Text → Option α}

theorem stretchesFrom_letters {a rest : Text} (ha : ∀ c ∈ a, c.isAlpha = true)
    (h : wordAt? accept none (a ++ rest) = none) :
    stretchesFrom (wordAt? accept) none 0 (a ++ rest)
      = a.map .plain ++ stretchesFrom (wordAt? accept) a.getLast? 0 rest := by
  rw [stretchesFrom_of_none none fun u c v e => ?_, Option.or_none]
  rw [Option.or_none]
  cases hu : u.getLast? with
  | none =>
    obtain rfl := List.getLast?_eq_none_iff.mp hu
    rw [List.nil_append] at e
    rw [← e]
    exact h
  | some b =>
    refine wordAt?_of_isAlpha (ha b ?_) _
    rw [e]
    exact List.mem_append_left _ (List.mem_of_getLast? hu)

theorem stretchesFrom_digits {d rest : Text} (hd : ∀ c ∈ d, c.isDigit = true)
    (before : Option Char) : stretchesFrom (wordAt? accept) before 0 (d ++ rest)
      = d.map .plain ++ stretchesFrom (wordAt? accept) (d.getLast?.or before) 0 rest := by
  refine stretchesFrom_of_none before fun u c v e => wordAt?_of_head? _ ?_
  refine head?_all_cons.mpr (Letter.not_isAlpha_of_isDigit (hd c ?_))
  rw [e]
  exact List.mem_append_right _ (List.mem_cons_self ..)

/-- a word is found as a whole, or not at all -/
theorem stretches_word {w a d rest : Text} (hw : LabelLike w a d)
    (hrest : rest.head?.all (!·.isDigit) = true) : stretches (wordAt? accept) (w ++ rest)
      = (accept w).elim (w.map .plain) (fun x => [.found x]) ++ stretches (wordAt? accept) rest := by
  have hat : wordAt? accept none (w ++ rest) = (accept w).map fun x => (x, w.length) :=
    wordAt?_append rfl hw hrest
  obtain ⟨b, hb, hlast⟩ := hw.getLast?
  have hbefore : stretchesFrom (wordAt? accept) (some b) 0 rest = stretches (wordAt? accept) rest :=
    stretchesFrom_congr (wordAt?_some hlast rest)
  cases hx : accept w with
  | some x =>
    rw [hx] at hat
    rw [stretches, stretchesFrom_found hw.ne_nil hat, hb, hbefore]
    rfl
  | none =>
    rw [hx] at hat
    have hd : d.getLast?.or a.getLast? = some b := by rw [← List.getLast?_append, ← hw.eq, hb]
    rw [hw.eq, List.append_assoc] at hat
    rw [stretches, hw.eq, List.append_assoc, stretchesFrom_letters hw.isAlpha hat,
      stretchesFrom_digits hw.isDigit, hd, hbefore, ← List.append_assoc, ← List.map_append]
    rfl

theorem stretches_letters {a rest : Text} (ha : ∀ c ∈ a, c.isAlpha = true)
    (hrest : rest.head?.all (!·.isAlphanum) = true) : stretches (wordAt? accept) (a ++ rest)
      = a.map .plain ++ stretches (wordAt? accept) rest := by
  have hhead := (head?_all_of_isAlphanum hrest).1
  have hnone : wordAt? accept none (a ++ rest) = none := wordAt?_of_letters none ha hrest
  have hbefore : stretchesFrom (wordAt? accept) a.getLast? 0 rest
      = stretches (wordAt? accept) rest :=
    stretchesFrom_congr ((wordAt?_of_head? _ hhead).trans (wordAt?_of_head? _ hhead).symm)
  rw [stretches, stretchesFrom_letters ha hnone, hbefore]

theorem stretches_cons {c : Char} (hc : c.isAlpha = false) (rest : Text) :
    stretches (wordAt? accept) (c :: rest) = .plain c :: stretches (wordAt? accept) rest := by
  rw [stretches, stretchesFrom_plain (wordAt?_of_head? none (head?_all_cons.mpr hc)),
    stretchesFrom_congr (wordAt?_some hc rest)]
  rfl

end

/-! ## replacements of words -/

theorem flatMap_plain {α : Type} (f : Stretch α → Text) (hf : ∀ c, f (.plain c) = [c]) (t : Text) :
    (t.map .plain).flatMap f = t := by
  rw [List.flatMap_map]
  simp only [hf, List.flatMap_singleton']

section
variable (f : Text → Text)

theorem reword_word {w a d rest : Text} (hw : LabelLike w a d)
    (hrest : rest.head?.all (!·.isDigit) = true) : reword f (w ++ rest) = f w ++ reword f rest := by
  rw [reword, stretches_word hw hrest]
  rfl

theorem reword_letters {a rest : Text} (ha : ∀ c ∈ a, c.isAlpha = true)
    (hrest : rest.head?.all (!·.isAlphanum) = true) : reword f (a ++ rest) = a ++ reword f rest := by
  rw [reword, stretches_letters ha hrest, List.flatMap_append, flatMap_plain _ fun _ => rfl]
  rfl

theorem reword_cons {c : Char} (hc : c.isAlpha = false) (rest : Text) :
    reword f (c :: rest) = c :: reword f rest := by
  rw [reword, stretches_cons hc]
  rfl

theorem head?_reword_eq_some {c : Char} (hc : c.isAlpha = false) {t : Text}
    (h : t.head? = some c) : (reword f t).head? = some c := by
  obtain ⟨u, rfl⟩ := List.head?_eq_some_iff.mp h
  rw [reword_cons f hc]
  rfl

end

theorem words_word {w a d rest : Text} (hw : LabelLike w a d)
    (hrest : rest.head?.all (!·.isDigit) = true) : words (w ++ rest) = w :: words rest := by
  rw [words, stretches_word hw hrest]
  rfl

theorem words_letters {a rest : Text} (ha : ∀ c ∈ a, c.isAlpha = true)
    (hrest : rest.head?.all (!·.isAlphanum) = true) : words (a ++ rest) = words rest := by
  rw [words, stretches_letters ha hrest, List.filterMap_append, List.filterMap_map]
  have hnone : a.filterMap (Stretch.found? ∘ Stretch.plain (α := Text)) = [] :=
    List.filterMap_eq_nil_iff.mpr fun _ _ => rfl
  rw [hnone]
  rfl

theorem words_cons {c : Char} (hc : c.isAlpha = false) (rest : Text) :
    words (c :: rest) = words rest := by
  rw [words, stretches_cons hc]
  rfl

theorem reword_congr {f g : Text → Text} {t : Text} (h : ∀ w ∈ words t, f w = g w) :
    reword f t = reword g t := by
  induction t using word_induction with
  | nil => rfl
  | word w a d rest hw hrest ih =>
    rw [words_word hw hrest] at h
    rw [reword_word f hw hrest, reword_word g hw hrest, h w (List.mem_cons_self ..),
      ih fun v hv => h v (List.mem_cons_of_mem _ hv)]
  | letters a rest _ ha hrest ih =>
    rw [words_letters ha hrest] at h
    rw [reword_letters f ha hrest, reword_letters g ha hrest, ih h]
  | other c rest hc ih =>
    rw [words_cons hc] at h
    rw [reword_cons f hc, reword_cons g hc, ih h]

theorem reword_id (t : Text) : reword (fun w => w) t = t := by
  induction t using word_induction with
  | nil => rfl
  | word w a d rest hw hrest ih => rw [reword_word _ hw hrest, ih]
  | letters a rest _ ha hrest ih => rw [reword_letters _ ha hrest, ih]
  | other c rest hc ih => rw [reword_cons _ hc, ih]

/-- a text none of whose words is changed stays as it is -/
theorem reword_eq_self {f : Text → Text} {t : Text} (h : ∀ w ∈ words t, f w = w) :
    reword f t = t :=
  (reword_congr h).trans (reword_id t)

theorem head?_append_cons {p : Char → Bool} {c : Char} (hp : p c = true) {rest : Text}
    (h : rest.head?.all p = true) (v : Text) : (rest ++ c :: v).head?.all p = true := by
  cases rest with
  | nil => exact hp
  | cons d rest => exact h

section
variable {c : Char} (hc : c.isAlphanum = false)
include hc

theorem words_append_cons (u v : Text) : words (u ++ c :: v) = words u ++ words v := by
  induction u using word_induction with
  | nil => exact words_cons (not_isAlpha_of_not_isAlphanum hc) v
  | word w a d rest hw hrest ih =>
    rw [List.append_assoc, words_word hw (head?_append_cons
      (by rw [not_isDigit_of_not_isAlphanum hc]; rfl) hrest v), ih, words_word hw hrest]
    rfl
  | letters a rest _ ha hrest ih =>
    rw [List.append_assoc, words_letters ha (head?_append_cons (by rw [hc]; rfl) hrest v), ih,
      words_letters ha hrest]
  | other d rest hd ih => rw [List.cons_append, words_cons hd, ih, words_cons hd]

theorem reword_append_cons (f : Text → Text) (u v : Text) :
    reword f (u ++ c :: v) = reword f u ++ c :: reword f v := by
  induction u using word_induction with
  | nil => exact reword_cons f (not_isAlpha_of_not_isAlphanum hc) v
  | word w a d rest hw hrest ih =>
    rw [List.append_assoc, reword_word f hw (head?_append_cons
      (by rw [not_isDigit_of_not_isAlphanum hc]; rfl) hrest v), ih, reword_word f hw hrest,
      List.append_assoc]
  | letters a rest _ ha hrest ih =>
    rw [List.append_assoc, reword_letters f ha (head?_append_cons (by rw [hc]; rfl) hrest v), ih,
      reword_letters f ha hrest, List.append_assoc]
  | other d rest hd ih => rw [List.cons_append, reword_cons f hd, ih, reword_cons f hd]; rfl

end

/-- to replace a label is to replace the words that spell it -/
theorem relabel_eq_reword (old new : Position) (t : Text) :
    relabel old new t = reword (fun w => if old.SpelledBy w then new.label else w) t := by
  rw [relabel, labelAt?_eq_wordAt?]
  induction t using word_induction with
  | nil => rfl
  | word w a d rest hw hrest ih =>
    rw [stretches_word hw hrest, reword_word _ hw hrest, ← ih]
    split_ifs with hs
    · rfl
    · exact List.flatMap_append.trans (congrArg (· ++ _) (flatMap_plain _ (fun _ => rfl) w))
  | letters a rest _ ha hrest ih =>
    rw [stretches_letters ha hrest, List.flatMap_append, ih, reword_letters _ ha hrest,
      flatMap_plain _ fun _ => rfl]
  | other c rest hc ih =>
    rw [stretches_cons hc, List.flatMap_cons, ih, reword_cons _ hc]
    rfl

/-- a word with which a label is replaced is a word -/
theorem labelLike_replaced (old new : Position) (w a d : Text) (h : LabelLike w a d) :
    ∃ a' d', LabelLike (if old.SpelledBy w then new.label else w) a' d' := by
  split_ifs
  · exact ⟨_, _, new.labelLike_label⟩
  · exact ⟨a, d, h⟩

section
variable {f : Text → Text} (hf : ∀ w a d, LabelLike w a d → ∃ a' d', LabelLike (f w) a' d')
include hf

/-- a text begins with a letter, a digit or neither, whether or not its words are replaced by words -/
theorem head?_reword (t : Text) : (reword f t).head?.map (fun c => (c.isAlpha, c.isDigit))
    = t.head?.map fun c => (c.isAlpha, c.isDigit) := by
  induction t using word_induction with
  | nil => rfl
  | word w a d rest hw hrest _ =>
    obtain ⟨a', d', hw'⟩ := hf w a d hw
    obtain ⟨c, cs, e, hc⟩ := hw.exists_cons
    obtain ⟨c', cs', e', hc'⟩ := hw'.exists_cons
    rw [reword_word f hw hrest, e', e, List.cons_append, List.cons_append, List.head?_cons,
      List.head?_cons, Option.map_some, Option.map_some, hc, hc', Letter.not_isDigit_of_isAlpha hc,
      Letter.not_isDigit_of_isAlpha hc']
  | letters a rest hne ha hrest _ =>
    obtain ⟨c, cs, rfl⟩ := List.exists_cons_of_ne_nil hne
    rw [reword_letters f ha hrest]
    rfl
  | other c rest hc _ =>
    rw [reword_cons f hc]
    rfl

theorem head?_reword_all (p : Bool × Bool → Bool) (t : Text) :
    (reword f t).head?.all (fun c => p (c.isAlpha, c.isDigit))
      = t.head?.all fun c => p (c.isAlpha, c.isDigit) := by
  have e := congrArg (Option.all p) (head?_reword hf t)
  rwa [Option.all_map, Option.all_map] at e

/-- what has been put in for a word is again found as a word -/
theorem reword_reword (g : Text → Text) (t : Text) :
    reword g (reword f t) = reword (fun w => g (f w)) t := by
  induction t using word_induction with
  | nil => rfl
  | word w a d rest hw hrest ih =>
    obtain ⟨a', d', hw'⟩ := hf w a d hw
    have hrest' : (reword f rest).head?.all (!·.isDigit) = true :=
      (head?_reword_all hf (fun k => !k.2) rest).trans hrest
    rw [reword_word f hw hrest, reword_word g hw' hrest', reword_word _ hw hrest, ih]
  | letters a rest _ ha hrest ih =>
    have hrest' : (reword f rest).head?.all (!·.isAlphanum) = true :=
      (head?_reword_all hf (fun k => !(k.1 || k.2)) rest).trans hrest
    rw [reword_letters f ha hrest, reword_letters g ha hrest', reword_letters _ ha hrest, ih]
  | other c rest hc ih => rw [reword_cons f hc, reword_cons g hc, reword_cons _ hc, ih]

end

/-- a text begins with one word at most -/
theorem LabelLike.append_inj {w a d w' a' d' rest rest' : Text} (hw : LabelLike w a d)
    (hw' : LabelLike w' a' d') (hrest : rest.head?.all (!·.isDigit) = true)
    (hrest' : rest'.head?.all (!·.isDigit) = true) (e : w ++ rest = w' ++ rest') :
    w = w' ∧ rest = rest' := by
  have hat : wordAt? some none (w ++ rest) = some (w, w.length) := wordAt?_append rfl hw hrest
  have hat' : wordAt? some none (w' ++ rest') = some (w', w'.length) :=
    wordAt?_append rfl hw' hrest'
  rw [e, hat'] at hat
  have hword : w' = w := (Prod.mk.inj (Option.some.inj hat)).1
  rw [hword] at e ⊢
  exact ⟨rfl, List.append_cancel_left e⟩

/-- words that are put in for words are put in for the same ones -/
theorem reword_eq_iff {f g : Text → Text}
    (hf : ∀ w a d, LabelLike w a d → ∃ a' d', LabelLike (f w) a' d')
    (hg : ∀ w a d, LabelLike w a d → ∃ a' d', LabelLike (g w) a' d') {t : Text} :
    reword f t = reword g t ↔ ∀ w ∈ words t, f w = g w := by
  refine ⟨fun e => ?_, reword_congr⟩
  induction t using word_induction with
  | nil => exact fun w hw => absurd hw List.not_mem_nil
  | word w a d rest hw hrest ih =>
    obtain ⟨_, _, hfw⟩ := hf w a d hw
    obtain ⟨_, _, hgw⟩ := hg w a d hw
    rw [reword_word f hw hrest, reword_word g hw hrest] at e
    obtain ⟨hword, htail⟩ := hfw.append_inj hgw
      ((head?_reword_all hf (fun k => !k.2) rest).trans hrest)
      ((head?_reword_all hg (fun k => !k.2) rest).trans hrest) e
    rw [words_word hw hrest]
    exact List.forall_mem_cons.mpr ⟨hword, ih htail⟩
  | letters a rest _ ha hrest ih =>
    rw [reword_letters f ha hrest, reword_letters g ha hrest] at e
    rw [words_letters ha hrest]
    exact ih (List.append_cancel_left e)
  | other c rest hc ih =>
    rw [reword_cons f hc, reword_cons g hc] at e
    rw [words_cons hc]
    exact ih (List.cons.inj e).2

/-! ## blanks around a text -/

theorem head?_trim (t : Text) : (Text.trim t).head?.all (!isBlank ·) = true := by
  cases e : Text.trim t with
  | nil => rfl
  | cons c cs =>
    obtain ⟨r, hr⟩ := List.rdropWhile_prefix isBlank (Text.trimStart t)
    have h := head?_dropWhile isBlank t
    have hstart : t.dropWhile isBlank = c :: (cs ++ r) := by
      rw [← List.cons_append, ← e]
      exact hr.symm
    rw [hstart] at h
    exact h

theorem getLast?_trim (t : Text) : (Text.trim t).getLast?.all (!isBlank ·) = true := by
  rw [Text.trim, Text.trimEnd, List.getLast?_reverse]
  exact head?_dropWhile isBlank _

theorem getLast?_append_all {α : Type} {p : α → Bool} {l l' : List α}
    (h : l.getLast?.all p = true) (h' : l'.getLast?.all p = true) :
    (l ++ l').getLast?.all p = true := by
  rw [List.getLast?_append]
  cases e : l'.getLast? with
  | none => exact h
  | some a =>
    rw [e] at h'
    exact h'

theorem getLast?_all_of_append {α : Type} {p : α → Bool} {l l' : List α}
    (h : (l ++ l').getLast?.all p = true) : l'.getLast?.all p = true := by
  rw [List.getLast?_append] at h
  cases e : l'.getLast? with
  | none => rfl
  | some a =>
    rw [e] at h
    exact h

section
variable {f : Text → Text}

theorem reword_blanks_append {l : Text} (hl : ∀ c ∈ l, isBlank c = true) (t : Text) :
    reword f (l ++ t) = l ++ reword f t := by
  induction l with
  | nil => rfl
  | cons c l ih =>
    rw [List.cons_append, reword_cons f (not_isAlpha_of_not_isAlphanum
      (not_isAlphanum_of_isBlank (hl c (List.mem_cons_self ..)))),
      ih fun d hd => hl d (List.mem_cons_of_mem _ hd), List.cons_append]

theorem reword_append_blanks {r : Text} (hr : ∀ c ∈ r, isBlank c = true) (t : Text) :
    reword f (t ++ r) = reword f t ++ r := by
  cases r with
  | nil => rw [List.append_nil, List.append_nil]
  | cons c r =>
    have e := reword_blanks_append (f := f) (fun d hd => hr d (List.mem_cons_of_mem _ hd)) []
    rw [List.append_nil] at e
    rw [reword_append_cons (not_isAlphanum_of_isBlank (hr c (List.mem_cons_self ..))), e]
    exact congrArg (fun u => reword f t ++ c :: u) (List.append_nil r)

variable (hf : ∀ w a d, LabelLike w a d → ∃ a' d', LabelLike (f w) a' d')
include hf

theorem reword_eq_nil {t : Text} (h : reword f t = []) : t = [] := by
  have e := head?_reword hf t
  rw [h] at e
  exact List.head?_eq_none_iff.mp (Option.map_eq_none_iff.mp e.symm)

theorem head?_reword_of_not_isBlank {t : Text} (h : t.head?.all (!isBlank ·) = true) :
    (reword f t).head?.all (!isBlank ·) = true := by
  cases t with
  | nil => rfl
  | cons c t =>
    by_cases hc : c.isAlphanum = true
    · have e := head?_reword_all hf (fun k => k.1 || k.2) (c :: t)
      cases e' : (reword f (c :: t)).head? with
      | none => rfl
      | some d =>
        rw [e'] at e
        exact not_isBlank_of_isAlphanum (e.trans hc)
    · rw [reword_cons f (not_isAlpha_of_not_isAlphanum (Bool.eq_false_iff.mpr hc))]
      exact h

theorem getLast?_reword_of_not_isBlank {t : Text} (h : t.getLast?.all (!isBlank ·) = true) :
    (reword f t).getLast?.all (!isBlank ·) = true := by
  induction t using word_induction with
  | nil => rfl
  | word w a d rest hw hrest ih =>
    obtain ⟨a', d', hw'⟩ := hf w a d hw
    obtain ⟨c, hc, _⟩ := hw'.getLast?
    rw [reword_word f hw hrest]
    refine getLast?_append_all ?_ (ih (getLast?_all_of_append h))
    rw [hc]
    exact not_isBlank_of_isAlphanum (hw'.isAlphanum c (List.mem_of_getLast? hc))
  | letters a rest _ ha hrest ih =>
    rw [reword_letters f ha hrest]
    refine getLast?_append_all ?_ (ih (getLast?_all_of_append h))
    cases hc : a.getLast? with
    | none => rfl
    | some c =>
      have hlast := ha c (List.mem_of_getLast? hc)
      exact not_isBlank_of_isAlphanum (by rw [Char.isAlphanum, hlast, Bool.true_or])
  | other c rest hc ih =>
    rw [reword_cons f hc]
    by_cases hne : rest = []
    · rw [hne] at h ⊢
      exact h
    · obtain ⟨d, u, e⟩ := List.exists_cons_of_ne_nil (mt (reword_eq_nil hf) hne)
      have hlast := ih (getLast?_all_of_append (l := [c]) h)
      rw [e] at hlast ⊢
      rw [List.getLast?_cons_cons]
      exact hlast

/-- the replacement of words does not touch the blanks around a text -/
theorem trim_reword (t : Text) : Text.trim (reword f t) = reword f (Text.trim t) := by
  obtain ⟨l, r, e, hl, hr⟩ := exists_blanks t
  conv => lhs; rw [e]
  rw [reword_append_blanks hr, reword_blanks_append hl]
  exact trim_append hl hr (head?_reword_of_not_isBlank hf (head?_trim t))
    (getLast?_reword_of_not_isBlank hf (getLast?_trim t))

/-- a text that has become one word was one word before -/
theorem labelLike_of_reword {t a d : Text} (h : LabelLike (reword f t) a d) :
    ∃ a' d', LabelLike t a' d' := by
  induction t using word_induction with
  | nil => exact absurd rfl h.ne_nil
  | word w a' d' rest hw hrest _ =>
    obtain ⟨_, _, hfw⟩ := hf w a' d' hw
    have hrest' := (head?_reword_all hf (fun k => !k.2) rest).trans hrest
    have e : f w ++ reword f rest = reword f (w ++ rest) ++ [] := by
      rw [reword_word f hw hrest, List.append_nil]
    obtain rfl := reword_eq_nil hf (hfw.append_inj h hrest' rfl e).2
    rw [List.append_nil]
    exact ⟨a', d', hw⟩
  | letters a' rest _ ha hrest _ =>
    rw [reword_letters f ha hrest] at h
    -- a digit would have to follow the letters
    have hnil : reword f rest = [] := by
      cases e : reword f rest with
      | nil => rfl
      | cons c cs =>
        have hc := (head?_reword_all hf (fun k => !(k.1 || k.2)) rest).trans hrest
        rw [e] at h hc
        have hno : (!c.isAlphanum) = true := hc
        rw [h.isAlphanum c (List.mem_append_right _ (List.mem_cons_self ..))] at hno
        cases hno
    rw [hnil, List.append_nil] at h
    obtain ⟨c, cs, hd⟩ := List.exists_cons_of_ne_nil h.digits_ne_nil
    have hdigit := h.isDigit c (hd ▸ List.mem_cons_self ..)
    have hmem : c ∈ a' := h.eq ▸ List.mem_append_right _ (hd ▸ List.mem_cons_self ..)
    rw [Letter.not_isDigit_of_isAlpha (ha c hmem)] at hdigit
    cases hdigit
  | other c rest hc _ =>
    rw [reword_cons f hc] at h
    obtain ⟨c', cs, e, hc'⟩ := h.exists_cons
    rw [(List.cons.inj e).1, hc'] at hc
    cases hc

end

/-! ## blanks around a label -/

section
variable (old new : Position)

theorem trim_relabel (t : Text) : Text.trim (relabel old new t) = relabel old new (Text.trim t) := by
  rw [relabel_eq_reword, relabel_eq_reword, trim_reword (labelLike_replaced old new)]

theorem spelledBy_trim_relabel {p : Position} {t : Text} (h : p.SpelledBy (Text.trim t)) :
    (Position.moved old new p).SpelledBy (Text.trim (relabel old new t)) := by
  rw [trim_relabel]
  exact spelledBy_relabel h

theorem trim_relabel_of_leadingZero {p : Position} {t : Text}
    (hp : Position.ofLabel? (Text.trim t) = some p) (h0 : Position.LeadingZero (Text.trim t)) :
    Text.trim (relabel old new t) = Text.trim t := by
  obtain ⟨hl, -, -⟩ := Position.ofLabel?_eq_some hp
  rw [trim_relabel, relabel_of_not_spelledBy hl (Position.not_spelledBy_of_leadingZero h0 old)]

end

/-- words end where letters follow digits, and a run of letters that no digit follows is none -/
example : reword (fun w => w.map Char.toUpper) "sum(a1:a10) aa1b2c3d x".toList
    = "sum(A1:A10) AA1B2C3d x".toList := by decide

end Worksheet
