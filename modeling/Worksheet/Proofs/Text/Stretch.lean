import Mathlib.Data.List.Basic
import Worksheet.Proofs.Position.Label
import Worksheet.Text.Stretch

/-!
# Occurrences in a text and among its bytes

* `stretchesFrom_found`, `stretchesFrom_plain`
                       the walk where there is an occurrence, and where there is none;
* `Text.octets`        the bytes of a text in UTF-8;
* `Text.Boundary`      the number of a byte at which a character begins or the text ends;
* `Text.SliceAt`       the text between two such bytes;
* `Bytewise`           a test for an occurrence that can be made on the bytes;
* `stretches_octets`   the occurrences that are found among the bytes are those in the text.

Labels and calls are looked for in the bytes of a text, and what is found is cut out between two
byte numbers.  That comes to the same as with characters, for what is looked for begins and ends with
characters of one byte, and a byte of any other character is never taken for one of these.
-/

namespace Worksheet

/-! ## occurrences -/

section
variable {α : Type} {occurs : Option Char → Text → Option (α × Nat)}

/-- the characters of an earlier occurrence are passed over -/
theorem stretchesFrom_append (before : Option Char) (l rest : Text) :
    stretchesFrom occurs before l.length (l ++ rest)
      = stretchesFrom occurs (l.getLast?.or before) 0 rest := by
  induction l generalizing before with
  | nil => rfl
  | cons c l ih =>
    show stretchesFrom occurs (some c) l.length (l ++ rest) = _
    rw [ih, List.getLast?_cons]
    cases l.getLast? <;> rfl

theorem stretchesFrom_found {before : Option Char} {l rest : Text} {a : α} (hne : l ≠ [])
    (h : occurs before (l ++ rest) = some (a, l.length)) :
    stretchesFrom occurs before 0 (l ++ rest)
      = .found a :: stretchesFrom occurs l.getLast? 0 rest := by
  obtain ⟨c, l, rfl⟩ := List.exists_cons_of_ne_nil hne
  rw [List.cons_append] at h
  rw [List.cons_append, stretchesFrom, h]
  show _ :: stretchesFrom occurs (some c) l.length (l ++ rest) = _
  rw [stretchesFrom_append, List.getLast?_cons]
  cases l.getLast? <;> rfl

theorem stretchesFrom_plain {before : Option Char} {c : Char} {t : Text}
    (h : occurs before (c :: t) = none) :
    stretchesFrom occurs before 0 (c :: t) = .plain c :: stretchesFrom occurs (some c) 0 t := by
  rw [stretchesFrom, h]

theorem stretchesFrom_congr {before before' : Option Char} {t : Text}
    (h : occurs before t = occurs before' t) :
    stretchesFrom occurs before 0 t = stretchesFrom occurs before' 0 t := by
  cases t with
  | nil => rfl
  | cons c t => rw [stretchesFrom, stretchesFrom, h]

/-- where nothing is found, the characters are passed over one by one -/
theorem stretchesFrom_of_none {l rest : Text} (before : Option Char) (h : ∀ u c v, l = u ++ c :: v →
      occurs (u.getLast?.or before) (c :: v ++ rest) = none) :
    stretchesFrom occurs before 0 (l ++ rest)
      = l.map .plain ++ stretchesFrom occurs (l.getLast?.or before) 0 rest := by
  induction l generalizing before with
  | nil => rfl
  | cons c l ih =>
    have hlast : ∀ u : Text, (c :: u).getLast?.or before = u.getLast?.or (some c) := fun u => by
      rw [List.getLast?_cons]
      cases u.getLast? <;> rfl
    have hnone : occurs before (c :: (l ++ rest)) = none := h [] c l rfl
    rw [List.cons_append, stretchesFrom_plain hnone, ih (some c) fun u x v e => ?_, hlast,
      List.map_cons, List.cons_append]
    rw [← hlast]
    exact h (c :: u) x v (congrArg (c :: ·) e)

end

namespace Text

/-! ## bytes -/

/-- the bytes of a text, each as the character with its number, so that what is said of texts can be
said of their bytes -/
def octets (t : Text) : Text := t.flatMap fun c => (String.utf8EncodeChar c).map Char.ofUInt8

theorem octets_append (s t : Text) : octets (s ++ t) = octets s ++ octets t := List.flatMap_append
theorem octets_cons (c : Char) (t : Text) : octets (c :: t) = octets [c] ++ octets t :=
  octets_append [c] t

theorem length_octets (t : Text) : (octets t).length = byteLength t := by
  induction t with
  | nil => rfl
  | cons c t ih =>
    rw [octets_cons, List.length_append, ih, byteLength_cons, octets, List.flatMap_singleton,
      List.length_map, String.length_utf8EncodeChar]

/-- a character of one byte -/
def IsAscii (c : Char) : Prop := c.toNat < 128

instance (c : Char) : Decidable (IsAscii c) := inferInstanceAs (Decidable (_ < _))

theorem isAscii_of_isAlphanum {c : Char} (h : c.isAlphanum = true) : IsAscii c := by
  rw [Char.isAlphanum, Bool.or_eq_true, Letter.isAlpha_iff, Letter.isDigit_iff] at h
  show c.toNat < 128
  omega

theorem not_isAlpha_of_not_isAscii (c : Char) (h : ¬IsAscii c) : c.isAlpha = false :=
  Bool.eq_false_iff.mpr fun ha => h (isAscii_of_isAlphanum (by rw [Char.isAlphanum, ha]; rfl))

theorem not_isDigit_of_not_isAscii (c : Char) (h : ¬IsAscii c) : c.isDigit = false :=
  Bool.eq_false_iff.mpr fun hd => h (isAscii_of_isAlphanum (by
    rw [Char.isAlphanum, hd, Bool.or_true]))

theorem octets_singleton {c : Char} (h : IsAscii c) : octets [c] = [c] := by
  have hlt : c.val.toNat < 128 := h
  have e : Char.ofUInt8 (UInt8.ofNat c.val.toNat) = c := by
    refine Char.toNat_inj.mp ?_
    show (UInt8.ofNat c.val.toNat).toNat = c.val.toNat
    rw [UInt8.toNat_ofNat']
    omega
  rw [octets, List.flatMap_singleton, String.utf8EncodeChar, if_pos (by omega)]
  exact congrArg (fun c => [c]) e

/-- no byte of a character of several bytes is a character of one byte -/
theorem not_isAscii_of_mem_octets {c b : Char} (h : ¬IsAscii c) (hb : b ∈ octets [c]) :
    ¬IsAscii b := by
  have hlt : ¬c.val.toNat < 128 := h
  rw [octets, List.flatMap_singleton] at hb
  obtain ⟨n, hn, rfl⟩ := List.mem_map.mp hb
  show ¬n.toNat < 128
  rw [String.utf8EncodeChar, if_neg (by omega)] at hn
  split_ifs at hn <;> simp only [List.mem_cons, List.not_mem_nil, or_false] at hn
  · rcases hn with rfl | rfl <;> rw [UInt8.toNat_ofNat'] <;> omega
  · rcases hn with rfl | rfl | rfl <;> rw [UInt8.toNat_ofNat'] <;> omega
  · rcases hn with rfl | rfl | rfl | rfl <;> rw [UInt8.toNat_ofNat'] <;> omega

theorem octets_of_isAscii {t : Text} (h : ∀ c ∈ t, IsAscii c) : octets t = t := by
  induction t with
  | nil => rfl
  | cons c t ih =>
    rw [octets_cons, octets_singleton (h c (List.mem_cons_self ..)),
      ih fun d hd => h d (List.mem_cons_of_mem _ hd)]
    rfl

theorem octets_singleton_ne_nil (c : Char) : octets [c] ≠ [] := by
  rw [octets, List.flatMap_singleton]
  exact mt List.map_eq_nil_iff.mp String.utf8EncodeChar_ne_nil

/-- characters of one byte that stand at the beginning of the bytes also begin the text -/
theorem exists_eq_append_of_octets {l : Text} (hl : ∀ c ∈ l, IsAscii c) {t rest : Text}
    (h : octets t = l ++ rest) : ∃ u, t = l ++ u ∧ octets u = rest := by
  induction l generalizing t with
  | nil => exact ⟨t, rfl, h⟩
  | cons b l ih =>
    cases t with
    | nil => cases h
    | cons c t =>
      have hc : IsAscii c := by
        by_contra hc
        obtain ⟨d, ds, hds⟩ := List.exists_cons_of_ne_nil (octets_singleton_ne_nil c)
        rw [octets_cons, hds] at h
        refine not_isAscii_of_mem_octets hc (hds ▸ List.mem_cons_self ..) ?_
        exact (List.cons.inj h).1 ▸ hl b (List.mem_cons_self ..)
      rw [octets_cons, octets_singleton hc] at h
      obtain ⟨rfl, htail⟩ := List.cons.inj h
      obtain ⟨u, rfl, hu⟩ := ih (fun d hd => hl d (List.mem_cons_of_mem _ hd)) htail
      exact ⟨u, rfl, hu⟩

section
variable {p : Char → Bool} (hp : ∀ c, ¬IsAscii c → p c = false)
include hp

/-- the first byte is one of the characters in question if the first character is -/
theorem head?_octets_all (t : Text) : (octets t).head?.all (!p ·) = t.head?.all (!p ·) := by
  cases t with
  | nil => rfl
  | cons c t =>
    by_cases hc : IsAscii c
    · rw [octets_cons, octets_singleton hc]
      rfl
    · obtain ⟨d, ds, hds⟩ := List.exists_cons_of_ne_nil (octets_singleton_ne_nil c)
      have hd := not_isAscii_of_mem_octets hc (hds ▸ List.mem_cons_self ..)
      rw [octets_cons, hds]
      show (!p d) = !p c
      rw [hp c hc, hp d hd]

/-- the last byte is one of the characters in question if the last character is -/
theorem getLast?_octets_all (t : Text) :
    (octets t).getLast?.all (!p ·) = t.getLast?.all (!p ·) := by
  rcases List.eq_nil_or_concat' t with rfl | ⟨t, c, rfl⟩
  · rfl
  rw [octets_append, List.getLast?_concat]
  by_cases hc : IsAscii c
  · rw [octets_singleton hc, List.getLast?_concat]
  · obtain ⟨ds, d, hds⟩ := (List.eq_nil_or_concat' _).resolve_left (octets_singleton_ne_nil c)
    have hd := not_isAscii_of_mem_octets hc
      (hds ▸ List.mem_append_right _ (List.mem_singleton_self d))
    rw [hds, ← List.append_assoc, List.getLast?_concat]
    show (!p d) = !p c
    rw [hp c hc, hp d hd]

end

/-! ## slices -/

/-- a character begins at the byte `n`, or the text ends there -/
def Boundary (t : Text) (n : Nat) : Prop := ∃ u v, t = u ++ v ∧ byteLength u = n

/-- the bytes from `start` on and before `stop` are those of `v` -/
def SliceAt (t : Text) (start stop : Nat) (v : Text) : Prop :=
  ∃ u w, t = u ++ v ++ w ∧ byteLength u = start ∧ byteLength (u ++ v) = stop

theorem SliceAt.boundary {t v : Text} {start stop : Nat} (h : t.SliceAt start stop v) :
    t.Boundary start ∧ t.Boundary stop ∧ start ≤ stop := by
  obtain ⟨u, w, rfl, rfl, rfl⟩ := h
  refine ⟨⟨u, v ++ w, List.append_assoc .., rfl⟩, ⟨u ++ v, w, rfl, rfl⟩, ?_⟩
  rw [byteLength_append]
  exact Nat.le_add_right ..

end Text

/-! ## occurrences among the bytes -/

/-- What is found at some place of a text is also found at the same place of its bytes, and then it is
`g` of what was found.  Nothing is found in the middle of a character. -/
structure Bytewise {α : Type} (occurs : Option Char → Text → Option (α × Nat)) (g : α → α) :
    Prop where
  covers : ∀ {before t a n}, occurs before t = some (a, n) →
    ∃ l rest, t = l ++ rest ∧ l ≠ [] ∧ l.length = n
  octets : ∀ u t, occurs (Text.octets u).getLast? (Text.octets t)
    = (occurs u.getLast? t).map fun x => (g x.1, Text.byteLength (t.take x.2))
  inside : ∀ before {b} t, ¬Text.IsAscii b → occurs before (b :: t) = none

/-- the stretches of the bytes that one stretch of the text becomes -/
def Stretch.octets {α : Type} (g : α → α) : Stretch α → List (Stretch α)
  | .plain c => (Text.octets [c]).map .plain
  | .found a => [.found (g a)]

section
variable {α : Type} {occurs : Option Char → Text → Option (α × Nat)} {g : α → α}

theorem stretchesFrom_octets (h : Bytewise occurs g) (u t : Text) :
    stretchesFrom occurs (Text.octets u).getLast? 0 (Text.octets t)
      = (stretchesFrom occurs u.getLast? 0 t).flatMap (Stretch.octets g) := by
  generalize hn : t.length = n
  induction n using Nat.strongRecOn generalizing u t with
  | _ n ih =>
    have hat := h.octets u t
    cases hocc : occurs u.getLast? t with
    | some x =>
      obtain ⟨a, k⟩ := x
      obtain ⟨l, rest, rfl, hne, rfl⟩ := h.covers hocc
      have hpos := List.length_pos_iff.mpr hne
      have hne' : Text.octets l ≠ [] := fun e => by
        obtain ⟨c, cs, rfl⟩ := List.exists_cons_of_ne_nil hne
        rw [Text.octets_cons] at e
        exact Text.octets_singleton_ne_nil c (List.append_eq_nil_iff.mp e).1
      rw [hocc, Option.map_some, List.take_left, ← Text.length_octets, Text.octets_append] at hat
      rw [List.length_append] at hn
      rw [stretchesFrom_found hne hocc, Text.octets_append, stretchesFrom_found hne' hat,
        ih rest.length (by omega) l rest rfl]
      rfl
    | none =>
      cases t with
      | nil => rfl
      | cons c t =>
        rw [hocc, Option.map_none, Text.octets_cons] at hat
        have hne := Text.octets_singleton_ne_nil c
        have hlast : (Text.octets [c]).getLast?.or (Text.octets u).getLast?
            = (Text.octets [c]).getLast? := Option.or_eq_left_of_isSome (List.getLast?_isSome.mpr hne)
        rw [List.length_cons] at hn
        rw [stretchesFrom_plain hocc, Text.octets_cons, stretchesFrom_of_none _ ?_, hlast,
          ih t.length (by omega) [c] t rfl]
        · rfl
        · -- behind its first byte the character has only bytes at which nothing is found
          intro v b w e
          cases v with
          | nil =>
            rw [e] at hat
            exact hat
          | cons d v =>
            have hc : ¬Text.IsAscii c := fun hc => by
              rw [Text.octets_singleton hc] at e
              have hlen := congrArg List.length e
              simp at hlen
            refine h.inside _ _ (Text.not_isAscii_of_mem_octets hc ?_)
            rw [e]
            exact List.mem_append_right _ (List.mem_cons_self ..)

theorem stretches_octets (h : Bytewise occurs g) (t : Text) :
    stretches occurs (Text.octets t) = (stretches occurs t).flatMap (Stretch.octets g) :=
  stretchesFrom_octets h [] t

end

end Worksheet
