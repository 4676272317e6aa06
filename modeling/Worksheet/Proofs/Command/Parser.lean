import Mathlib.Data.List.TakeDrop
import Worksheet.Command.Parser
import Worksheet.Proofs.Formula.Operands

/-!
# Lines written and read

* `Unbroken.splitLabel_trim`
                       a word is cut off from what follows it, which loses the blanks around it;
* `Command.ReadFrom`   what arguments say of a command;
* `Command.parse_eq_ok` a line is read as a command if it has its verb and arguments that say so of it;
* `Command.line`       a command written as a line;
* `Command.Writable`   no number is too large to be read, and no text has blanks around it;
* `Command.writable_of_readFrom`
                       so it is with every command that is read;
* `Command.line_read_back`
                       these, and no others, are read back from their lines.

A line is split twice in the same way: the verb is cut off, and then the label.  Each time only the
blanks around the rest are lost, so a text of several words, or of several lines, comes through.
-/

namespace Worksheet

/-! ## words -/

theorem trim_trim (t : Text) : Text.trim (Text.trim t) = Text.trim t :=
  trim_eq_self (head?_trim t) (getLast?_trim t)

theorem cut_of_notMem {c : Char} {t : Text} (h : c ∉ t) : Text.cut c t = (t, none) := by
  have hall : ∀ d ∈ t, (d != c) = true := fun d hd => bne_iff_ne.mpr fun e => h (e ▸ hd)
  rw [Text.cut, List.span_eq_takeWhile_dropWhile, List.takeWhile_eq_self_iff.mpr hall,
    List.dropWhile_eq_nil_iff.mpr hall]

theorem cut_append_cons {c : Char} {u : Text} (h : c ∉ u) (v : Text) :
    Text.cut c (u ++ c :: v) = (u, some v) := by
  have hall : ∀ d ∈ u, (d != c) = true := fun d hd => bne_iff_ne.mpr fun e => h (e ▸ hd)
  rw [Text.cut, List.span_eq_takeWhile_dropWhile, List.takeWhile_append_of_pos hall,
    List.dropWhile_append_of_pos hall, List.takeWhile_cons, List.dropWhile_cons, bne_self_eq_false,
    if_neg Bool.false_ne_true, if_neg Bool.false_ne_true, List.append_nil]

/-- a word: at least one character, and no blanks -/
structure Unbroken (w : Text) : Prop where
  ne_nil : w ≠ []
  not_isBlank : ∀ c ∈ w, isBlank c = false

namespace Unbroken
variable {w : Text} (h : Unbroken w)
include h

theorem notMem : ' ' ∉ w := fun hm => by
  have hblank := h.not_isBlank ' ' hm
  cases hblank

theorem trim_eq : Text.trim w = w := trim_of_not_isBlank h.not_isBlank

theorem splitLabel_eq : splitLabel w = (w, []) := by
  rw [splitLabel, cut_of_notMem h.notMem]

/-- of what follows a word only the blanks around it are lost -/
theorem splitLabel_trim (t : Text) : splitLabel (Text.trim (w ++ ' ' :: t)) = (w, Text.trim t) := by
  obtain ⟨l, r, e, hl, hr⟩ := exists_blanks t
  obtain ⟨hhead, hlast⟩ := ends_of_not_isBlank h.not_isBlank
  by_cases hnil : Text.trim t = []
  · have hblanks : ∀ c ∈ ' ' :: t, isBlank c = true :=
      List.forall_mem_cons.mpr ⟨rfl, Expression.trim_eq_nil_iff.mp hnil⟩
    have hw : Text.trim ([] ++ w ++ ' ' :: t) = w :=
      trim_append (fun _ hc => absurd hc List.not_mem_nil) hblanks hhead hlast
    rw [List.nil_append] at hw
    rw [hw, h.splitLabel_eq, hnil]
  · have hcore : Text.trim ([] ++ (w ++ ' ' :: (l ++ Text.trim t)) ++ r)
        = w ++ ' ' :: (l ++ Text.trim t) := by
      refine trim_append (fun _ hc => absurd hc List.not_mem_nil) hr ?_ ?_
      · obtain ⟨c, u, rfl⟩ := List.exists_cons_of_ne_nil h.ne_nil
        exact hhead
      · obtain ⟨u, c, hu⟩ := (List.eq_nil_or_concat' (Text.trim t)).resolve_left hnil
        have hc := getLast?_trim t
        rw [hu, List.getLast?_concat] at hc
        rw [hu, ← List.append_assoc l, ← List.cons_append, ← List.append_assoc w,
          List.getLast?_concat]
        exact hc
    have hline : w ++ ' ' :: t = [] ++ (w ++ ' ' :: (l ++ Text.trim t)) ++ r := by
      conv => lhs; rw [e]
      simp only [List.nil_append, List.append_assoc, List.cons_append]
    have htrim : Text.trim (l ++ Text.trim t ++ []) = Text.trim (Text.trim t) :=
      trim_surrounded hl (fun _ hc => absurd hc List.not_mem_nil) _
    rw [List.append_nil, trim_trim] at htrim
    rw [hline, hcore, splitLabel, cut_append_cons h.notMem]
    exact congrArg (w, ·) htrim

end Unbroken

theorem unbroken_of_isAlphanum {w : Text} (hne : w ≠ []) (h : ∀ c ∈ w, c.isAlphanum = true) :
    Unbroken w :=
  ⟨hne, fun c hc => Bool.not_eq_true' _ ▸ not_isBlank_of_isAlphanum (h c hc)⟩

theorem Verb.unbroken_name (v : Verb) : Unbroken v.name.toList := by
  have hblanks : v.name.toList.any isBlank = false := by cases v <;> rfl
  have hne : v.name.toList ≠ [] := by cases v <;> exact List.cons_ne_nil _ _
  exact ⟨hne, fun c hc => Bool.eq_false_iff.mpr (List.any_eq_false.mp hblanks c hc)⟩

theorem Verb.ofName?_eq_some {t : Text} {v : Verb} : ofName? t = some v ↔ t = v.name.toList := by
  constructor
  · intro h
    have hfind : all.find? (fun v => v.name.toList = t) = some v := h
    have hname := List.find?_some hfind
    exact (of_decide_eq_true hname).symm
  · rintro rfl
    cases v <;> decide

/-- a position whose label can be read -/
def Position.Small (p : Position) : Prop := p.row < maxCount ∧ p.col < maxCount

theorem Position.unbroken_label (p : Position) : Unbroken p.label := by
  refine unbroken_of_isAlphanum (fun e => ?_) p.labelLike_label.isAlphanum
  have h := p.labelLike_label.eq.symm.trans e
  exact Column.letters_ne_nil p.col (List.append_eq_nil_iff.mp h).1

theorem unbroken_letters (col : Nat) : Unbroken (Column.letters col) :=
  unbroken_of_isAlphanum (Column.letters_ne_nil col) fun c hc => by
    rw [Char.isAlphanum, Letter.isAlpha_of_isUpper (Column.isUpper_spell _ c hc), Bool.true_or]

theorem isDigit_toDigits (n : Nat) : ∀ c ∈ Nat.toDigits 10 n, c.isDigit = true := fun _ hc =>
  Nat.isDigit_of_mem_toDigits (by decide) (by decide) hc

theorem unbroken_toDigits (n : Nat) : Unbroken (Nat.toDigits 10 n) :=
  unbroken_of_isAlphanum Nat.toDigits_ne_nil fun c hc => by
    rw [Char.isAlphanum, isDigit_toDigits n c hc, Bool.or_true]

theorem trim_splitLabel (t : Text) : Text.trim (splitLabel t).2 = (splitLabel t).2 := by
  rw [splitLabel]
  split
  · exact trim_trim _
  · rfl

/-! ## numbers and letters -/

theorem count?_toDigits {n : Nat} (h : n ≤ maxCount) : Text.count? (Nat.toDigits 10 n) = some n := by
  have hstrip : Text.stripFirst '+' (Nat.toDigits 10 n) = Nat.toDigits 10 n := by
    obtain ⟨c, cs, e⟩ := List.exists_cons_of_ne_nil (Nat.toDigits_ne_nil (n := n) (b := 10))
    have hc : c.isDigit = true := isDigit_toDigits n c (e ▸ List.mem_cons_self ..)
    rw [e]
    exact if_neg fun e => by rw [e] at hc; cases hc
  have hvalue : Nat.ofDigitChars 10 (Nat.toDigits 10 n) 0 = n :=
    Nat.ofDigitChars_toDigits (by decide) (by decide)
  rw [Text.count?, hstrip, Text.digits?, hvalue, if_pos]
  exact ⟨Nat.toDigits_ne_nil, List.all_eq_true.mpr (isDigit_toDigits n), h⟩

theorem le_of_count? {t : Text} {n : Nat} (h : Text.count? t = some n) : n ≤ maxCount := by
  unfold Text.count? Text.digits? at h
  split_ifs at h with hdigits
  obtain rfl := Option.some.inj h
  exact hdigits.2.2

theorem ofLetters?_letters {i : Nat} (h : i < maxCount) :
    Column.ofLetters? (Column.letters i) = some i := by
  have hvalue : Column.value (Column.letters i) = i + 1 := Column.value_spell (i + 1)
  rw [Column.ofLetters?, hvalue, if_pos]
  · rfl
  · exact ⟨Column.letters_ne_nil i, List.all_eq_true.mpr fun c hc =>
      Letter.isAlpha_of_isUpper (Column.isUpper_spell _ c hc), h⟩

theorem lt_of_ofLetters? {t : Text} {i : Nat} (h : Column.ofLetters? t = some i) : i < maxCount := by
  unfold Column.ofLetters? at h
  split_ifs at h with hletters
  have hpos := Column.value_pos (List.all_eq_true.mp hletters.2.1) hletters.1
  have hi := Option.some.inj h
  omega

/-! ## arguments -/

theorem label_eq_ok {verb : Verb} {t : Text} {p : Position} :
    label verb t = .ok p ↔ Position.ofLabel? t = some p := by
  rw [label]
  split_ifs with h
  · rw [h]
    exact iff_of_false (fun h => by cases h) fun h => by cases h
  · cases Position.ofLabel? t with
    | none => exact iff_of_false (fun h => by cases h) fun h => by cases h
    | some q => exact ⟨fun h => congrArg some (Except.ok.inj h), fun h => congrArg _ (Option.some.inj h)⟩

theorem onlyLabel_eq_ok {verb : Verb} {t : Text} {p : Position} : onlyLabel verb t = .ok p ↔
    Position.ofLabel? (splitLabel t).1 = some p ∧ (splitLabel t).2 = [] := by
  rw [onlyLabel]
  split
  · next u e =>
    rw [e, label_eq_ok]
    exact (and_iff_left rfl).symm
  · next u rest hrest e =>
    rw [e]
    exact iff_of_false (fun h => by cases h) fun h => hrest h.2

theorem rowIndex_eq_ok {verb : Verb} {t : Text} {i : Nat} :
    rowIndex verb t = .ok i ↔ Text.count? t = some (i + 1) := by
  rw [rowIndex]
  split_ifs with h
  · rw [h]
    exact iff_of_false (fun h => by cases h) fun h => by cases h
  · split
    · next n e =>
      rw [e, Option.some_inj, Nat.succ_inj]
      exact ⟨Except.ok.inj, congrArg _⟩
    · next hno => exact iff_of_false (fun h => by cases h) (hno i)

theorem columnIndex_eq_ok {verb : Verb} {t : Text} {i : Nat} :
    columnIndex verb t = .ok i ↔ Column.ofLetters? t = some i := by
  rw [columnIndex]
  split_ifs with h
  · rw [h]
    exact iff_of_false (fun h => by cases h) fun h => by cases h
  · cases Column.ofLetters? t with
    | none => exact iff_of_false (fun h => by cases h) fun h => by cases h
    | some j => exact ⟨fun h => congrArg some (Except.ok.inj h), fun h => congrArg _ (Option.some.inj h)⟩

theorem noArguments_eq_ok {verb : Verb} {t : Text} {c d : Command} :
    noArguments verb t c = .ok d ↔ c = d ∧ t = [] := by
  rw [noArguments]
  split_ifs with h
  · rw [and_iff_left h]
    exact ⟨Except.ok.inj, congrArg _⟩
  · exact iff_of_false (fun h => by cases h) fun h' => h h'.2

theorem nonEmpty_eq_some {t u : Text} : nonEmpty t = some u ↔ t = u ∧ t ≠ [] := by
  rw [nonEmpty]
  split_ifs with h
  · exact iff_of_false (fun h => by cases h) fun h' => h'.2 h
  · rw [Option.some_inj, and_iff_left h]

/-! ## commands -/

namespace Command

def verb : Command → Verb
  | set .. => .set
  | clear _ => .clear
  | get _ => .get
  | raw _ => .raw
  | color .. => .color
  | insertRow _ => .insertRow
  | deleteRow _ => .deleteRow
  | insertColumn _ => .insertColumn
  | deleteColumn _ => .deleteColumn
  | filter .. => .filter
  | matrix => .matrix
  | functions => .functions
  | size => .size

/-- what the arguments of its verb say of a command -/
def ReadFrom (arguments : Text) : Command → Prop
  | set p content =>
    Position.ofLabel? (splitLabel arguments).1 = some p ∧ (splitLabel arguments).2 = content
  | clear p | get p | raw p =>
    Position.ofLabel? (splitLabel arguments).1 = some p ∧ (splitLabel arguments).2 = []
  | color p t | filter p t =>
    Position.ofLabel? (splitLabel arguments).1 = some p ∧ nonEmpty (splitLabel arguments).2 = t
  | insertRow i | deleteRow i => Text.count? arguments = some (i + 1)
  | insertColumn i | deleteColumn i => Column.ofLetters? arguments = some i
  | matrix | functions | size => arguments = []

theorem ofArguments_of_readFrom {t : Text} {c : Command} (h : c.ReadFrom t) :
    ofArguments c.verb t = .ok c := by
  unfold verb ofArguments
  cases c with
  | set p content =>
    obtain ⟨hp, rfl⟩ := h
    dsimp only
    rw [label_eq_ok.mpr hp]
    rfl
  | clear p | get p | raw p =>
    dsimp only
    rw [onlyLabel_eq_ok.mpr h]
    rfl
  | color p u | filter p u =>
    obtain ⟨hp, rfl⟩ := h
    dsimp only
    rw [label_eq_ok.mpr hp]
    rfl
  | insertRow i | deleteRow i =>
    dsimp only
    rw [rowIndex_eq_ok.mpr h]
    rfl
  | insertColumn i | deleteColumn i =>
    dsimp only
    rw [columnIndex_eq_ok.mpr h]
    rfl
  | matrix | functions | size => exact noArguments_eq_ok.mpr ⟨rfl, h⟩

theorem map_eq_ok {ε α β : Type} {f : α → β} {x : Except ε α} {b : β} :
    f <$> x = .ok b ↔ ∃ a, x = .ok a ∧ f a = b := by
  cases x with
  | error e => exact iff_of_false (fun h => by cases h) fun ⟨_, h, _⟩ => by cases h
  | ok a => exact ⟨fun h => ⟨a, rfl, Except.ok.inj h⟩, fun ⟨_, h, e⟩ => by cases h; rw [← e]; rfl⟩

theorem readFrom_of_ofArguments {verb : Verb} {t : Text} {c : Command}
    (h : ofArguments verb t = .ok c) : c.verb = verb ∧ c.ReadFrom t := by
  unfold ofArguments at h
  cases verb with
  | set | color | filter =>
    dsimp only at h
    rw [bind_pure_comp] at h
    obtain ⟨p, hp, rfl⟩ := map_eq_ok.mp h
    exact ⟨rfl, label_eq_ok.mp hp, rfl⟩
  | clear | get | raw =>
    obtain ⟨p, hp, rfl⟩ := map_eq_ok.mp h
    exact ⟨rfl, onlyLabel_eq_ok.mp hp⟩
  | insertRow | deleteRow =>
    obtain ⟨i, hi, rfl⟩ := map_eq_ok.mp h
    exact ⟨rfl, rowIndex_eq_ok.mp hi⟩
  | insertColumn | deleteColumn =>
    obtain ⟨i, hi, rfl⟩ := map_eq_ok.mp h
    exact ⟨rfl, columnIndex_eq_ok.mp hi⟩
  | matrix | functions | size =>
    obtain ⟨rfl, ht⟩ := noArguments_eq_ok.mp h
    exact ⟨rfl, ht⟩

/-- the verb and its arguments are cut apart in the same way as a label and what follows it -/
theorem parse_eq (line : Text) : parse line =
    match Verb.ofName? (splitLabel (Text.trim line)).1 with
    | some verb => ofArguments verb (splitLabel (Text.trim line)).2
    | none => .error (.unknownCommand (splitLabel (Text.trim line)).1) := by
  unfold parse splitLabel
  rcases Text.cut ' ' (Text.trim line) with ⟨name, rest | rest⟩ <;> rfl

theorem parse_eq_ok {line : Text} {c : Command} : parse line = .ok c ↔
    (splitLabel (Text.trim line)).1 = c.verb.name.toList ∧
      c.ReadFrom (splitLabel (Text.trim line)).2 := by
  rw [parse_eq]
  constructor
  · intro h
    split at h
    · next verb hverb =>
      obtain ⟨rfl, hread⟩ := readFrom_of_ofArguments h
      exact ⟨Verb.ofName?_eq_some.mp hverb, hread⟩
    · cases h
  · rintro ⟨hname, hread⟩
    rw [Verb.ofName?_eq_some.mpr hname]
    exact ofArguments_of_readFrom hread

/-! ## lines -/

/-- a label, and what follows it if there is something -/
def labelled (p : Position) : Option Text → Text
  | none => p.label
  | some t => p.label ++ ' ' :: t

def arguments : Command → Text
  | set p content => labelled p (some content)
  | clear p | get p | raw p => p.label
  | color p t | filter p t => labelled p t
  | insertRow i | deleteRow i => Nat.toDigits 10 (i + 1)
  | insertColumn i | deleteColumn i => Column.letters i
  | matrix | functions | size => []

def line (c : Command) : Text := c.verb.name.toList ++ ' ' :: c.arguments

/-- no number is too large to be read, and no text has blanks around it, or is given and empty -/
def Writable : Command → Prop
  | set p content => p.Small ∧ Text.trim content = content
  | clear p | get p | raw p => p.Small
  | color p t | filter p t => p.Small ∧ ∀ u, t = some u → u ≠ [] ∧ Text.trim u = u
  | insertRow i | deleteRow i | insertColumn i | deleteColumn i => i < maxCount
  | matrix | functions | size => True

theorem readFrom_trim_labelled {p : Position} (hp : p.Small) (t : Text) :
    Position.ofLabel? (splitLabel (Text.trim (p.label ++ ' ' :: t))).1 = some p ∧
      (splitLabel (Text.trim (p.label ++ ' ' :: t))).2 = Text.trim t := by
  rw [p.unbroken_label.splitLabel_trim]
  exact ⟨Position.ofLabel?_of_spelledBy p.spelledBy_label hp.1 hp.2, rfl⟩

theorem readFrom_trim_label {p : Position} (hp : p.Small) :
    Position.ofLabel? (splitLabel (Text.trim p.label)).1 = some p ∧
      (splitLabel (Text.trim p.label)).2 = [] := by
  rw [p.unbroken_label.trim_eq, p.unbroken_label.splitLabel_eq]
  exact ⟨Position.ofLabel?_of_spelledBy p.spelledBy_label hp.1 hp.2, rfl⟩

theorem readFrom_arguments {c : Command} (h : c.Writable) : c.ReadFrom (Text.trim c.arguments) := by
  cases c with
  | set p content =>
    obtain ⟨hlabel, hrest⟩ := readFrom_trim_labelled h.1 content
    exact ⟨hlabel, hrest.trans h.2⟩
  | clear p | get p | raw p => exact readFrom_trim_label h
  | color p t | filter p t =>
    cases t with
    | none =>
      obtain ⟨hlabel, hrest⟩ := readFrom_trim_label h.1
      exact ⟨hlabel, hrest ▸ rfl⟩
    | some t =>
      obtain ⟨hlabel, hrest⟩ := readFrom_trim_labelled h.1 t
      obtain ⟨hne, htrim⟩ := h.2 t rfl
      have htext := hrest.trans htrim
      exact ⟨hlabel, nonEmpty_eq_some.mpr ⟨htext, fun e => hne (htext.symm.trans e)⟩⟩
  | insertRow i | deleteRow i =>
    show Text.count? (Text.trim (Nat.toDigits 10 (i + 1))) = some (i + 1)
    rw [(unbroken_toDigits (i + 1)).trim_eq, count?_toDigits h]
  | insertColumn i | deleteColumn i =>
    show Column.ofLetters? (Text.trim (Column.letters i)) = some i
    rw [(unbroken_letters i).trim_eq, ofLetters?_letters h]
  | matrix | functions | size => rfl

theorem writable_of_readFrom {t : Text} {c : Command} (h : c.ReadFrom t) : c.Writable := by
  cases c with
  | set p content =>
    obtain ⟨hlabel, rfl⟩ := h
    exact ⟨Position.bounds_of_ofLabel? hlabel, trim_splitLabel t⟩
  | clear p | get p | raw p => exact Position.bounds_of_ofLabel? h.1
  | color p u | filter p u =>
    refine ⟨Position.bounds_of_ofLabel? h.1, fun v hv => ?_⟩
    obtain ⟨rfl, hne⟩ := nonEmpty_eq_some.mp (h.2.trans hv)
    exact ⟨hne, trim_splitLabel t⟩
  | insertRow i | deleteRow i => exact le_of_count? h
  | insertColumn i | deleteColumn i => exact lt_of_ofLetters? h
  | matrix | functions | size => trivial

theorem parse_of_trim_eq {c : Command} (h : c.Writable) {t : Text}
    (ht : Text.trim t = Text.trim c.line) : parse t = .ok c := by
  rw [parse_eq_ok, ht, line, c.verb.unbroken_name.splitLabel_trim]
  exact ⟨rfl, readFrom_arguments h⟩

/-- A command is read from some line just if no number in it is too large, and no text has blanks around
it or is given and empty.  Then it is read from its own line, with or without the blank at its end, and
whatever blanks stand around that. -/
theorem line_read_back (c : Command) : (c.Writable ↔ ∃ t, parse t = .ok c) ∧
    ∀ l r : Text, c.Writable → (∀ x ∈ l, isBlank x = true) → (∀ x ∈ r, isBlank x = true) →
      parse (l ++ c.line ++ r) = .ok c ∧ parse (l ++ Text.trim c.line ++ r) = .ok c := by
  refine ⟨⟨fun h => ⟨c.line, parse_of_trim_eq h rfl⟩, fun ⟨t, ht⟩ => ?_⟩, fun l r h hl hr => ⟨?_, ?_⟩⟩
  · exact writable_of_readFrom (parse_eq_ok.mp ht).2
  · exact parse_of_trim_eq h (trim_surrounded hl hr _)
  · exact parse_of_trim_eq h ((trim_surrounded hl hr _).trans (trim_trim _))

/-- content that is a command itself, with two spaces, a tab and a line break in it, for the last cell
that has a label, between an em space and a line break -/
theorem line_read_back_last :
    (set ⟨maxCount - 1, maxCount - 1⟩ "set A1  =1\t+\n2".toList).Writable ∧
    parse "\u2003set GKGWBYLWRXTLPO18446744073709551615 set A1  =1\t+\n2\n".toList
      = .ok (.set ⟨maxCount - 1, maxCount - 1⟩ "set A1  =1\t+\n2".toList) := by
  have hwritable : (set ⟨maxCount - 1, maxCount - 1⟩ "set A1  =1\t+\n2".toList).Writable :=
    ⟨⟨by decide, by decide⟩, by decide +kernel⟩
  have hparse := ((line_read_back _).2 ['\u2003'] ['\n'] hwritable
    (List.forall_mem_singleton.mpr rfl) (List.forall_mem_singleton.mpr rfl)).1
  refine ⟨hwritable, Eq.trans (congrArg parse ?_) hparse⟩
  decide +kernel

end Command

end Worksheet
