import Mathlib.Data.List.Chain
import Mathlib.Data.Set.Finite.Basic
import Mathlib.Logic.Relation
import Worksheet.ReadGraph

/-!
# What a search for a cycle says

A depth-first search that does not find the origin has seen a set of positions that is closed: with
each position it has all that is read there.  It comes to its end while the depth that it may go to
exceeds the number of readers not yet seen.  A search that finds the origin has come to it along a
path.

* `ReadGraph.IsPath`   a path that follows the graph and has no position twice;
* `ReadGraph.Finds`    the search comes to its end, with a given outcome, if it may go deep enough;
* `ReadGraph.search_deeper` an outcome does not depend on how much deeper the search might go;
* `ReadGraph.path_of_search`
                       a search with success has followed a path, of which nothing had been seen;
* `ReadGraph.Explored` between two sets of positions seen lies a part of the graph that is closed
                       and does not have the origin;
* `ReadGraph.search_ends` a search that may go deep enough ends, and without success it explores;
* `ReadGraph.findCycle_isSome_iff`
                       a cycle is found exactly if there is one;
* `ReadGraph.found_iff_reached`
                       so it is in every graph in which the search can reach finitely many positions.
-/

namespace Worksheet

/-! ## searching a list -/

section
variable {σ α β : Type} {f g : σ → α → Option (σ × Option β)} {s t : σ} {a : α} {as : List α}

theorem firstFound_cons_of_failure (h : f s a = some (t, none)) :
    firstFound f s (a :: as) = firstFound f t as := by
  rw [firstFound, h]

theorem firstFound_cons_of_success {b : β} (h : f s a = some (t, some b)) :
    firstFound f s (a :: as) = some (t, some b) := by
  rw [firstFound, h]

/-- either the first member fails and the others are searched, or it succeeds -/
theorem firstFound_cons_eq_some {r : σ × Option β} (h : firstFound f s (a :: as) = some r) :
    (∃ u, f s a = some (u, none) ∧ firstFound f u as = some r) ∨
      ∃ t b, r = (t, some b) ∧ f s a = some (t, some b) := by
  match hf : f s a with
  | none => rw [firstFound, hf] at h; cases h
  | some (u, none) => exact .inl ⟨u, rfl, (firstFound_cons_of_failure hf).symm.trans h⟩
  | some (t, some b) =>
    exact .inr ⟨t, b, (Option.some.inj ((firstFound_cons_of_success hf).symm.trans h)).symm, rfl⟩

theorem firstFound_mono (hfg : ∀ s a r, f s a = some r → g s a = some r) {r : σ × Option β}
    (h : firstFound f s as = some r) : firstFound g s as = some r := by
  induction as generalizing s with
  | nil => exact h
  | cons a as ih =>
    rcases firstFound_cons_eq_some h with ⟨u, hfail, hrest⟩ | ⟨t, b, rfl, hfound⟩
    · rw [firstFound_cons_of_failure (hfg _ _ _ hfail)]
      exact ih hrest
    · exact firstFound_cons_of_success (hfg _ _ _ hfound)

/-- a member is searched without success -/
def Fails (f : σ → α → Option (σ × Option β)) (s t : σ) : Prop := ∃ a, f s a = some (t, none)

theorem fails_of_firstFound (h : firstFound f s as = some (t, none)) :
    Relation.ReflTransGen (Fails f) s t := by
  induction as generalizing s with
  | nil => cases h; exact .refl
  | cons a as ih =>
    rcases firstFound_cons_eq_some h with ⟨u, hfail, hrest⟩ | ⟨_, _, hr, _⟩
    · exact .head ⟨a, hfail⟩ (ih hrest)
    · cases hr

/-- what is found is found at a member of the list, after failures -/
theorem exists_of_firstFound {b : β} (h : firstFound f s as = some (t, some b)) :
    ∃ a ∈ as, ∃ u, Relation.ReflTransGen (Fails f) s u ∧ f u a = some (t, some b) := by
  induction as generalizing s with
  | nil => cases h
  | cons a as ih =>
    rcases firstFound_cons_eq_some h with ⟨u, hfail, hrest⟩ | ⟨_, _, hr, hfound⟩
    · obtain ⟨x, hx, u', hu', hfx⟩ := ih hrest
      exact ⟨x, List.mem_cons_of_mem _ hx, u', .head ⟨a, hfail⟩ hu', hfx⟩
    · cases hr
      exact ⟨a, List.mem_cons_self .., s, .refl, hfound⟩

end

namespace ReadGraph

/-- from one position to another, each position reads the next, and none comes twice -/
structure IsPath (reads : Position → List Position) (p q : Position) (path : List Position) :
    Prop where
  head : path.head? = some p
  last : path.getLast? = some q
  follows : path.IsChain fun p q => q ∈ reads p
  nodup : path.Nodup

/-- the search ends with `path`, however deep it may go beyond a certain depth -/
def Finds (reads : Position → List Position) (origin target : Position)
    (path : Option (List Position)) : Prop :=
  ∃ n, ∀ depth, n ≤ depth → ∃ seen, search reads origin depth [] target = some (seen, path)

section
variable {reads : Position → List Position} {origin : Position}

theorem IsPath.reaches {p q : Position} {path : List Position} (h : IsPath reads p q path) :
    Relation.ReflTransGen (fun p q => q ∈ reads p) p q := by
  cases path with
  | nil => cases h.head
  | cons x path =>
    obtain rfl := Option.some.inj h.head
    refine List.relationReflTransGen_of_exists_isChain_cons path h.follows ?_
    exact Option.some.inj ((List.getLast?_eq_some_getLast _).symm.trans h.last)

/-! ## one step of a search -/

variable {depth : Nat} {seen seen' : List Position} {p : Position}

/-- the outcome of a search that enters a position and goes on from there -/
theorem search_succ_eq_some {r : List Position × Option (List Position)}
    (h : search reads origin (depth + 1) seen p = some r) :
    p = origin ∧ r = (seen, some [p]) ∨ p ≠ origin ∧ p ∈ seen ∧ r = (seen, none) ∨
      p ≠ origin ∧ p ∉ seen ∧ ∃ seen' path, r = (seen', path.map (p :: ·)) ∧
        firstFound (search reads origin depth) (p :: seen) (reads p) = some (seen', path) := by
  rw [search] at h
  split_ifs at h with ho hs
  · exact .inl ⟨ho, (Option.some.inj h).symm⟩
  · exact .inr (.inl ⟨ho, hs, (Option.some.inj h).symm⟩)
  · obtain ⟨⟨seen', path⟩, hfound, rfl⟩ := Option.map_eq_some_iff.mp h
    exact .inr (.inr ⟨ho, hs, seen', path, rfl, hfound⟩)

theorem search_deeper {r : List Position × Option (List Position)}
    (h : search reads origin depth seen p = some r) {depth' : Nat} (hle : depth ≤ depth') :
    search reads origin depth' seen p = some r := by
  induction depth generalizing depth' seen p r with
  | zero => cases h
  | succ depth ih =>
    obtain ⟨depth', rfl⟩ : ∃ n, depth' = n + 1 := ⟨depth' - 1, by omega⟩
    rw [search]
    rcases search_succ_eq_some h with ⟨ho, rfl⟩ | ⟨ho, hs, rfl⟩ | ⟨ho, hs, seen', path, rfl, hfound⟩
    · rw [if_pos ho]
    · rw [if_neg ho, if_pos hs]
    · rw [if_neg ho, if_neg hs,
        firstFound_mono (fun _ _ _ hq => ih hq (Nat.le_of_succ_le_succ hle)) hfound]
      rfl

theorem finds_of_search {target : Position} {path : Option (List Position)}
    (h : search reads origin depth [] target = some (seen, path)) :
    Finds reads origin target path :=
  ⟨depth, fun _ hle => ⟨seen, search_deeper h hle⟩⟩

theorem Finds.unique {target : Position} {path path' : Option (List Position)}
    (h : Finds reads origin target path) (h' : Finds reads origin target path') : path = path' := by
  obtain ⟨n, hn⟩ := h
  obtain ⟨n', hn'⟩ := h'
  obtain ⟨seen, hs⟩ := hn (max n n') (Nat.le_max_left ..)
  obtain ⟨seen', hs'⟩ := hn' (max n n') (Nat.le_max_right ..)
  exact (Prod.mk.inj (Option.some.inj (hs.symm.trans hs'))).2

/-! ## searches with success -/

/-- what each failure leaves seen, all of them leave seen -/
theorem mem_of_fails {f : List Position → Position → Option (List Position × Option (List Position))}
    (hf : ∀ seen q seen', f seen q = some (seen', none) → ∀ x ∈ seen, x ∈ seen')
    (h : Relation.ReflTransGen (Fails f) seen seen') : ∀ x ∈ seen, x ∈ seen' := by
  induction h with
  | refl => exact fun _ hx => hx
  | tail _ hlast ih =>
    obtain ⟨q, hq⟩ := hlast
    exact fun x hx => hf _ q _ hq x (ih x hx)

/-- what has been seen is not forgotten -/
theorem mem_seen_of_search (h : search reads origin depth seen p = some (seen', none)) :
    ∀ x ∈ seen, x ∈ seen' := by
  induction depth generalizing seen seen' p with
  | zero => cases h
  | succ depth ih =>
    rcases search_succ_eq_some h with ⟨_, hr⟩ | ⟨_, _, hr⟩ | ⟨_, _, t, path, hr, hfound⟩
    · cases hr
    · cases hr
      exact fun _ hx => hx
    · obtain ⟨rfl, hpath⟩ := Prod.mk.inj hr
      rw [Option.map_eq_none_iff.mp hpath.symm] at hfound
      have hall := mem_of_fails (fun _ _ _ hq => ih hq) (fails_of_firstFound hfound)
      exact fun x hx => hall x (List.mem_cons_of_mem _ hx)

theorem path_of_search {path : List Position}
    (h : search reads origin depth seen p = some (seen', some path)) :
    IsPath reads p origin path ∧ ∀ q ∈ path, q = origin ∨ q ∉ seen := by
  induction depth generalizing seen seen' p path with
  | zero => cases h
  | succ depth ih =>
    rcases search_succ_eq_some h with ⟨rfl, hr⟩ | ⟨_, _, hr⟩ | ⟨ho, hs, t, found, hr, hfound⟩
    · cases hr
      refine ⟨⟨rfl, rfl, List.IsChain.singleton p, List.nodup_singleton p⟩, fun q hq => ?_⟩
      exact .inl (List.mem_singleton.mp hq)
    · cases hr
    · obtain ⟨rfl, hpath⟩ := Prod.mk.inj hr
      obtain ⟨rest, rfl, rfl⟩ := Option.map_eq_some_iff.mp hpath.symm
      obtain ⟨q, hq, u, hu, hsearch⟩ := exists_of_firstFound hfound
      obtain ⟨hrest, hfresh⟩ := ih hsearch
      have hseen : ∀ x ∈ p :: seen, x ∈ u := mem_of_fails (fun _ _ _ => mem_seen_of_search) hu
      have hnot : p ∉ rest := fun hmem =>
        (hfresh p hmem).elim ho fun hu => hu (hseen p (List.mem_cons_self ..))
      refine ⟨⟨rfl, ?_, ?_, List.nodup_cons.mpr ⟨hnot, hrest.nodup⟩⟩, fun x hx => ?_⟩
      · rw [List.getLast?_cons, hrest.last]
        rfl
      · refine List.isChain_cons.mpr ⟨fun x hx => ?_, hrest.follows⟩
        rw [hrest.head] at hx
        exact Option.some.inj hx ▸ hq
      · rcases List.mem_cons.mp hx with rfl | hx
        · exact .inr hs
        · exact (hfresh x hx).imp_right fun hu hmem => hu (hseen x (List.mem_cons_of_mem _ hmem))

/-! ## searches without success -/

/-- the positions seen in between are read to the end, and the origin is not one of them -/
structure Explored (reads : Position → List Position) (origin : Position)
    (seen seen' : List Position) : Prop where
  mono : ∀ p ∈ seen, p ∈ seen'
  closed : ∀ p ∈ seen', p ∈ seen ∨ p ≠ origin ∧ ∀ q ∈ reads p, q ∈ seen'

theorem Explored.refl (seen : List Position) : Explored reads origin seen seen :=
  ⟨fun _ h => h, fun _ h => .inl h⟩

theorem Explored.trans {seen'' : List Position} (h : Explored reads origin seen seen')
    (h' : Explored reads origin seen' seen'') : Explored reads origin seen seen'' where
  mono p hp := h'.mono p (h.mono p hp)
  closed p hp := by
    rcases h'.closed p hp with hp | hp
    · exact (h.closed p hp).imp_right fun hp => ⟨hp.1, fun q hq => h'.mono q (hp.2 q hq)⟩
    · exact .inr hp

/-- nothing is reached from a position that has been explored but what has been -/
theorem Explored.not_reaches (h : Explored reads origin [] seen) {target : Position}
    (ht : target ∈ seen) : ¬Relation.ReflTransGen (fun p q => q ∈ reads p) target origin := by
  have hclosed : ∀ p ∈ seen, p ≠ origin ∧ ∀ q ∈ reads p, q ∈ seen := fun p hp =>
    (h.closed p hp).resolve_left List.not_mem_nil
  have hmem : ∀ p, Relation.ReflTransGen (fun p q => q ∈ reads p) target p → p ∈ seen := by
    intro p hp
    induction hp with
    | refl => exact ht
    | tail _ hq ih => exact (hclosed _ ih).2 _ hq
  exact fun hpath => (hclosed origin (hmem origin hpath)).1 rfl

/-! ### the depth -/

/-- how many readers have not been seen -/
def unseen (readers seen : List Position) : Nat := (readers.filter (· ∉ seen)).length

theorem unseen_le (readers : List Position) (h : ∀ p ∈ seen, p ∈ seen') :
    unseen readers seen' ≤ unseen readers seen := by
  refine List.Sublist.length_le (List.monotone_filter_right readers fun p hp => ?_)
  rw [decide_eq_true_eq] at hp ⊢
  exact fun hs => hp (h p hs)

theorem unseen_lt {readers : List Position} (hr : p ∈ readers) (hs : p ∉ seen) :
    unseen readers (p :: seen) < unseen readers seen := by
  have hp : p ∈ readers.filter (· ∉ seen) := List.mem_filter.mpr ⟨hr, decide_eq_true hs⟩
  have e : readers.filter (· ∉ p :: seen) = (readers.filter (· ∉ seen)).filter (· ≠ p) := by
    rw [List.filter_filter]
    refine List.filter_congr fun q _ => ?_
    simp only [List.mem_cons, not_or, Bool.decide_and]
  rw [unseen, e]
  exact List.length_filter_lt_length_iff_exists.mpr ⟨p, hp, by simp⟩

/-! ### the end of a search -/

/-- the search of some positions ends, and without success it has explored them -/
def Ends (reads : Position → List Position) (origin : Position) (seen ps : List Position)
    (r : Option (List Position × Option (List Position))) : Prop :=
  ∃ seen' path, r = some (seen', path) ∧
    (path = none → Explored reads origin seen seen' ∧ ∀ q ∈ ps, q ∈ seen')

variable {readers : List Position}

/-- one search after the other, as long as none succeeds -/
theorem firstFound_ends {f : List Position → Position → Option (List Position × Option (List Position))}
    {ps : List Position}
    (hf : ∀ q ∈ ps, ∀ seen, unseen readers seen < depth → Ends reads origin seen [q] (f seen q))
    (hd : unseen readers seen < depth) : Ends reads origin seen ps (firstFound f seen ps) := by
  induction ps generalizing seen with
  | nil => exact ⟨seen, none, rfl, fun _ => ⟨.refl seen, fun _ hq => absurd hq List.not_mem_nil⟩⟩
  | cons q ps ih =>
    obtain ⟨t, path, hq, hexp⟩ := hf q (List.mem_cons_self ..) seen hd
    cases path with
    | some path =>
      exact ⟨t, some path, firstFound_cons_of_success hq, fun h => by cases h⟩
    | none =>
      obtain ⟨hex, hmem⟩ := hexp rfl
      obtain ⟨t', path, hps, hexp'⟩ := ih (fun x hx => hf x (List.mem_cons_of_mem _ hx))
        (Nat.lt_of_le_of_lt (unseen_le readers hex.mono) hd)
      refine ⟨t', path, (firstFound_cons_of_failure hq).trans hps, fun hnone => ?_⟩
      obtain ⟨hex', hmem'⟩ := hexp' hnone
      refine ⟨hex.trans hex', fun x hx => ?_⟩
      rcases List.mem_cons.mp hx with rfl | hx
      · exact hex'.mono _ (hmem _ (List.mem_singleton_self _))
      · exact hmem' x hx

/-- A search among positions that read each other only, of which but the readers read anything, ends
if it may go deeper than there are readers not yet seen. -/
theorem search_ends (near : Position → Prop) (hnear : ∀ p, near p → ∀ q ∈ reads p, near q)
    (hreads : ∀ p, near p → p ∉ readers → reads p = []) (hp : near p)
    (hd : unseen readers seen < depth) :
    Ends reads origin seen [p] (search reads origin depth seen p) := by
  induction depth generalizing seen p with
  | zero => exact absurd hd (Nat.not_lt_zero _)
  | succ depth ih =>
    by_cases ho : p = origin
    · exact ⟨seen, some [p], if_pos ho, fun h => by cases h⟩
    by_cases hs : p ∈ seen
    · exact ⟨seen, none, (if_neg ho).trans (if_pos hs), fun _ =>
        ⟨.refl seen, fun q hq => List.mem_singleton.mp hq ▸ hs⟩⟩
    have hrun : Ends reads origin (p :: seen) (reads p)
        (firstFound (search reads origin depth) (p :: seen) (reads p)) := by
      by_cases hr : p ∈ readers
      · exact firstFound_ends (fun q hq _ hd => ih (hnear p hp q hq) hd)
          (by have := unseen_lt hr hs; omega)
      · rw [hreads p hp hr]
        exact ⟨p :: seen, none, rfl, fun _ => ⟨.refl _, fun _ hq => absurd hq List.not_mem_nil⟩⟩
    obtain ⟨t, path, hfound, hexp⟩ := hrun
    refine ⟨t, path.map (p :: ·), ?_, fun hnone => ?_⟩
    · rw [search, if_neg ho, if_neg hs, hfound]
      rfl
    · obtain ⟨hex, hmem⟩ := hexp (Option.map_eq_none_iff.mp hnone)
      have hin : p ∈ t := hex.mono p (List.mem_cons_self ..)
      refine ⟨⟨fun q hq => hex.mono q (List.mem_cons_of_mem _ hq), fun q hq => ?_⟩,
        fun q hq => List.mem_singleton.mp hq ▸ hin⟩
      rcases hex.closed q hq with hq | hq
      · rcases List.mem_cons.mp hq with rfl | hq
        · exact .inr ⟨ho, hmem⟩
        · exact .inl hq
      · exact .inr hq

/-- a search that ends finds the origin exactly if it is reached -/
theorem finds_of_ends {target : Position}
    (h : Ends reads origin [] [target] (search reads origin depth [] target)) :
    ∃ path, Finds reads origin target path ∧
      (path.isSome = true ↔ Relation.ReflTransGen (fun p q => q ∈ reads p) target origin) ∧
      ∀ ps ∈ path, IsPath reads target origin ps := by
  obtain ⟨seen, path, hsearch, hexp⟩ := h
  refine ⟨path, finds_of_search hsearch, ?_⟩
  cases path with
  | some path =>
    have hpath := (path_of_search hsearch).1
    exact ⟨iff_of_true rfl hpath.reaches, fun ps hps => Option.some.inj hps ▸ hpath⟩
  | none =>
    obtain ⟨hex, hmem⟩ := hexp rfl
    have hno := hex.not_reaches (hmem _ (List.mem_singleton_self _))
    exact ⟨iff_of_false Bool.false_ne_true hno, fun ps hps => absurd hps (Option.not_mem_none ps)⟩

end

/-! ## cycles -/

section
variable (g : ReadGraph) (origin target : Position)

theorem findCycle_ends : Ends g.reads origin [] [target]
    (search g.reads origin (g.readers.length + 1) [] target) :=
  search_ends (fun _ => True) (fun _ _ _ _ => trivial) (fun p _ => g.reads_eq_nil p) trivial
    (Nat.lt_succ_of_le (List.length_filter_le ..))

theorem finds_findCycle : Finds g.reads origin target (g.findCycle origin target) := by
  obtain ⟨seen, path, hsearch, _⟩ := findCycle_ends g origin target
  rw [findCycle, hsearch]
  exact finds_of_search hsearch

variable {g origin target}

theorem findCycle_isSome_iff : (g.findCycle origin target).isSome = true ↔
    Relation.ReflTransGen (fun p q => q ∈ g.reads p) target origin := by
  obtain ⟨path, hfinds, hiff, _⟩ := finds_of_ends (findCycle_ends g origin target)
  rw [(finds_findCycle g origin target).unique hfinds, hiff]

end

/-- Where finitely many positions are reached from the target, through cycles or not, the search ends.
It finds a path exactly if the origin is one of them, and then it is a path from the target to the
origin that follows the graph and comes nowhere twice. -/
theorem found_iff_reached {reads : Position → List Position} {target : Position}
    (h : {p | Relation.ReflTransGen (fun p q => q ∈ reads p) target p}.Finite) (origin : Position) :
    ∃ path, Finds reads origin target path ∧
      (∀ g : ReadGraph, g.reads = reads → g.findCycle origin target = path) ∧
      (path.isSome = true ↔ Relation.ReflTransGen (fun p q => q ∈ reads p) target origin) ∧
      ∀ ps ∈ path, IsPath reads target origin ps := by
  have hends : Ends reads origin [] [target]
      (search reads origin (h.toFinset.toList.length + 1) [] target) :=
    search_ends _ (fun p hp q hq => hp.tail hq)
      (fun p hp hno => absurd (Finset.mem_toList.mpr (h.mem_toFinset.mpr hp)) hno) .refl
      (Nat.lt_succ_of_le (List.length_filter_le ..))
  obtain ⟨path, hfinds, hpath⟩ := finds_of_ends hends
  exact ⟨path, hfinds, fun g hg => (hg ▸ finds_findCycle g origin target).unique hfinds, hpath⟩

/-- in the first column three cells read each other in a ring, each the next one twice, and in the
others each cell reads the one below it, without end -/
def ring (p : Position) : List Position :=
  if p.col = 0 then [⟨(p.row + 1) % 3, 0⟩, ⟨(p.row + 1) % 3, 0⟩] else [⟨p.row + 1, p.col⟩]

/-- the third cell of the ring is found, and a cell of another column is not -/
theorem found_iff_reached_ring :
    {p | Relation.ReflTransGen (fun p q => q ∈ ring p) ⟨0, 0⟩ p}.Finite ∧
      (∃ path, Finds ring ⟨2, 0⟩ ⟨0, 0⟩ (some path) ∧ IsPath ring ⟨0, 0⟩ ⟨2, 0⟩ path) ∧
      Finds ring ⟨0, 1⟩ ⟨0, 0⟩ none := by
  have hring : ∀ p, Relation.ReflTransGen (fun p q => q ∈ ring p) ⟨0, 0⟩ p → p.row < 3 ∧ p.col = 0 := by
    intro p hp
    induction hp with
    | refl => exact ⟨by decide, rfl⟩
    | tail _ hq ih =>
      rw [ring, if_pos ih.2] at hq
      simp only [List.mem_cons, List.not_mem_nil, or_false, or_self] at hq
      rw [hq]
      exact ⟨Nat.mod_lt _ (by decide), rfl⟩
  have hfin : {p | Relation.ReflTransGen (fun p q => q ∈ ring p) ⟨0, 0⟩ p}.Finite :=
    (Set.Finite.image (fun row => (⟨row, 0⟩ : Position)) (Set.finite_lt_nat 3)).subset fun p hp =>
      ⟨p.row, (hring p hp).1, by rw [← (hring p hp).2]⟩
  refine ⟨hfin, ?_, ?_⟩
  · obtain ⟨path, hfinds, _, hiff, hpath⟩ := found_iff_reached hfin ⟨2, 0⟩
    have hreach : Relation.ReflTransGen (fun p q => q ∈ ring p) ⟨0, 0⟩ ⟨2, 0⟩ :=
      .tail (.tail .refl (by decide : (⟨1, 0⟩ : Position) ∈ ring ⟨0, 0⟩)) (by decide)
    obtain ⟨ps, rfl⟩ := Option.isSome_iff_exists.mp (hiff.mpr hreach)
    exact ⟨ps, hfinds, hpath ps rfl⟩
  · obtain ⟨path, hfinds, _, hiff, _⟩ := found_iff_reached hfin ⟨0, 1⟩
    have hno : path = none := Option.not_isSome_iff_eq_none.mp fun hsome =>
      absurd (hring _ (hiff.mp hsome)).2 (by decide)
    exact hno ▸ hfinds

end ReadGraph

end Worksheet
