import Worksheet.Proofs.Formula.Modes
import Worksheet.Proofs.Sheet.Throughout
import Worksheet.Proofs.Sheet.Following

/-!
# Every label of a cell stands for something it reads

A label with a leading zero is read, but does not follow the cell that it names.  All others do, in
every sheet that a run leads to.

* `Labels`             a label of one of several positions, or one with a leading zero;
* `Anchored`           a text with no other labels in its strict calls;
* `Anchored.followAll` a cell stays so when it is told of moves;
* `Anchored.exists_of_lenient`
                       the lenient calls of functions have no other labels either;
* `Sheet.ReachableBy.anchored`
                       so for every cell that reads anything.
-/

namespace Worksheet

def Labels (keys : List Position) (t : Text) (p : Position) : Prop :=
  p ∈ keys ∧ p.SpelledBy t ∨ Position.LeadingZero t ∧ Position.ofLabel? t = some p

def Anchored (raw : Text) (keys : List Position) : Prop :=
  ∀ call ∈ Call.all .strict raw, ∃ ls, call.StandsFor (Labels keys) ls

theorem Labels.labelLike {keys : List Position} {t : Text} {p : Position} (h : Labels keys t p) :
    ∃ a d, LabelLike t a d := by
  rcases h with ⟨_, h⟩ | ⟨_, h⟩
  · exact ⟨_, _, h.labelLike.1⟩
  · exact ⟨_, _, (Position.ofLabel?_eq_some h).1⟩

/-! ## moves -/

section
variable {keys keys' : List Position} {σ : Position → Position} {ms : List (Position × Position)}
  (hms : Position.Follows σ keys ms) (hkeys : ∀ k ∈ keys, σ k ∈ keys')
include hms hkeys

theorem Labels.relabelAll {t : Text} {p : Position} (h : Labels keys (Text.trim t) p) :
    ∃ q, Labels keys' (Text.trim (relabelAll ms t)) q := by
  rcases h with ⟨hp, h⟩ | ⟨h0, hp⟩
  · exact ⟨σ p, .inl ⟨hkeys p hp, hms.movedAll hp ▸ spelledBy_trim_relabelAll ms h⟩⟩
  · rw [trim_relabelAll_of_leadingZero ms hp h0]
    exact ⟨p, .inr ⟨h0, hp⟩⟩

theorem Call.StandsFor.relabelledAll {c : Call} {ls : List Position}
    (h : c.StandsFor (Labels keys) ls) :
    ∃ ls', (c.relabelledAll ms).StandsFor (Labels keys') ls' := by
  have hparts := h.parts
  rw [parts_eq, List.forall₂_map_left_iff] at hparts
  have hlabels : ∀ t ∈ c.pieces, ∃ q, Labels keys' (Text.trim (Worksheet.relabelAll ms t)) q :=
    fun t ht =>
      have ⟨_, _, hp⟩ := exists_of_forall₂_of_mem_left hparts ht
      hp.relabelAll hms hkeys
  obtain ⟨ls', hls'⟩ := exists_forall₂ hlabels
  refine ⟨ls', ?_, fun hr => ?_⟩
  · rw [parts_eq, pieces_relabelledAll, List.map_map, List.forall₂_map_left_iff]
    exact hls'
  · rw [← hls'.length_eq, hparts.length_eq]
    exact h.two (c.shape_relabelledAll ms ▸ hr)

end

theorem Anchored.followAll {c : Cell} (h : Anchored c.raw c.snapshot.keys)
    {σ : Position → Position} {ms : List (Position × Position)} {keys : List Position}
    (hms : Position.Follows σ c.snapshot.keys ms) (hkeys : ∀ k ∈ c.snapshot.keys, σ k ∈ keys) :
    Anchored (c.followAll ms).raw keys := by
  intro call hcall
  rw [all_followAll] at hcall
  obtain ⟨call, hmem, rfl⟩ := List.mem_map.mp hcall
  obtain ⟨ls, hls⟩ := h call hmem
  exact hls.relabelledAll hms hkeys

/-! ## calls of functions -/

namespace Anchored
variable {raw : Text} {keys : List Position} (h : Anchored raw keys)
include h

theorem plain {d : Call} (hd : d ∈ Call.all .strict raw) : d.Plain := by
  obtain ⟨ls, hls⟩ := h d hd
  refine Call.plain_of_parts fun part hpart => ?_
  obtain ⟨p, _, hp⟩ := exists_of_forall₂_of_mem_left hls.parts hpart
  exact hp.labelLike

theorem exists_of_lenient {c : Call} (hc : c ∈ Call.all .lenient (Text.trim raw)) {f : Function}
    (hf : c.function? = some f) : ∃ ls, c.StandsFor (Labels keys) ls :=
  h c (Call.mem_all_strict_of_lenient (fun _ => h.plain) hc hf)

end Anchored

/-! ## every run -/

namespace Sheet

theorem anchored_of_targets {s : Sheet} {p : Position} {content : Text} {ps keys : List Position}
    (h : s.targets p content = .ok ps) (hkeys : ∀ q, q ∈ keys ↔ q ∈ ps) :
    Anchored content keys := by
  obtain ⟨qss, hqss, rfl⟩ := targets_eq_ok.mp h
  intro call hcall
  obtain ⟨qs, hmem, hqs⟩ := exists_of_forall₂_of_mem_left hqss hcall
  obtain ⟨ls, hls, rfl⟩ := Call.positions?_eq_some.mp (Call.positions?_of_targets hqs).1
  refine ⟨ls, forall₂_imp_of_mem hls.parts fun t _ q hq ht => ?_, hls.two⟩
  by_cases h0 : Position.LeadingZero t
  · exact .inr ⟨h0, ht⟩
  · refine .inl ⟨(hkeys q).mpr ?_, (Position.spelledBy_iff ht).mpr h0⟩
    rw [List.mem_eraseDups, List.mem_flatten]
    exact ⟨_, hmem, Shape.mem_span hls.two hq⟩

theorem anchored_apply {s : Sheet} (hs : s.Wired) (h : s.Throughout Anchored) (o : Operation) :
    (s.apply o).Throughout Anchored := by
  have hset : ∀ p content, (s.set p content).Throughout Anchored := fun p content =>
    throughout_set hs h fun _ ht _ _ hkeys => anchored_of_targets ht hkeys
  cases o with
  | set p content => exact hset p content
  | clear p => exact hset p []
  | recolor p color => exact throughout_recolor h p color
  | insert axis index =>
    refine apply_insert h fun t ht => throughout_insertLine hs h ht fun {c ms keys} hc hms _ hkeys =>
      hc.followAll hms fun k hk => (hkeys _).mpr (.inl ?_)
    exact (Cell.mem_keys_of_follows hms).mpr ⟨k, hk, rfl⟩
  | delete axis index =>
    exact apply_delete h fun t ht => throughout_deleteLine hs h ht fun {c ms} hc hms _ =>
      hc.followAll hms fun k hk => (Cell.mem_keys_of_follows hms).mpr ⟨k, hk, rfl⟩

theorem ReachableBy.anchored {allowed : Sheet → Operation → Prop} {s : Sheet}
    (h : ReachableBy allowed s) : s.Throughout Anchored := by
  induction h with
  | blank width height color => exact throughout_blank width height color
  | step o hr _ ih => exact anchored_apply hr.wired ih o

end Sheet

end Worksheet
