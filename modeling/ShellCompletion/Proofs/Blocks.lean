import ShellCompletion.Proofs.Rounds

/-!
# What refinement keeps true of the blocks

In a trim automaton, states from which the same words are accepted are never parted, whatever blocks are
cut and in which order. The dead state stays alone, and no block has accepting states and others. If no
round ends early, refinement ends with blocks of states that are alike.
-/

namespace ShellCompletion.Automaton

open Refinement

variable {α : Type} [DecidableEq α] {a : Automaton α}

variable (a)

/-- A set of states that does not part states that are alike. -/
def Saturated (X : NatSet) : Prop :=
  ∀ s t, s ∈ a.states → t ∈ a.states → a.Alike s t → s ∈ X → t ∈ X

/-- What holds of the blocks throughout: they divide the states, do not part states that are alike,
do not mix accepting with other states, and the dead state is alone. -/
structure Coarse (r : Refinement) : Prop where
  partition : Partition a.states r
  saturated : ∀ B ∈ r.blocks.toList, a.Saturated B
  accepting : ∀ B ∈ r.blocks.toList, ∀ s t, s ∈ B → t ∈ B → s ∈ a.accepting → t ∈ a.accepting
  dead : ∀ B ∈ r.blocks.toList, deadState ∈ B → ∀ n, n ∈ B → n = deadState

variable {a}

/-- The sources of a saturated group are saturated. -/
theorem LeadsInto.saturated (ha : a.Trim) {c : α} {group X : NatSet} (hX : a.LeadsInto c group X)
    (hgroup : a.Saturated group) : a.Saturated X := by
  intro s t hs ht hst hsX
  obtain ⟨hkey, hinto⟩ := (hX.mem_iff s).mp hsX
  exact (hX.mem_iff t).mpr ⟨hst.mem_keys ha hkey ht, hgroup _ _ (a.step_mem_states s c)
    (a.step_mem_states t c) (hst.step ha c) hinto⟩

/-- The sources of a saturated group are saturated. -/
theorem saturated_of_mem_sourceSets (ha : a.Trim) {group X : NatSet} (hX : X ∈ a.sourceSets group)
    (hgroup : a.Saturated group) : a.Saturated X := by
  obtain ⟨-, c, hX⟩ := (mem_sourceSets ha.readsSymbols group X).mp hX
  exact hX.saturated ha hgroup

namespace Coarse

variable {r r' : Refinement}

/-- Cuts by saturated sets keep the blocks coarse. -/
theorem cuts (h : a.Coarse r) (hcuts : Cuts a.Saturated r r') : a.Coarse r' := by
  refine ⟨hcuts.partition h.partition, ?_, ?_, ?_⟩
  · refine hcuts.preserve (I := fun r' => ∀ B ∈ r'.blocks.toList, a.Saturated B) ?_ h.saturated
    intro r B X ih hX hB _ C hC s t hs ht hst hsC
    rcases (mem_blocks_cut r B X C).mp hC with ⟨-, hC⟩ | rfl | rfl
    · exact ih C hC s t hs ht hst hsC
    · rw [NatSet.mem_inter] at *
      exact ⟨ih B hB s t hs ht hst hsC.1, hX s t hs ht hst hsC.2⟩
    · rw [mem_outside] at *
      exact ⟨ih B hB s t hs ht hst hsC.1, fun h => hsC.2 (hX t s ht hs hst.symm h)⟩
  · intro C hC s t hs ht hacc
    obtain ⟨B, hB, hsub⟩ := hcuts.exists_block C hC
    exact h.accepting B hB s t (hsub s hs) (hsub t ht) hacc
  · intro C hC hdead n hn
    obtain ⟨B, hB, hsub⟩ := hcuts.exists_block C hC
    exact h.dead B hB (hsub _ hdead) n (hsub n hn)

/-- The dead state has a block of its own. -/
theorem dead_mem (h : a.Coarse r) : .singleton deadState ∈ r.blocks.toList := by
  have hdead : deadState ∈ a.states := (a.mem_states _).mpr (.inl rfl)
  obtain ⟨B, hB, hmem⟩ := (h.partition.cover deadState).mp hdead
  have heq : B = .singleton deadState := NatSet.ext fun n => by
    rw [NatSet.mem_singleton]
    constructor
    · exact h.dead B hB hmem n
    · rintro rfl
      exact hmem
  exact heq ▸ hB

/-- Blocks other than that of the dead state consist of rows. -/
theorem mem_keys (ha : a.Trim) (h : a.Coarse r) {B : NatSet} (hB : B ∈ r.blocks.toList)
    (hne : B ≠ .singleton deadState) {s : ℕ} (hs : s ∈ B) : s ∈ a.rows.keys := by
  rcases (ha.mem_states s).mp ((h.partition.cover s).mpr ⟨B, hB, hs⟩) with rfl | hkey
  · exact (hne (h.partition.disjoint B hB _ h.dead_mem _ hs (by simp))).elim
  · exact hkey

/-- Taking up a group keeps the blocks coarse. -/
theorem take (h : a.Coarse r) (group : NatSet) :
    a.Coarse { r with pending := r.pending.erase group } :=
  ⟨h.partition.take group, h.saturated, h.accepting, h.dead⟩

end Coarse

/-- A trim automaton has an accepting state. -/
theorem Trim.exists_accepting (ha : a.Trim) : ∃ s, s ∈ a.accepting := by
  obtain ⟨word, hword⟩ := ha.useful a.start ha.start_row
  rw [acceptsFrom] at hword
  split at hword
  · next s _ => exact ⟨s, hword⟩
  · cases hword

/-- If some state neither accepts nor is dead, the initial blocks are not empty and not repeated. -/
theorem toList_initial (ha : a.Trim) (hothers : a.others.isEmpty = false) :
    (OrderedSet.ofList a.initialBlocks).toList =
      [.singleton deadState, a.accepting, a.others] := by
  obtain ⟨s, hs⟩ := ha.exists_accepting
  obtain ⟨t, ht⟩ := (NatSet.isEmpty_eq_false_iff _).mp hothers
  have hdead := ha.dead_not_accepting
  have hothers := (mem_others t).mp ht
  apply OrderedSet.toList_ofList
  simp only [initialBlocks, List.nodup_cons, List.mem_cons, List.not_mem_nil, or_false, not_or,
    not_false_eq_true, List.nodup_nil, and_true]
  refine ⟨⟨fun h => hdead (h ▸ by simp), fun h => ?_⟩, fun h => ?_⟩
  · change .singleton deadState = a.others at h
    have hmem : deadState ∈ a.others := h ▸ by simp
    exact ((mem_others _).mp hmem).2.2 rfl
  · exact hothers.2.1 (h ▸ ht)

/-- Every state is in one of the initial blocks: whether it is dead and whether it accepts says in
which. -/
theorem partition_initial (ha : a.Trim) (hothers : a.others.isEmpty = false) :
    Partition a.states a.initial := by
  have hcases := fun B => mem_blocks_initial (a := a) (B := B)
  have hwhich : ∀ B ∈ a.initial.blocks.toList, ∀ n, n ∈ B → B =
      if n = deadState then .singleton deadState
      else if n ∈ a.accepting then a.accepting else a.others := by
    intro B hB n hn
    rcases (hcases B).mp hB with rfl | rfl | rfl
    · rw [if_pos ((NatSet.mem_singleton _ n).mp hn)]
    · have hne : n ≠ deadState := by
        rintro rfl
        exact ha.dead_not_accepting hn
      rw [if_neg hne, if_pos hn]
    · rw [if_neg ((mem_others n).mp hn).2.2, if_neg ((mem_others n).mp hn).2.1]
  refine ⟨⟨?_, fun _ hG => hG⟩, ?_, ?_⟩
  · intro B hB
    rcases (hcases B).mp hB with rfl | rfl | rfl
    · exact ⟨deadState, by simp⟩
    · exact ha.exists_accepting
    · exact (NatSet.isEmpty_eq_false_iff _).mp hothers
  · intro B hB C hC n hnB hnC
    rw [hwhich B hB n hnB, ← hwhich C hC n hnC]
  · intro n
    simp only [hcases, exists_eq_or_imp, exists_eq_left, NatSet.mem_singleton, mem_others]
    have hdead : deadState ∈ a.states := (a.mem_states _).mpr (.inl rfl)
    have haccepting : n ∈ a.accepting → n ∈ a.states := fun hn =>
      (ha.mem_states n).mpr (.inr (ha.accepting_row n hn))
    grind

/-- The initial blocks do not part states that are alike. -/
theorem saturated_initial (ha : a.Trim) {B : NatSet} (hB : B ∈ a.initial.blocks.toList) :
    a.Saturated B := by
  intro s t hs ht hst hsB
  rcases mem_blocks_initial.mp hB with rfl | rfl | rfl
  · rw [NatSet.mem_singleton] at hsB ⊢
    subst hsB
    by_contra hne
    exact ha.dead_row (hst.symm.mem_keys ha (((ha.mem_states t).mp ht).resolve_left hne) hs)
  · exact hst.accepting.mp hsB
  · rw [mem_others] at hsB ⊢
    refine ⟨ht, fun h => hsB.2.1 (hst.accepting.mpr h), ?_⟩
    rintro rfl
    exact ha.dead_row (hst.mem_keys ha (((ha.mem_states s).mp hs).resolve_left hsB.2.2) ht)

/-- The initial blocks are coarse. -/
theorem coarse_initial (ha : a.Trim) (hothers : a.others.isEmpty = false) : a.Coarse a.initial := by
  refine ⟨partition_initial ha hothers, fun B => saturated_initial ha, ?_, ?_⟩
  · intro B hB s t hs ht hacc
    rcases mem_blocks_initial.mp hB with rfl | rfl | rfl
    · rw [NatSet.mem_singleton] at hs
      exact (ha.dead_not_accepting (hs ▸ hacc)).elim
    · exact ht
    · exact (((mem_others s).mp hs).2.1 hacc).elim
  · intro B hB hmem n hn
    rcases mem_blocks_initial.mp hB with rfl | rfl | rfl
    · exact (NatSet.mem_singleton _ n).mp hn
    · exact (ha.dead_not_accepting hmem).elim
    · exact (((mem_others _).mp hmem).2.2 rfl).elim

/-- A round by a pending group is a series of cuts by saturated sets. -/
theorem cuts_round (ha : a.Trim) {f : Refinement → NatSet → Refinement}
    (hf : ∀ r X, Cuts (· = X) r (f r X)) {group : NatSet} (hgroup : a.Saturated group)
    (r : Refinement) : Cuts a.Saturated r ((a.sourceSets group).foldl f r) :=
  (cuts_foldl hf _ r).mono fun _ hX => saturated_of_mem_sourceSets ha hX hgroup

/-- Refinement in whole rounds comes to an end with coarse blocks of which each symbol leads all states
into one block. -/
theorem exists_wholeRefinement (ha : a.Trim) (hothers : a.others.isEmpty = false) :
    ∃ r, a.wholeRefinement = .ok r ∧ a.Coarse r ∧ ∀ B ∈ r.blocks.toList, ∀ s t, s ∈ B → t ∈ B →
      ∀ c, ∃ C ∈ r.blocks.toList, a.step s c ∈ C ∧ a.step t c ∈ C := by
  have hinitial := coarse_initial ha hothers
  obtain ⟨r, hrun, hrounds⟩ := exists_wholeRefinement_rounds hinitial.partition.toPopulated
  obtain ⟨hr, -⟩ := hrounds.preserve (I := a.Coarse) (fun r group hr hgroup => by
    have hsaturated := hr.saturated group (hr.partition.pending_mem group hgroup)
    exact (hr.take group).cuts (cuts_round ha (fun r X => (splitWhole_spec r X).1) hsaturated _))
    hinitial
  refine ⟨r, hrun, hr, fun B hB s t hs ht c => ?_⟩
  obtain ⟨C, hC, hsC⟩ := (hr.partition.cover _).mp (a.step_mem_states s c)
  refine ⟨C, hC, hsC, ?_⟩
  by_cases hdead : B = .singleton deadState
  · rw [hdead, NatSet.mem_singleton] at hs ht
    exact ht ▸ hs ▸ hsC
  by_cases hc : c ∈ a.symbols.toList
  · have henters : a.Enters c C s := ⟨hr.mem_keys ha hB hdead hs, hsC⟩
    exact ((hrounds.enters_iff ha.readsSymbols hB hs ht hc hC).mp henters).2
  · rw [ha.step_of_not_mem hc] at hsC ⊢
    exact hsC

/-- The states of a block are alike if each symbol leads all states of a block into one block. -/
theorem alike_of_stable (ha : a.Trim) {r : Refinement} (hr : a.Coarse r)
    (hstable : ∀ B ∈ r.blocks.toList, ∀ s t, s ∈ B → t ∈ B →
      ∀ c, ∃ C ∈ r.blocks.toList, a.step s c ∈ C ∧ a.step t c ∈ C)
    {B : NatSet} (hB : B ∈ r.blocks.toList) {s t : ℕ} (hs : s ∈ B) (ht : t ∈ B) : a.Alike s t := by
  intro word
  induction word generalizing B s t with
  | nil =>
    rw [acceptsFrom_nil, acceptsFrom_nil, Bool.eq_iff_iff, NatSet.contains_iff, NatSet.contains_iff]
    exact ⟨hr.accepting B hB s t hs ht, hr.accepting B hB t s ht hs⟩
  | cons c word ih =>
    obtain ⟨C, hC, hsC, htC⟩ := hstable B hB s t hs ht c
    rw [ha.acceptsFrom_cons, ha.acceptsFrom_cons, ih hC hsC htC]

end ShellCompletion.Automaton
