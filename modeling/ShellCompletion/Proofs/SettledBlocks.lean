import ShellCompletion.Proofs.Blocks

/-!
# Refinement in rounds that may end early

The group of the dead state is taken up first, and its round is never cut short. From then on the
states of a block have transitions on the same symbols. A block of states without transitions is never
cut after that, so its own round is not cut short either. This is enough for merging to succeed, though
states of one block may still differ in the words that lead from them to acceptance.
-/

namespace ShellCompletion.Automaton

open Refinement

variable {α : Type} [DecidableEq α] (a : Automaton α)

/-- A set of states other than the dead one, none of which has a transition. -/
def Terminal (B : NatSet) : Prop :=
  B ≠ .singleton deadState ∧ ∀ s, s ∈ B → ∀ c, a.next? s c = none

/-- What holds of the blocks once the dead state's group has been taken up: the states of a block have
transitions on the same symbols, and blocks without transitions are pending or treated to the end,
except for those that are exempt. -/
structure Settled (exempt : NatSet → Prop) (r : Refinement) : Prop extends a.Coarse r where
  enabled : ∀ B ∈ r.blocks.toList, ∀ s t, s ∈ B → t ∈ B → ∀ c,
    a.next? s c = none → a.next? t c = none
  dead_done : .singleton deadState ∉ r.pending.toList
  terminal : ∀ B ∈ r.blocks.toList, a.Terminal B →
    exempt B ∨ B ∈ r.pending.toList ∨ ∀ X ∈ a.sourceSets B, Respects X r

variable {a}

/-- A set with one member is not crossed. -/
theorem not_crosses_singleton (X : NatSet) (n : ℕ) : ¬ Crosses X (.singleton n) := by
  rintro ⟨⟨s, hs, hin⟩, t, ht, hout⟩
  rw [NatSet.mem_singleton] at hs ht
  exact hout (ht ▸ hs ▸ hin)

/-- The dead state's block is no part of a block that is crossed. -/
theorem Coarse.dead_not_part {r : Refinement} (h : a.Coarse r) {B X : NatSet}
    (hB : B ∈ r.blocks.toList) (hcross : Crosses X B) :
    ¬ (.singleton deadState = B.inter X ∨ .singleton deadState = B.diff (B.inter X)) := by
  intro hpart
  have hmem : deadState ∈ B := by
    have hdead : deadState ∈ NatSet.singleton deadState := by simp
    rcases hpart with heq | heq <;> rw [heq] at hdead
    · exact ((NatSet.mem_inter B X _).mp hdead).1
    · exact ((mem_outside B X _).mp hdead).1
  have heq := h.partition.disjoint B hB _ h.dead_mem _ hmem (by simp)
  exact not_crosses_singleton X deadState (heq ▸ hcross)

/-- The dead state's group does not become pending again. -/
theorem Coarse.dead_done_cut {r : Refinement} (h : a.Coarse r)
    (hdone : .singleton deadState ∉ r.pending.toList) {B X : NatSet} (hB : B ∈ r.blocks.toList)
    (hcross : Crosses X B) : .singleton deadState ∉ (r.cut B X).pending.toList := by
  intro hmem
  rcases mem_pending_cut hmem with ⟨-, hmem⟩ | hpart
  · exact hdone hmem
  · exact h.dead_not_part hB hcross hpart

namespace Settled

variable {exempt : NatSet → Prop} {r r' : Refinement}

/-- A cut by states with transitions keeps the blocks settled: it does not touch blocks without
transitions, and makes none. -/
theorem cut (h : a.Settled exempt r) {B X : NatSet} (hX : a.Saturated X)
    (hmoves : ∀ s, s ∈ X → ∃ c, a.next? s c ≠ none) (hB : B ∈ r.blocks.toList)
    (hcross : Crosses X B) : a.Settled exempt (r.cut B X) := by
  have hcuts : Cuts a.Saturated r (r.cut B X) := .single (.cut hX hB hcross)
  refine ⟨h.toCoarse.cuts hcuts, ?_, h.toCoarse.dead_done_cut h.dead_done hB hcross, ?_⟩
  · intro C hC s t hs ht c
    obtain ⟨D, hD, hsub⟩ := hcuts.exists_block C hC
    exact h.enabled D hD s t (hsub s hs) (hsub t ht) c
  · intro C hC hterminal
    rcases (mem_blocks_cut r B X C).mp hC with ⟨hne, hC⟩ | rfl | rfl
    · rcases h.terminal C hC hterminal with hexempt | hpending | hdone
      · exact .inl hexempt
      · exact .inr (.inl (mem_pending_cut_of_ne hne hpending))
      · exact .inr (.inr fun Y hY => hcuts.respects (hdone Y hY))
    · obtain ⟨⟨n, hn, hin⟩, -⟩ := hcross
      obtain ⟨c, hc⟩ := hmoves n hin
      exact (hc (hterminal.2 n ((NatSet.mem_inter B X n).mpr ⟨hn, hin⟩) c)).elim
    · obtain ⟨⟨n, hn, hin⟩, m, hm, hout⟩ := hcross
      obtain ⟨c, hc⟩ := hmoves n hin
      have hnone := hterminal.2 m ((mem_outside B X m).mpr ⟨hm, hout⟩) c
      exact (hc (h.enabled B hB m n hm hn c hnone)).elim

/-- Cuts by saturated sets keep blocks settled. -/
theorem cuts (h : a.Settled exempt r)
    (hcuts : Cuts (fun X => a.Saturated X ∧ ∀ s, s ∈ X → ∃ c, a.next? s c ≠ none) r r') :
    a.Settled exempt r' :=
  hcuts.preserve (I := a.Settled exempt) (fun hr hX hB hcross => hr.cut hX.1 hX.2 hB hcross) h

end Settled

/-- From the sources of a group without the dead state there are transitions. -/
theorem next?_ne_none_of_mem_sourceSets (ha : a.Trim) {group X : NatSet}
    (hX : X ∈ a.sourceSets group) (hdead : ¬ deadState ∈ group) {s : ℕ} (hs : s ∈ X) :
    ∃ c, a.next? s c ≠ none := by
  obtain ⟨-, c, hX⟩ := (mem_sourceSets ha.readsSymbols group X).mp hX
  refine ⟨c, fun hnone => hdead ?_⟩
  have hinto := ((hX.mem_iff s).mp hs).2
  rwa [ha.step_eq_dead.mpr hnone] at hinto

/-- The round of a settled refinement's group leaves it settled, and treats the group to the end if its
states have no transitions. -/
theorem Settled.round (ha : a.Trim) {r : Refinement} {group : NatSet}
    (h : a.Settled (fun _ => False) r) (hgroup : group ∈ r.pending.toList) :
    a.Settled (fun _ => False) ((a.sourceSets group).foldl (splitBySources group)
      { r with pending := r.pending.erase group }) := by
  have hmem := h.partition.pending_mem group hgroup
  have hdead : ¬ deadState ∈ group := fun hin => by
    have heq := h.partition.disjoint group hmem _ h.toCoarse.dead_mem _ hin (by simp)
    exact h.dead_done (heq ▸ hgroup)
  have htaken : a.Settled (· = group) { r with pending := r.pending.erase group } := by
    refine ⟨h.toCoarse.take group, h.enabled, ?_, fun B hB hterminal => ?_⟩
    · exact fun hin => h.dead_done ((OrderedSet.mem_erase _ _ _).mp hin).2
    · rcases h.terminal B hB hterminal with hfalse | hpending | hdone
      · exact hfalse.elim
      · by_cases heq : B = group
        · exact .inl heq
        · exact .inr (.inl ((OrderedSet.mem_erase _ _ _).mpr ⟨heq, hpending⟩))
      · exact .inr (.inr hdone)
  have hmoves : ∀ X ∈ a.sourceSets group, ∀ s, s ∈ X → ∃ c, a.next? s c ≠ none :=
    fun X hX s hs => next?_ne_none_of_mem_sourceSets ha hX hdead hs
  have hsettled := htaken.cuts ((cuts_foldl (fun r X => cuts_splitBySources group r X)
    (a.sourceSets group) _).mono fun X hX =>
      ⟨saturated_of_mem_sourceSets ha hX (h.saturated group hmem), hmoves X hX⟩)
  refine ⟨hsettled.toCoarse, hsettled.enabled, hsettled.dead_done, fun B hB hterminal => ?_⟩
  rcases hsettled.terminal B hB hterminal with rfl | hpending | hdone
  · -- Sources have transitions and the group has none, so no set of sources crosses the group.
    refine .inr (.inr (respects_foldl (fun r X => cuts_splitBySources B r X) (fun r X hX => ?_) _))
    rw [splitBySources_eq_splitWhole]
    · exact (splitWhole_spec r X).2
    · rintro ⟨⟨n, hn, hin⟩, -⟩
      obtain ⟨c, hc⟩ := hmoves X hX n hin
      exact hc (hterminal.2 n hn c)
  · exact .inr (.inl hpending)
  · exact .inr (.inr hdone)

/-- If the dead state is not pending but every other block is, cuts leave it so: the blocks that they
cut are pending, and so are their parts. -/
theorem pending_cuts {r r' : Refinement} (hr : a.Coarse r)
    (hdone : .singleton deadState ∉ r.pending.toList)
    (hqueue : ∀ B ∈ r.blocks.toList, B ≠ .singleton deadState → B ∈ r.pending.toList)
    (hcuts : Cuts a.Saturated r r') :
    .singleton deadState ∉ r'.pending.toList ∧
      ∀ B ∈ r'.blocks.toList, B ≠ .singleton deadState → B ∈ r'.pending.toList := by
  have hkept := hcuts.preserve (I := fun r => a.Coarse r ∧
    .singleton deadState ∉ r.pending.toList ∧
    ∀ B ∈ r.blocks.toList, B ≠ .singleton deadState → B ∈ r.pending.toList) ?_ ⟨hr, hdone, hqueue⟩
  · exact hkept.2
  · rintro r B X ⟨hr, hdone, hqueue⟩ hX hB hcross
    refine ⟨hr.cuts (.single (.cut hX hB hcross)), hr.dead_done_cut hdone hB hcross, ?_⟩
    intro C hC hne
    have hBpending := hqueue B hB fun heq => not_crosses_singleton X deadState (heq ▸ hcross)
    rcases (mem_blocks_cut r B X C).mp hC with ⟨hCB, hC⟩ | rfl | rfl
    · exact mem_pending_cut_of_ne hCB (hqueue C hC hne)
    · exact (parts_mem_pending hBpending).1
    · exact (parts_mem_pending hBpending).2

/-- Once no source of the dead state crosses a block, the states of a block have transitions on the
same symbols. -/
theorem Coarse.enabled (ha : a.Trim) {r : Refinement} (h : a.Coarse r)
    (hrespects : ∀ X ∈ a.sourceSets (.singleton deadState), Respects X r) :
    ∀ B ∈ r.blocks.toList, ∀ s t, s ∈ B → t ∈ B → ∀ c, a.next? s c = none → a.next? t c = none := by
  intro B hB s t hs ht c hnone
  by_cases hB' : B = .singleton deadState
  · subst hB'
    rw [NatSet.mem_singleton] at ht
    rw [ht, ha.next?_dead]
  · by_cases hc : c ∈ a.symbols.toList
    · have hkey := h.mem_keys ha hB hB' hs
      have hdead : a.step s c ∈ NatSet.singleton deadState := by
        rw [ha.step_eq_dead.mpr hnone, NatSet.mem_singleton]
      obtain ⟨X, hX, hinto⟩ := exists_sourceSet ha.readsSymbols hc hkey hdead
      have hsX : s ∈ X := (hinto.mem_iff s).mpr ⟨hkey, hdead⟩
      by_cases htX : t ∈ X
      · exact ha.step_eq_dead.mp ((NatSet.mem_singleton _ _).mp ((hinto.mem_iff t).mp htX).2)
      · exact (hrespects X hX B hB ⟨⟨s, hs, hsX⟩, t, ht, htX⟩).elim
    · cases hsome : a.next? t c with
      | none => rfl
      | some u => exact (hc (ha.symbol_mem hsome)).elim

/-- The first round, that of the dead state, leaves the blocks settled. -/
theorem settled_first (ha : a.Trim) (hothers : a.others.isEmpty = false) :
    a.Settled (fun _ => False) ((a.sourceSets (.singleton deadState)).foldl
      (splitBySources (.singleton deadState))
      ⟨a.initial.blocks, a.initial.pending.erase (.singleton deadState)⟩) := by
  have hcoarse := coarse_initial ha hothers
  have hlist : a.initial.pending.toList = [.singleton deadState, a.accepting, a.others] :=
    toList_initial ha hothers
  have hpending : .singleton deadState ∈ a.initial.pending.toList := by simp [hlist]
  have htaken := hcoarse.take (.singleton deadState)
  have hcuts := cuts_round ha (fun r X => cuts_splitBySources (.singleton deadState) r X)
    (hcoarse.saturated _ hpending)
    ⟨a.initial.blocks, a.initial.pending.erase (.singleton deadState)⟩
  have hrespects : ∀ X ∈ a.sourceSets (.singleton deadState), Respects X
      ((a.sourceSets (.singleton deadState)).foldl (splitBySources (.singleton deadState))
        ⟨a.initial.blocks, a.initial.pending.erase (.singleton deadState)⟩) := by
    refine respects_foldl (fun r X => cuts_splitBySources _ r X) (fun r X _ => ?_) _
    rw [splitBySources_eq_splitWhole (not_crosses_singleton X deadState)]
    exact (splitWhole_spec r X).2
  obtain ⟨hdone, hqueue⟩ := pending_cuts htaken (by simp)
    (fun B hB hne => (OrderedSet.mem_erase _ _ _).mpr ⟨hne, hB⟩) hcuts
  have hend := htaken.cuts hcuts
  exact ⟨hend, hend.enabled ha hrespects, hdone, fun B hB hterminal =>
    .inr (.inl (hqueue B hB hterminal.1))⟩

/-- Refinement comes to an end with settled blocks and nothing pending. -/
theorem exists_refinement (ha : a.Trim) (hothers : a.others.isEmpty = false) :
    ∃ r, a.refinement = .ok r ∧ a.Settled (fun _ => False) r ∧ r.pending.toList = [] := by
  obtain ⟨r, hrun, hrounds⟩ :=
    exists_refinement_rounds (coarse_initial ha hothers).partition.toPopulated
  refine ⟨r, hrun, ?_⟩
  have hlist : a.initial.pending.toList = [.singleton deadState, a.accepting, a.others] :=
    toList_initial ha hothers
  cases hrounds with
  | done hpending => simp [hlist] at hpending
  | round hpending hrounds =>
    rw [hlist] at hpending
    cases hpending
    exact hrounds.preserve (fun r group hr hgroup => hr.round ha hgroup) (settled_first ha hothers)

end ShellCompletion.Automaton
