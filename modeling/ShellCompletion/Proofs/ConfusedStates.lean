import ShellCompletion.Proofs.Numbering

/-!
# Refinement of an automaton that starts in the dead state

A minimized automaton is numbered from zero, so its start has the number of the dead state, and a state
without transitions has no row. If such an automaton is refined, its missing transitions are taken for
transitions to the start. States are then told apart only by what shows of the automaton completed in
this way, and if they are not, they share a block.
-/

namespace ShellCompletion.Automaton

open Refinement

variable {α : Type}

section Traces

variable [DecidableEq α] (a : Automaton α)

/-- The state after a word if missing transitions lead to the dead state. A state without a row cannot be
left. -/
def completedRun? : ℕ → List α → Option ℕ
  | s, [] => some s
  | s, c :: word => if s ∈ a.rows.keys then completedRun? (a.step s c) word else none

/-- What shows of the state after a word: whether it accepts, and whether it is the dead one. -/
def trace (s : ℕ) (word : List α) : Option (Bool × Bool) :=
  (a.completedRun? s word).map fun u => (a.accepting.contains u, u == deadState)

/-- Whether nothing that shows tells two states apart. Of accepting states it does not show at first
whether one is the dead state. -/
structure Confused (s t : ℕ) : Prop where
  accepting : s ∈ a.accepting ↔ t ∈ a.accepting
  dead : ¬ s ∈ a.accepting → (s = deadState ↔ t = deadState)
  trace : ∀ c word, a.trace s (c :: word) = a.trace t (c :: word)

variable {a}

theorem trace_nil (s : ℕ) : a.trace s [] = some (a.accepting.contains s, s == deadState) := rfl

/-- A word is traced from a state with a row by one step and its rest. -/
theorem trace_cons_of_mem {s : ℕ} (hs : s ∈ a.rows.keys) (c : α) (word : List α) :
    a.trace s (c :: word) = a.trace (a.step s c) word := by
  rw [trace, completedRun?, if_pos hs, trace]

/-- No longer word is traced from a state without a row. -/
theorem trace_cons_of_not_mem {s : ℕ} (hs : s ∉ a.rows.keys) (c : α) (word : List α) :
    a.trace s (c :: word) = none := by
  rw [trace, completedRun?, if_neg hs, Option.map_none]

namespace Confused

variable {s t : ℕ}

theorem symm (h : a.Confused s t) : a.Confused t s :=
  ⟨h.accepting.symm, fun ht => (h.dead (mt h.accepting.mp ht)).symm, fun c word => (h.trace c word).symm⟩

/-- Both states have rows or none. -/
theorem mem_keys (h : a.Confused s t) (c : α) (hs : s ∈ a.rows.keys) : t ∈ a.rows.keys := by
  by_contra ht
  have htrace := h.trace c []
  rw [trace_cons_of_mem hs, trace_cons_of_not_mem ht, trace_nil] at htrace
  cases htrace

/-- A symbol leads both states or none to the dead state. -/
theorem step_eq_dead_iff (h : a.Confused s t) (hs : s ∈ a.rows.keys) (c : α) :
    a.step s c = deadState ↔ a.step t c = deadState := by
  have htrace := h.trace c []
  rw [trace_cons_of_mem hs, trace_cons_of_mem (h.mem_keys c hs), trace_nil, trace_nil,
    Option.some.injEq, Prod.mk.injEq] at htrace
  rw [← beq_iff_eq, htrace.2, beq_iff_eq]

/-- A symbol leads to states that are confused as well. -/
theorem step (h : a.Confused s t) (hs : s ∈ a.rows.keys) (c : α) :
    a.Confused (a.step s c) (a.step t c) := by
  have ht := h.mem_keys c hs
  refine ⟨?_, fun _ => h.step_eq_dead_iff hs c, fun d word => ?_⟩
  · have htrace := h.trace c []
    rw [trace_cons_of_mem hs, trace_cons_of_mem ht, trace_nil, trace_nil, Option.some.injEq,
      Prod.mk.injEq] at htrace
    rw [← NatSet.contains_iff, htrace.1, NatSet.contains_iff]
  · rw [← trace_cons_of_mem hs, ← trace_cons_of_mem ht, h.trace]

end Confused

end Traces

section Blocks

variable (a : Automaton α)

/-- What the blocks of a refinement divide: the dead state has a block of its own, and may be in others,
while every other state is in one block. -/
structure Divided (r : Refinement) : Prop extends Populated r where
  dead_mem : .singleton deadState ∈ r.blocks.toList
  once : ∀ n, n ≠ deadState → AtMostOnce r n
  cover : ∀ n, n ∈ a.states ↔ ∃ B ∈ r.blocks.toList, n ∈ B

variable {a}

namespace Divided

variable {r r' : Refinement}

theorem take (h : a.Divided r) (group : NatSet) :
    a.Divided { r with pending := r.pending.erase group } :=
  ⟨h.toPopulated.take group, h.dead_mem, h.once, h.cover⟩

/-- Cutting a block keeps the blocks divided. -/
theorem cut (h : a.Divided r) {B X : NatSet} (hB : B ∈ r.blocks.toList) (hX : Crosses X B) :
    a.Divided (r.cut B X) := by
  refine ⟨h.toPopulated.cut hX, ?_, fun n hn => (h.once n hn).cut hB, fun n => ?_⟩
  · exact (mem_blocks_cut r B X _).mpr (.inl ⟨(hX.ne_singleton deadState).symm, h.dead_mem⟩)
  · rw [h.cover, exists_block_cut_iff hB]

/-- The blocks stay divided until the end. -/
theorem rounds [DecidableEq α] {way : NatSet → Refinement → NatSet → Refinement}
    (hway : ∀ group r X, Cuts (· = X) r (way group r X)) (h : a.Divided r)
    (hrounds : a.Rounds way r r') : a.Divided r' := by
  refine (hrounds.preserve (I := a.Divided) (fun r group hr _ => ?_) h).1
  exact (cuts_foldl (hway group) (a.sourceSets group) _).preserve (I := a.Divided)
    (fun hr _ hB hX => hr.cut hB hX) (hr.take group)

/-- The representative of a state other than the dead one is the least member of its block. -/
theorem rep_le (h : a.Divided r) {B : NatSet} (hB : B ∈ r.blocks.toList) {s : ℕ} (hs : s ∈ B)
    (hdead : s ≠ deadState) : r.rep s ∈ B ∧ ∀ n, n ∈ B → r.rep s ≤ n := by
  obtain ⟨-, C, hC, hsC, hrep, hleast⟩ := exists_representative? ⟨B, hB, hs⟩
  rw [h.once s hdead B hB C hC hs hsC]
  exact ⟨hrep, hleast⟩

theorem rep_dead (h : a.Divided r) : r.rep deadState = deadState := by
  obtain ⟨-, B, -, hdead, -, hleast⟩ :=
    exists_representative? ⟨_, h.dead_mem, (NatSet.mem_singleton _ _).mpr rfl⟩
  exact Nat.le_zero.mp (hleast _ hdead)

/-- The representative of a representative is itself. -/
theorem rep_rep (h : a.Divided r) {s : ℕ} (hs : s ∈ a.states) : r.rep (r.rep s) = r.rep s := by
  by_cases hdead : r.rep s = deadState
  · rw [hdead, h.rep_dead]
  · obtain ⟨-, B, hB, -, hrep, hleast⟩ := exists_representative? ((h.cover s).mp hs)
    obtain ⟨hmem, hle⟩ := h.rep_le hB hrep hdead
    exact le_antisymm (hle _ hrep) (hleast _ hmem)

/-- Every state represents itself exactly if no block has two states. -/
theorem rep_eq_iff (h : a.Divided r) : (∀ s ∈ a.states, r.rep s = s) ↔
    ∀ B ∈ r.blocks.toList, ∀ s t, s ∈ B → t ∈ B → s = t := by
  constructor
  · intro hrep B hB
    -- A state that is not dead is the least one of the block.
    have hleast : ∀ s t, s ∈ B → t ∈ B → s ≠ deadState → s ≤ t := by
      intro s t hs ht hdead
      have hle := (h.rep_le hB hs hdead).2 t ht
      rwa [hrep s ((h.cover s).mpr ⟨B, hB, hs⟩)] at hle
    intro s t hs ht
    by_cases hsdead : s = deadState
    · by_cases htdead : t = deadState
      · rw [hsdead, htdead]
      · have hle := hleast t s ht hs htdead
        rw [hsdead] at hle
        exact (htdead (Nat.le_zero.mp hle)).elim
    · have hle := hleast s t hs ht hsdead
      by_cases htdead : t = deadState
      · rw [htdead] at hle
        exact (hsdead (Nat.le_zero.mp hle)).elim
      · exact le_antisymm hle (hleast t s ht hs htdead)
  · intro hsingle s hs
    obtain ⟨-, B, hB, hsB, hrep, -⟩ := exists_representative? ((h.cover s).mp hs)
    exact hsingle B hB _ _ hrep hsB

/-- Refinements of which no block has two states have the same blocks. -/
theorem mem_blocks_of_single (h : a.Divided r) (h' : a.Divided r')
    (hsingle : ∀ B ∈ r.blocks.toList, ∀ s t, s ∈ B → t ∈ B → s = t)
    (hsingle' : ∀ B ∈ r'.blocks.toList, ∀ s t, s ∈ B → t ∈ B → s = t) {B : NatSet}
    (hB : B ∈ r.blocks.toList) : B ∈ r'.blocks.toList := by
  obtain ⟨s, hs⟩ := h.nonempty B hB
  obtain ⟨C, hC, hsC⟩ := (h'.cover s).mp ((h.cover s).mpr ⟨B, hB, hs⟩)
  have heq : B = C := NatSet.ext fun n => by
    constructor
    · intro hn
      exact hsingle B hB s n hs hn ▸ hsC
    · intro hn
      exact hsingle' C hC s n hsC hn ▸ hs
  exact heq ▸ hC

end Divided

end Blocks

section Compact

variable [DecidableEq α] (a : Automaton α)

/-- What a minimized automaton is like: it starts in the dead state, its states are numbered in order of
appearance, its rows have transitions, and states without transitions accept. -/
structure Compact : Prop where
  start : a.start = deadState
  readsSymbols : a.ReadsSymbols
  place_eq : ∀ s, a.Occurs s → place a.start a.transitions s = s
  moves : ∀ g ∈ a.rows.entries, g.2.entries ≠ []
  stops : ∀ s, a.Occurs s → s ∉ a.rows.keys → s ∈ a.accepting
  accepting_occurs : ∀ s, s ∈ a.accepting → a.Occurs s
  exists_accepting : ∃ s, s ∈ a.accepting

variable {a}

/-- The states of a block accept or none of them does, and if none does, they are dead or none is. -/
theorem Rounds.kind_of_block {way : NatSet → Refinement → NatSet → Refinement}
    (hway : ∀ group r X, Cuts (· = X) r (way group r X)) {r : Refinement}
    (h : a.Rounds way a.initial r) {B : NatSet} (hB : B ∈ r.blocks.toList) {s t : ℕ} (hs : s ∈ B)
    (ht : t ∈ B) : (s ∈ a.accepting ↔ t ∈ a.accepting) ∧
      (¬ s ∈ a.accepting → (s = deadState ↔ t = deadState)) := by
  obtain ⟨C, hC, hsub⟩ := h.exists_block hway B hB
  have hsC := hsub s hs
  have htC := hsub t ht
  rcases mem_blocks_initial.mp hC with rfl | rfl | rfl
  · rw [NatSet.mem_singleton] at hsC htC
    rw [hsC, htC]
    exact ⟨Iff.rfl, fun _ => Iff.rfl⟩
  · exact ⟨iff_of_true hsC htC, fun h => (h hsC).elim⟩
  · obtain ⟨-, hs, hsdead⟩ := (mem_others s).mp hsC
    obtain ⟨-, ht, htdead⟩ := (mem_others t).mp htC
    exact ⟨iff_of_false hs ht, fun _ => iff_of_false hsdead htdead⟩

namespace Compact

variable (ha : a.Compact)
include ha

theorem mem_states (s : ℕ) : s ∈ a.states ↔ a.Occurs s := by
  rw [Automaton.mem_states, Occurs, ha.start]

/-- A state with a row has a transition. -/
theorem exists_next {s : ℕ} (hs : s ∈ a.rows.keys) : ∃ c t, a.next? s c = some t := by
  obtain ⟨g, hg, rfl⟩ := List.mem_map.mp hs
  obtain ⟨e, es, he⟩ := List.exists_cons_of_ne_nil (ha.moves g hg)
  have hmem : (⟨g.1, e.1, e.2⟩ : Transition α) ∈ a.transitions :=
    List.mem_flatMap.mpr ⟨g, hg, by simp [he]⟩
  exact ⟨e.1, e.2, (a.mem_transitions _).mp hmem⟩

/-- The blocks are divided in the beginning. -/
theorem divided_initial (hothers : a.others.isEmpty = false) : a.Divided a.initial := by
  have hcases := fun B => mem_blocks_initial (a := a) (B := B)
  refine ⟨⟨?_, fun _ hG => hG⟩, (hcases _).mpr (.inl rfl), ?_, fun n => ?_⟩
  · intro B hB
    rcases (hcases B).mp hB with rfl | rfl | rfl
    · exact ⟨deadState, by simp⟩
    · exact ha.exists_accepting
    · exact (NatSet.isEmpty_eq_false_iff _).mp hothers
  · intro n hn B hB C hC hnB hnC
    have hwhich : ∀ B ∈ a.initial.blocks.toList, n ∈ B →
        B = if n ∈ a.accepting then a.accepting else a.others := by
      intro B hB hnB
      rcases (hcases B).mp hB with rfl | rfl | rfl
      · exact (hn ((NatSet.mem_singleton _ n).mp hnB)).elim
      · rw [if_pos hnB]
      · rw [if_neg ((mem_others n).mp hnB).2.1]
    rw [hwhich B hB hnB, hwhich C hC hnC]
  · simp only [hcases, exists_eq_or_imp, exists_eq_left, NatSet.mem_singleton, mem_others]
    have hdead : deadState ∈ a.states := (a.mem_states _).mpr (.inl rfl)
    have haccepting : n ∈ a.accepting → n ∈ a.states := fun hn =>
      (ha.mem_states n).mpr (ha.accepting_occurs n hn)
    grind

section Whole

variable {r : Refinement} (h : a.Rounds (fun _ => splitWhole) a.initial r) (hr : a.Divided r)
include h hr

/-- The states of a block that whole rounds leave have rows or none of them has. -/
theorem mem_keys_of_block {B : NatSet} (hB : B ∈ r.blocks.toList) {s t : ℕ} (hs : s ∈ B) (ht : t ∈ B)
    (hkey : s ∈ a.rows.keys) : t ∈ a.rows.keys := by
  obtain ⟨c, u, hu⟩ := ha.exists_next hkey
  obtain ⟨C, hC, hmem⟩ := (hr.cover _).mp (a.step_mem_states s c)
  exact ((h.enters_iff ha.readsSymbols hB hs ht (ha.readsSymbols hu) hC).mp ⟨hkey, hmem⟩).1

/-- A symbol leads the states of a block with rows into one block, and all or none of them to the dead
state. -/
theorem exists_block_of_step {B : NatSet} (hB : B ∈ r.blocks.toList) {s t : ℕ} (hs : s ∈ B)
    (ht : t ∈ B) (hkey : s ∈ a.rows.keys) (c : α) : ∃ C ∈ r.blocks.toList, a.step s c ∈ C ∧
      a.step t c ∈ C ∧ (a.step s c = deadState ↔ a.step t c = deadState) := by
  have hkey' := ha.mem_keys_of_block h hr hB hs ht hkey
  by_cases hc : c ∈ a.symbols.toList
  · have hsame : ∀ C ∈ r.blocks.toList, (a.step s c ∈ C ↔ a.step t c ∈ C) := by
      intro C hC
      have henters := h.enters_iff ha.readsSymbols hB hs ht hc hC
      rwa [Enters, Enters, and_iff_right hkey, and_iff_right hkey'] at henters
    obtain ⟨C, hC, hmem⟩ := (hr.cover _).mp (a.step_mem_states s c)
    refine ⟨C, hC, hmem, (hsame C hC).mp hmem, ?_⟩
    have hdead := hsame _ hr.dead_mem
    rwa [NatSet.mem_singleton, NatSet.mem_singleton] at hdead
  · have hstep : ∀ u, a.step u c = deadState := by
      intro u
      have hnone : a.next? u c = none :=
        Option.eq_none_iff_forall_ne_some.mpr fun v hv => hc (ha.readsSymbols hv)
      rw [step, hnone, Option.getD_none]
    rw [hstep, hstep]
    exact ⟨_, hr.dead_mem, by simp, by simp, Iff.rfl⟩

/-- The same shows of the states of a block after every word. -/
theorem trace_eq_of_block {B : NatSet} (hB : B ∈ r.blocks.toList) {s t : ℕ} (hs : s ∈ B) (ht : t ∈ B)
    (word : List α) (hdead : word = [] → (s = deadState ↔ t = deadState)) :
    a.trace s word = a.trace t word := by
  induction word generalizing B s t with
  | nil =>
    have haccepting := (h.kind_of_block (fun _ r X => (splitWhole_spec r X).1) hB hs ht).1
    rw [← NatSet.contains_iff, ← NatSet.contains_iff, ← Bool.eq_iff_iff] at haccepting
    have hsame : (s == deadState) = (t == deadState) := by
      rw [Bool.eq_iff_iff, beq_iff_eq, beq_iff_eq]
      exact hdead rfl
    rw [trace_nil, trace_nil, haccepting, hsame]
  | cons c word ih =>
    by_cases hkey : s ∈ a.rows.keys
    · obtain ⟨C, hC, hsC, htC, hboth⟩ := ha.exists_block_of_step h hr hB hs ht hkey c
      rw [trace_cons_of_mem hkey, trace_cons_of_mem (ha.mem_keys_of_block h hr hB hs ht hkey)]
      exact ih hC hsC htC fun _ => hboth
    · have hkey' : t ∉ a.rows.keys := mt (ha.mem_keys_of_block h hr hB ht hs) hkey
      rw [trace_cons_of_not_mem hkey, trace_cons_of_not_mem hkey']

/-- The states of a block that whole rounds leave are confused. -/
theorem confused_of_block {B : NatSet} (hB : B ∈ r.blocks.toList) {s t : ℕ} (hs : s ∈ B)
    (ht : t ∈ B) : a.Confused s t := by
  obtain ⟨haccepting, hdead⟩ := h.kind_of_block (fun _ r X => (splitWhole_spec r X).1) hB hs ht
  exact ⟨haccepting, hdead, fun c word => ha.trace_eq_of_block h hr hB hs ht _ (by simp)⟩

end Whole

/-- Refinement parts confused states only by the block of the dead state. -/
theorem confused_mem_block {r : Refinement} (h : a.Rounds splitBySources a.initial r)
    (hr : Populated a.initial) : ∀ B ∈ r.blocks.toList, B = .singleton deadState ∨
      ∀ s t, a.Confused s t → t ∈ a.states → s ∈ B → t ∈ B := by
  have hway : ∀ group r X, Cuts (· = X) r (splitBySources group r X) :=
    fun group r X => cuts_splitBySources group r X
  refine h.forall_blocks hway hr ?_ ?_
  · intro B hB
    rcases mem_blocks_initial.mp hB with rfl | rfl | rfl
    · exact .inl rfl
    · exact .inr fun s t hst _ hs => hst.accepting.mp hs
    · refine .inr fun s t hst ht hs => ?_
      obtain ⟨-, haccepting, hdead⟩ := (mem_others s).mp hs
      exact (mem_others t).mpr ⟨ht, mt hst.accepting.mpr haccepting, mt (hst.dead haccepting).mpr hdead⟩
  · intro _ _ G _ hG X hX B hB hcross
    obtain ⟨-, c, hinto⟩ := (mem_sourceSets ha.readsSymbols G X).mp hX
    have hXsame : ∀ s t, a.Confused s t → s ∈ X → t ∈ X := by
      intro s t hst hs
      obtain ⟨hkey, hstep⟩ := (hinto.mem_iff s).mp hs
      refine (hinto.mem_iff t).mpr ⟨hst.mem_keys c hkey, ?_⟩
      rcases hG with rfl | hG
      · rw [NatSet.mem_singleton] at hstep ⊢
        exact (hst.step_eq_dead_iff hkey c).mp hstep
      · exact hG _ _ (hst.step hkey c) (a.step_mem_states t c) hstep
    have hBsame := hB.resolve_left (hcross.ne_singleton deadState)
    constructor
    · refine .inr fun s t hst ht hs => ?_
      rw [NatSet.mem_inter] at hs ⊢
      exact ⟨hBsame s t hst ht hs.1, hXsame s t hst hs.2⟩
    · refine .inr fun s t hst ht hs => ?_
      rw [mem_outside] at hs ⊢
      exact ⟨hBsame s t hst ht hs.1, mt (hXsame t s hst.symm) hs.2⟩

/-- Every state represents itself after refinement exactly if refinement leaves the blocks that whole
rounds leave and no two states are confused. -/
theorem rep_eq_iff (hothers : a.others.isEmpty = false) {r : Refinement} (hr : a.refinement = .ok r) :
    (∀ s, a.Occurs s → r.rep s = s) ↔
      a.RefinedWholly ∧ ∀ s t, a.Occurs s → a.Occurs t → a.Confused s t → s = t := by
  have hinitial := ha.divided_initial hothers
  obtain ⟨r₁, hr₁, hrounds⟩ := exists_refinement_rounds hinitial.toPopulated
  obtain ⟨r', hr', hrounds'⟩ := exists_wholeRefinement_rounds hinitial.toPopulated
  rw [hr] at hr₁
  cases hr₁
  have hdivided := hinitial.rounds (fun group r X => cuts_splitBySources group r X) hrounds
  have hdivided' := hinitial.rounds (fun _ r X => (splitWhole_spec r X).1) hrounds'
  have hwhole : a.RefinedWholly ↔ ∀ B, B ∈ r.blocks.toList ↔ B ∈ r'.blocks.toList := by
    rw [RefinedWholly, hothers, hr, hr']
    simp
  have hstates : (∀ s, a.Occurs s → r.rep s = s) ↔ ∀ s ∈ a.states, r.rep s = s :=
    forall_congr' fun s => by rw [ha.mem_states]
  have hoccurs : ∀ {r}, a.Divided r → ∀ {B s}, B ∈ r.blocks.toList → s ∈ B → a.Occurs s :=
    fun hr _ _ hB hs => (ha.mem_states _).mp ((hr.cover _).mpr ⟨_, hB, hs⟩)
  rw [hstates, hdivided.rep_eq_iff, hwhole]
  constructor
  · intro hsingle
    have hapart : ∀ s t, a.Occurs s → a.Occurs t → a.Confused s t → s = t := by
      -- One of two different states is not dead, and its block holds both.
      have hown : ∀ s t, a.Occurs s → a.Occurs t → a.Confused s t → s ≠ deadState → s = t := by
        intro s t hs ht hst hdead
        obtain ⟨B, hB, hsB⟩ := (hdivided.cover s).mp ((ha.mem_states s).mpr hs)
        rcases ha.confused_mem_block hrounds hinitial.toPopulated B hB with rfl | hsame
        · exact (hdead ((NatSet.mem_singleton _ s).mp hsB)).elim
        · exact hsingle B hB s t hsB (hsame s t hst ((ha.mem_states t).mpr ht) hsB)
      intro s t hs ht hst
      by_cases hsdead : s = deadState
      · by_cases htdead : t = deadState
        · rw [hsdead, htdead]
        · exact (hown t s ht hs hst.symm htdead).symm
      · exact hown s t hs ht hst hsdead
    have hsingle' : ∀ B ∈ r'.blocks.toList, ∀ s t, s ∈ B → t ∈ B → s = t := fun B hB s t hs ht =>
      hapart s t (hoccurs hdivided' hB hs) (hoccurs hdivided' hB ht)
        (ha.confused_of_block hrounds' hdivided' hB hs ht)
    exact ⟨fun B => ⟨hdivided.mem_blocks_of_single hdivided' hsingle hsingle',
      hdivided'.mem_blocks_of_single hdivided hsingle' hsingle⟩, hapart⟩
  · rintro ⟨hblocks, hapart⟩ B hB s t hs ht
    exact hapart s t (hoccurs hdivided hB hs) (hoccurs hdivided hB ht)
      (ha.confused_of_block hrounds' hdivided' ((hblocks B).mp hB) hs ht)

end Compact

end Compact

end ShellCompletion.Automaton
