import Mathlib.Data.Finset.Card
import ShellCompletion.Proofs.ExpressionWords
import ShellCompletion.Proofs.Merging

/-!
# When minimization preserves the accepted words

Minimization of a trim automaton always succeeds. It preserves the accepted words exactly if refinement
leaves the blocks that whole rounds leave. Rounds that end early can leave states of different kinds in
one block, and then words get lost or are added.
-/

namespace ShellCompletion.Automaton

open Refinement

variable {α : Type} [DecidableEq α]

/-- What minimization yields: the representatives under new numbers, with their own transitions, whose
targets are replaced by representatives. -/
structure MergedInto (a : Automaton α) (r : Refinement) (number : ℕ → ℕ) (m : Automaton α) : Prop where
  start : m.start = number (r.rep a.start)
  symbols : m.symbols = a.symbols
  number_inj : ∀ {s t}, a.Represented r s → a.Represented r t → number s = number t → s = t
  next : ∀ {s}, a.Represented r s → ∀ c,
    m.next? (number s) c = (a.next? s c).map fun t => number (r.rep t)
  accepting : ∀ {s}, a.Represented r s → (number s ∈ m.accepting ↔ s ∈ a.accepting)
  source : ∀ {n k c}, m.next? n c = some k → ∃ s, a.Represented r s ∧ number s = n

variable {a : Automaton α} {r : Refinement}

/-- After refinement states are merged and numbered, if each of them is in some block. -/
theorem minimize_eq_renumber (hothers : a.others.isEmpty = false) (hr : a.refinement = .ok r)
    (hstart : ∃ B ∈ r.blocks.toList, a.start ∈ B)
    (haccepting : ∀ s, s ∈ a.accepting → ∃ B ∈ r.blocks.toList, s ∈ B)
    (htarget : ∀ t ∈ a.transitions, ∃ B ∈ r.blocks.toList, t.target ∈ B) :
    a.minimize = renumber (r.rep a.start) (dropUseless (a.kept r).1 (a.kept r).2) (a.kept r).2
      a.symbols := by
  have hrep : ∀ {s}, (∃ B ∈ r.blocks.toList, s ∈ B) →
      require .unknownState (representative? r.blocks.toList s) = .ok (r.rep s) := by
    intro s hs
    rw [(exists_representative? hs).1]
    rfl
  have haccepting : a.accepting.toList.mapM
      (fun s => require .unknownState (representative? r.blocks.toList s)) =
      (.ok (a.accepting.toList.map r.rep) : Result (List ℕ)) :=
    Result.mapM_eq_ok fun s hs => hrep (haccepting s ((NatSet.mem_toList _ s).mp hs))
  have htransitions : a.transitions.mapM (fun t => do
      return { t with target := ← require .unknownState (representative? r.blocks.toList t.target) }) =
      (.ok (a.merged r) : Result (List (Transition α))) := by
    refine Result.mapM_eq_ok fun t ht => ?_
    rw [hrep (htarget t ht), Result.ok_bind]
    rfl
  rw [minimize]
  dsimp only
  rw [← others, hothers, if_neg Bool.false_ne_true]
  change (a.refinement >>= _) = _
  rw [hr, Result.ok_bind, hrep hstart, Result.ok_bind, haccepting, Result.ok_bind, htransitions,
    Result.ok_bind]
  rfl

/-- In a trim automaton all that is kept has a use. -/
theorem minimize_eq (ha : a.Trim) (hothers : a.others.isEmpty = false) (hr : a.refinement = .ok r)
    (hcoarse : a.Coarse r) :
    a.minimize = renumber (r.rep a.start) (a.kept r).1 (a.kept r).2 a.symbols := by
  have hblock : ∀ {s}, s ∈ a.rows.keys → ∃ B ∈ r.blocks.toList, s ∈ B := fun hs =>
    (hcoarse.partition.cover _).mp ((ha.mem_states _).mpr (.inr hs))
  rw [minimize_eq_renumber hothers hr (hblock ha.start_row)
    (fun s hs => hblock (ha.accepting_row s hs))
    (fun t ht => hblock (ha.target_row ((a.mem_transitions t).mp ht))), hcoarse.dropUseless_kept ha]

namespace Settled

variable (h : a.Settled (fun _ => False) r) (hpending : r.pending.toList = []) (ha : a.Trim)
include h hpending ha

/-- When no group is pending, minimization merges each block into its representative. -/
theorem minimize_eq (hothers : a.others.isEmpty = false) (hr : a.refinement = .ok r) :
    a.minimize = .ok (a.mergeBlocks r) := by
  rw [Automaton.minimize_eq ha hothers hr h.toCoarse, renumber_eq]
  · rfl
  · intro s hs
    obtain ⟨hs, hrep⟩ := (h.toCoarse.mem_kept_accepting ha s).mp hs
    exact h.mem_appearances hpending ha ⟨ha.accepting_row s hs, hrep⟩

/-- The merged automaton is one into which the blocks are merged. -/
theorem mergedInto : a.MergedInto r (place (r.rep a.start) (a.kept r).1) (a.mergeBlocks r) := by
  have hcoarse := h.toCoarse
  have happears : ∀ {s}, a.Represented r s → s ∈ (appearances (r.rep a.start) (a.kept r).1).toList :=
    fun hs => h.mem_appearances hpending ha hs
  have hfunctional : ∀ t ∈ (a.kept r).1, ∀ u ∈ (a.kept r).1, t.source = u.source →
      t.symbol = u.symbol → t.target = u.target := by
    intro t ht u hu hsource hsymbol
    obtain ⟨-, t', ht', ht⟩ := (hcoarse.mem_kept ha t).mp ht
    obtain ⟨-, u', hu', hu⟩ := (hcoarse.mem_kept ha u).mp hu
    rw [hsource, hsymbol, hu'] at ht'
    rw [ht, hu, Option.some.inj ht']
  have hnext := get?_rowsOf_renumbered (r.rep a.start) hfunctional
  refine ⟨rfl, rfl, fun hs ht heq => place_inj (happears hs) (happears ht) heq, ?_, ?_, ?_⟩
  · intro s hs c
    apply Option.ext
    intro k
    rw [next?, mergeBlocks, hnext, Option.map_eq_some_iff]
    constructor
    · rintro ⟨t, ht, hsource, rfl, rfl⟩
      obtain ⟨hrep, u, hu, htarget⟩ := (hcoarse.mem_kept ha t).mp ht
      have heq := place_inj (happears ⟨a.mem_keys_of_next? hu, hrep⟩) (happears hs) hsource
      exact ⟨u, heq ▸ hu, by rw [htarget]⟩
    · rintro ⟨u, hu, rfl⟩
      exact ⟨⟨s, c, r.rep u⟩, (hcoarse.mem_kept ha _).mpr ⟨hs.2, u, hu, rfl⟩, rfl, rfl, rfl⟩
  · intro s hs
    rw [mem_accepting_mergeBlocks]
    constructor
    · rintro ⟨t, ht, heq⟩
      obtain ⟨ht, hrep⟩ := (hcoarse.mem_kept_accepting ha t).mp ht
      exact place_inj (happears ⟨ha.accepting_row t ht, hrep⟩) (happears hs) heq ▸ ht
    · exact fun hacc => ⟨s, (hcoarse.mem_kept_accepting ha s).mpr ⟨hacc, hs.2⟩, rfl⟩
  · intro n k c hk
    obtain ⟨t, ht, hsource, -⟩ := (hnext n c k).mp hk
    obtain ⟨hrep, u, hu, -⟩ := (hcoarse.mem_kept ha t).mp ht
    exact ⟨t.source, ⟨a.mem_keys_of_next? hu, hrep⟩, hsource⟩

end Settled

/-- Minimization of a trim automaton in which some state neither accepts nor is dead succeeds, and
merges each block into its representative. -/
theorem exists_minimize (ha : a.Trim) (hothers : a.others.isEmpty = false) :
    ∃ r m number, a.refinement = .ok r ∧ a.Coarse r ∧ a.minimize = .ok m ∧
      a.MergedInto r number m := by
  obtain ⟨r, hr, hsettled, hpending⟩ := exists_refinement ha hothers
  exact ⟨r, a.mergeBlocks r, _, hr, hsettled.toCoarse, hsettled.minimize_eq hpending ha hothers hr,
    hsettled.mergedInto hpending ha⟩

namespace MergedInto

variable {m : Automaton α} {number : ℕ → ℕ}

/-- Runs of the merged automaton pass through representatives. -/
theorem exists_represented (h : a.MergedInto r number m) (hcoarse : a.Coarse r) (ha : a.Trim)
    {s n : ℕ} (hs : a.Represented r s) {word : List α} (hrun : m.run? (number s) word = some n) :
    ∃ t, a.Represented r t ∧ number t = n := by
  induction word generalizing s with
  | nil => exact ⟨s, hs, Option.some.inj hrun⟩
  | cons c word ih =>
    obtain ⟨k, hk, hrun⟩ := Option.bind_eq_some_iff.mp hrun
    rw [h.next hs, Option.map_eq_some_iff] at hk
    obtain ⟨t, ht, rfl⟩ := hk
    exact ih (hcoarse.represented_rep ha (ha.target_row ht)) hrun

/-- If the states of each block are alike, the merged automaton accepts from a representative what the
automaton accepts from any state of the block. -/
theorem acceptsFrom_eq (h : a.MergedInto r number m) (hcoarse : a.Coarse r) (ha : a.Trim)
    (halike : ∀ B ∈ r.blocks.toList, ∀ s t, s ∈ B → t ∈ B → a.Alike s t) {s : ℕ}
    (hs : s ∈ a.rows.keys) (word : List α) :
    m.acceptsFrom (number (r.rep s)) word = a.acceptsFrom s word := by
  induction word generalizing s with
  | nil =>
    have hrep := hcoarse.represented_rep ha hs
    obtain ⟨B, hB, -, hsB⟩ := hcoarse.exists_block ha hs
    have hsame := halike B hB _ s (rep_mem hcoarse.partition hB hsB) hsB
    rw [acceptsFrom_nil, acceptsFrom_nil, Bool.eq_iff_iff, NatSet.contains_iff,
      NatSet.contains_iff, h.accepting hrep, hsame.accepting]
  | cons c word ih =>
    have hrep := hcoarse.represented_rep ha hs
    obtain ⟨B, hB, -, hsB⟩ := hcoarse.exists_block ha hs
    have hsame := halike B hB _ s (rep_mem hcoarse.partition hB hsB) hsB
    have hnext := h.next hrep c
    rw [← hsame]
    cases htarget : a.next? (r.rep s) c with
    | none =>
      rw [htarget, Option.map_none] at hnext
      rw [m.acceptsFrom_cons_none hnext, a.acceptsFrom_cons_none htarget]
    | some t =>
      rw [htarget, Option.map_some] at hnext
      rw [m.acceptsFrom_cons_some hnext, a.acceptsFrom_cons_some htarget, ih (ha.target_row htarget)]

/-- If the merged automaton accepts the same words, then for each state there is a representative from
which it accepts what is accepted from the state. -/
theorem exists_same (h : a.MergedInto r number m) (hcoarse : a.Coarse r) (ha : a.Trim)
    (hsame : ∀ word, m.accepts word = a.accepts word) {s : ℕ} (hs : s ∈ a.rows.keys) :
    ∃ t, a.Represented r t ∧ ∀ word, m.acceptsFrom (number t) word = a.acceptsFrom s word := by
  obtain ⟨u, hu⟩ := ha.reached s hs
  obtain ⟨v, hv⟩ := ha.useful s hs
  have hafter : ∀ w, m.acceptsFrom m.start (u ++ w) = a.acceptsFrom s w := fun w => by
    rw [← accepts_eq, hsame, accepts_eq, a.acceptsFrom_append hu]
  cases hrun : m.run? m.start u with
  | none =>
    have hfalse := hafter v
    rw [acceptsFrom, run?_append, hrun, Option.bind_none, hv] at hfalse
    cases hfalse
  | some n =>
    have hstart := hcoarse.represented_rep ha ha.start_row
    obtain ⟨t, ht, rfl⟩ := h.exists_represented hcoarse ha hstart (h.start ▸ hrun)
    exact ⟨t, ht, fun w => (m.acceptsFrom_append hrun w).symm.trans (hafter w)⟩

/-- If the merged automaton accepts the same words, the states of each block are alike. It has no more
states than there are blocks, and needs one for each kind of states; so no block has two kinds. -/
theorem alike (h : a.MergedInto r number m) (hcoarse : a.Coarse r) (ha : a.Trim)
    (hsame : ∀ word, m.accepts word = a.accepts word) {s : ℕ} (hs : s ∈ a.rows.keys) :
    a.Alike (r.rep s) s := by
  classical
  have hparted : ∀ {s t}, s ∈ a.rows.keys → t ∈ a.rows.keys → a.Alike s t → r.rep s = r.rep t := by
    intro s t hs ht hst
    obtain ⟨B, hB, -, hsB⟩ := hcoarse.exists_block ha hs
    have htB := hcoarse.saturated B hB s t ((ha.mem_states s).mpr (.inr hs))
      ((ha.mem_states t).mpr (.inr ht)) hst hsB
    exact rep_eq_rep hcoarse.partition hB hsB htB
  choose! f hf hwords using fun s (hs : s ∈ a.rows.keys) => h.exists_same hcoarse ha hsame hs
  have halike : ∀ {s t}, s ∈ a.rows.keys → t ∈ a.rows.keys → f s = f t → a.Alike s t :=
    fun hs ht heq word => by rw [← hwords _ hs, ← hwords _ ht, heq]
  -- Sending a representative to the one with its words is injective, so it reaches all of them.
  set reps := a.rows.keys.toFinset.filter fun s => r.rep s = s with hreps
  have hmem : ∀ s, s ∈ reps ↔ a.Represented r s := fun s => by simp [hreps, Represented]
  have hsurj : Set.SurjOn f reps reps := by
    refine Finset.surjOn_of_injOn_of_card_le f ?_ ?_ le_rfl
    · exact fun t ht => (hmem _).mpr (hf t ((hmem t).mp ht).1)
    · intro t ht u hu heq
      have ht := (hmem t).mp ht
      have hu := (hmem u).mp hu
      rw [← ht.2, ← hu.2]
      exact hparted ht.1 hu.1 (halike ht.1 hu.1 heq)
  obtain ⟨t, ht, heq⟩ := hsurj ((hmem _).mpr (hf s hs))
  have ht := (hmem t).mp ht
  have hts := halike ht.1 hs heq
  rw [← hparted ht.1 hs hts, ht.2]
  exact hts

/-- Merging preserves the accepted words exactly if the states of each block are alike. -/
theorem accepts_iff (h : a.MergedInto r number m) (hcoarse : a.Coarse r) (ha : a.Trim) :
    (∀ word, m.accepts word = a.accepts word) ↔
      ∀ B ∈ r.blocks.toList, ∀ s t, s ∈ B → t ∈ B → a.Alike s t := by
  constructor
  · intro hsame B hB s t hs ht
    by_cases hdead : B = .singleton deadState
    · rw [hdead, NatSet.mem_singleton] at hs ht
      exact fun word => by rw [hs, ht]
    · have hs' := h.alike hcoarse ha hsame (hcoarse.mem_keys ha hB hdead hs)
      have ht' := h.alike hcoarse ha hsame (hcoarse.mem_keys ha hB hdead ht)
      rw [rep_eq_rep hcoarse.partition hB hs ht] at hs'
      exact hs'.symm.trans ht'
  · intro halike word
    rw [accepts_eq, accepts_eq, h.start, h.acceptsFrom_eq hcoarse ha halike ha.start_row]

end MergedInto

/-- Coarse blocks of which the states are alike are the blocks that whole rounds leave. -/
theorem Coarse.same_blocks_iff (h : a.Coarse r) {r' : Refinement} (h' : a.Coarse r')
    (halike : ∀ B ∈ r'.blocks.toList, ∀ s t, s ∈ B → t ∈ B → a.Alike s t) :
    (∀ B, B ∈ r.blocks.toList ↔ B ∈ r'.blocks.toList) ↔
      ∀ B ∈ r.blocks.toList, ∀ s t, s ∈ B → t ∈ B → a.Alike s t := by
  constructor
  · exact fun hsame B hB => halike B ((hsame B).mp hB)
  · intro hown
    -- Two such blocks with a common state hold exactly the states like it.
    have heq : ∀ B ∈ r.blocks.toList, ∀ C ∈ r'.blocks.toList, ∀ s, s ∈ B → s ∈ C → B = C := by
      intro B hB C hC s hsB hsC
      have hs := (h.partition.cover s).mpr ⟨B, hB, hsB⟩
      refine NatSet.ext fun t => ⟨fun ht => ?_, fun ht => ?_⟩
      · exact h'.saturated C hC s t hs ((h.partition.cover t).mpr ⟨B, hB, ht⟩)
          (hown B hB s t hsB ht) hsC
      · exact h.saturated B hB s t hs ((h'.partition.cover t).mpr ⟨C, hC, ht⟩)
          (halike C hC s t hsC ht) hsB
    refine fun B => ⟨fun hB => ?_, fun hB => ?_⟩
    · obtain ⟨s, hs⟩ := h.partition.nonempty B hB
      obtain ⟨C, hC, hsC⟩ := (h'.partition.cover s).mp ((h.partition.cover s).mpr ⟨B, hB, hs⟩)
      exact heq B hB C hC s hs hsC ▸ hC
    · obtain ⟨s, hs⟩ := h'.partition.nonempty B hB
      obtain ⟨C, hC, hsC⟩ := (h.partition.cover s).mp ((h'.partition.cover s).mpr ⟨B, hB, hs⟩)
      exact (heq C hC B hB s hsC hs) ▸ hC

/-- Whether refinement leaves the blocks that it would leave if no round ended early. There is nothing
to refine if all states but the dead one accept. -/
def RefinedWholly (a : Automaton α) : Prop :=
  a.others.isEmpty = true ∨ ∃ r r', a.refinement = .ok r ∧ a.wholeRefinement = .ok r' ∧
    ∀ B, B ∈ r.blocks.toList ↔ B ∈ r'.blocks.toList

/-- Refinement is whole if it comes to the same blocks with breaks and without. -/
theorem RefinedWholly.of_blocks (blocks : List NatSet)
    (h : a.refinement.toOption.map (·.blocks.toList) = some blocks)
    (h' : a.wholeRefinement.toOption.map (·.blocks.toList) = some blocks) : a.RefinedWholly := by
  cases hr : a.refinement with
  | error => simp [hr, Except.toOption] at h
  | ok r =>
    cases hr' : a.wholeRefinement with
    | error => simp [hr', Except.toOption] at h'
    | ok r' =>
      rw [hr] at h
      rw [hr'] at h'
      have hblocks : r.blocks.toList = blocks := Option.some.inj h
      have hblocks' : r'.blocks.toList = blocks := Option.some.inj h'
      exact .inr ⟨r, r', hr, hr', fun B => by rw [hblocks, hblocks']⟩

/-- Refinement leaves the blocks that whole rounds leave exactly if the states of each block are alike. -/
theorem Coarse.refinedWholly_iff (h : a.Coarse r) (ha : a.Trim) (hothers : a.others.isEmpty = false)
    (hr : a.refinement = .ok r) :
    a.RefinedWholly ↔ ∀ B ∈ r.blocks.toList, ∀ s t, s ∈ B → t ∈ B → a.Alike s t := by
  obtain ⟨r', hr', hcoarse', hstable⟩ := exists_wholeRefinement ha hothers
  have halike : ∀ B ∈ r'.blocks.toList, ∀ s t, s ∈ B → t ∈ B → a.Alike s t :=
    fun B hB s t hs ht => alike_of_stable ha hcoarse' hstable hB hs ht
  rw [← h.same_blocks_iff hcoarse' halike, RefinedWholly, hothers, hr, hr']
  simp

/-- An automaton in which all states accept is left as it is. -/
theorem minimize_of_isEmpty (hothers : a.others.isEmpty = true) : a.minimize = .ok a := by
  rw [minimize]
  dsimp only
  rw [← others, hothers, if_pos rfl]
  rfl

/-- What a trim automaton is minimized to: itself if there is nothing to refine, and else what its blocks
are merged into. -/
theorem Trim.minimize_cases (ha : a.Trim) {m : Automaton α} (hm : a.minimize = .ok m) :
    m = a ∨ ∃ r number, (∃ s, s ∈ a.others) ∧ a.Coarse r ∧ a.MergedInto r number m := by
  cases hothers : a.others.isEmpty with
  | true =>
    rw [minimize_of_isEmpty hothers] at hm
    cases hm
    exact .inl rfl
  | false =>
    obtain ⟨r, m', number, -, hcoarse, hm', hmerged⟩ := Automaton.exists_minimize ha hothers
    rw [hm] at hm'
    cases hm'
    exact .inr ⟨r, number, (NatSet.isEmpty_eq_false_iff _).mp hothers, hcoarse, hmerged⟩

/-- Minimization of a trim automaton succeeds, and preserves the accepted words exactly if refinement
leaves the blocks that whole rounds leave. -/
theorem Trim.exists_minimize (ha : a.Trim) :
    ∃ m, a.minimize = .ok m ∧ ((∀ word, m.accepts word = a.accepts word) ↔ a.RefinedWholly) := by
  cases hothers : a.others.isEmpty with
  | true =>
    exact ⟨a, minimize_of_isEmpty hothers, iff_of_true (fun _ => rfl) (.inl hothers)⟩
  | false =>
    obtain ⟨r, m, number, hr, hcoarse, hm, hmerged⟩ := Automaton.exists_minimize ha hothers
    exact ⟨m, hm, by rw [hmerged.accepts_iff hcoarse ha, hcoarse.refinedWholly_iff ha hothers hr]⟩

end ShellCompletion.Automaton

namespace ShellCompletion.Expr

/-- The automaton of an expression without empty sequences and choices can always be minimized. The
result accepts the words of the automaton exactly if refinement leaves the blocks that it would leave
if no round ended early. -/
theorem minimize_accepts_iff {check : Positions Input → Result Unit}
    {specializations : Specializations} {s t : Interner Input} {e : Expr} {p : Pattern Input}
    (h : e.toPattern check specializations s = .ok (t, p)) (hfull : e.Full)
    (hlimit : {S | p.positions.Discovered S}.encard ≤ Positions.stateLimit) :
    ∃ d m, p.positions.automaton = .ok d ∧ d.minimize = .ok m ∧
      ((∀ word, m.accepts word = d.accepts word) ↔ d.RefinedWholly) := by
  obtain ⟨-, d, number, hd, hrep⟩ | ⟨hlt, -⟩ := p.positions.automaton_cases
  · obtain ⟨m, hm, hiff⟩ := (hrep.trim (full_toPattern h hfull)).exists_minimize
    exact ⟨d, m, hd, hm, hiff⟩
  · exact absurd hlimit (not_le_of_gt hlt)

/-- Its words are kept exactly if it is refined wholly. -/
theorem minimize_repeatedChoice : ∃ d m, repeatedChoicePattern.positions.automaton = .ok d ∧
    d.minimize = .ok m ∧ ((∀ word, m.accepts word = d.accepts word) ↔ d.RefinedWholly) :=
  minimize_accepts_iff toPattern_repeatedChoice (by simp [repeatedChoice, Full, FullAll])
    discovered_repeatedChoice

/-- An input that occurs at several positions. -/
def sameInput : Input := .literal "a" none 0 none

/-- A sequence that is repeated and ends with a repeated part: `(a (a a a)...)...`. -/
def nestedRepeat : Expr :=
  let a : Expr := .literal "a" none 0 none
  .repeated (.sequence [a, .repeated (.sequence [a, a, a])])

/-- The pattern of that expression. -/
def nestedRepeatPattern : Pattern Input :=
  let a : Pattern Input := .symbol sameInput
  .repeated (.sequence [a, .repeated (.sequence [a, a, a])])

/-- The automaton of that pattern: a path that ends in a loop. -/
def nestedRepeatAutomaton : Automaton Input :=
  .ofTransitions 1 ([(1, 2), (2, 3), (3, 4), (4, 5), (5, 6), (6, 7), (7, 8), (8, 9), (9, 10), (10, 11),
    (11, 11)].map fun e => ⟨e.1, sameInput, e.2⟩) [5, 8, 9, 11] [sameInput]

/-- The transitions of that automaton are complete and stand in ascending order already. -/
theorem image_nestedRepeat : nestedRepeatAutomaton.image =
    nestedRepeatAutomaton.transitions.toArray := by
  have hcompleted : (nestedRepeatAutomaton.rows.entries.flatMap fun r =>
      r.2.entries.map (fun e => (⟨r.1, e.1, e.2⟩ : Transition Input)) ++
        (nestedRepeatAutomaton.symbols.toList.filter (!r.2.contains ·)).map fun symbol =>
          ⟨r.1, symbol, Automaton.deadState⟩) = nestedRepeatAutomaton.transitions := by
    decide +kernel
  have hsorted : nestedRepeatAutomaton.transitions.Pairwise fun s t =>
      decide (s.target ≤ t.target) = true := by
    decide +kernel
  rw [Automaton.image, hcompleted, List.mergeSort_of_pairwise hsorted]

/-- Minimization loses a word of eight symbols. -/
theorem minimize_nestedRepeat :
    nestedRepeat.toPattern (fun _ => .ok ()) .empty {} = .ok ({}, nestedRepeatPattern) ∧
      nestedRepeatPattern.positions.automaton.toOption = some nestedRepeatAutomaton ∧
      nestedRepeatAutomaton.accepts (List.replicate 8 sameInput) = true ∧
      nestedRepeatAutomaton.minimize.toOption.map (·.accepts (List.replicate 8 sameInput)) =
        some false := by
  refine ⟨rfl, by decide +kernel, by decide +kernel, ?_⟩
  unfold Automaton.minimize
  rw [image_nestedRepeat]
  decide +kernel

end ShellCompletion.Expr
