import Mathlib.Data.List.Permutation
import ShellCompletion.Proofs.Minimization

/-!
# When minimization tells all states apart

A minimized automaton has no two states from which the same words are accepted, up to two exceptions.
If every set of positions holds the end position, nothing is merged. And rounds that end early can leave
states from which no word is accepted; such a state is told apart from a missing transition, though no
word does so. Refinement never parts two states that behave alike in the merged automaton, so there is
no third exception.
-/

namespace ShellCompletion.Automaton

open Refinement

variable {α : Type} [DecidableEq α]

section States

variable (a : Automaton α)

/-- The states that occur in an automaton: the start and the ends of transitions. -/
def Occurs (s : ℕ) : Prop := s = a.start ∨ ∃ t ∈ a.transitions, s = t.source ∨ s = t.target

/-- Whether for any two states that occur some word leads exactly one of them to acceptance. -/
def TellsApart : Prop :=
  ∀ s t, a.Occurs s → a.Occurs t → s ≠ t → ∃ word, a.acceptsFrom s word ≠ a.acceptsFrom t word

/-- Whether no word leads from a state to acceptance. -/
def Lost (s : ℕ) : Prop := ∀ word, a.acceptsFrom s word = false

/-- Whether some word leads from the first state to a lost one and cannot be read from the second. -/
def Strays (s t : ℕ) : Prop := ∃ word u, a.run? s word = some u ∧ a.Lost u ∧ a.run? t word = none

/-- Where a word ends: nowhere, or in a state that accepts or does not. -/
def outcome (s : ℕ) (word : List α) : Option Bool := (a.run? s word).map a.accepting.contains

variable {a}

theorem outcome_nil (s : ℕ) : a.outcome s [] = some (a.accepting.contains s) := rfl

/-- The outcome of a word is that of its rest from the next state. -/
theorem outcome_cons_some {s t : ℕ} {c : α} (h : a.next? s c = some t) (word : List α) :
    a.outcome s (c :: word) = a.outcome t word := by
  simp only [outcome, run?, h, Option.bind_some]

/-- A word that begins with a symbol for which there is no transition has no outcome. -/
theorem outcome_cons_none {s : ℕ} {c : α} (h : a.next? s c = none) (word : List α) :
    a.outcome s (c :: word) = none := by
  simp only [outcome, run?, h, Option.bind_none, Option.map_none]

/-- States with the same outcomes have transitions on the same symbols. -/
theorem next?_eq_none_of_outcome {s t : ℕ} (h : ∀ word, a.outcome s word = a.outcome t word) {c : α}
    (hs : a.next? s c = none) : a.next? t c = none := by
  cases ht : a.next? t c with
  | none => rfl
  | some u =>
    have hword := h [c]
    rw [outcome_cons_none hs, outcome_cons_some ht, outcome_nil] at hword
    cases hword

/-- If the outcomes of a word differ and yet the same words are accepted from two states, then one of
them strays. -/
theorem Alike.strays_of_outcome_ne {s t : ℕ} (h : a.Alike s t) {word : List α}
    (hword : a.outcome s word ≠ a.outcome t word) : a.Strays s t ∨ a.Strays t s := by
  have lost : ∀ {s t u}, a.Alike s t → a.run? s word = some u → a.run? t word = none → a.Lost u := by
    intro s t u halike hs ht rest
    have hrest := halike (word ++ rest)
    rw [a.acceptsFrom_append hs] at hrest
    rw [hrest, acceptsFrom, run?_append, ht]
    rfl
  cases hs : a.run? s word with
  | none =>
    cases ht : a.run? t word with
    | none => exact (hword (by rw [outcome, outcome, hs, ht])).elim
    | some v => exact .inr ⟨word, v, ht, lost h.symm ht hs, hs⟩
  | some u =>
    cases ht : a.run? t word with
    | none => exact .inl ⟨word, u, hs, lost h hs ht, ht⟩
    | some v =>
      have hends : a.accepting.contains u = a.accepting.contains v := by
        simpa only [acceptsFrom, hs, ht] using h word
      exact (hword (by rw [outcome, outcome, hs, ht, Option.map_some, Option.map_some, hends])).elim

/-- A state does not stray from itself. -/
theorem Strays.ne {s t : ℕ} (h : a.Strays s t) : s ≠ t := by
  rintro rfl
  obtain ⟨word, u, hsome, -, hnone⟩ := h
  rw [hsome] at hnone
  cases hnone

/-- In a trim automaton the rows occur. -/
theorem Trim.occurs_iff (ha : a.Trim) (s : ℕ) : a.Occurs s ↔ s ∈ a.rows.keys := by
  constructor
  · rintro (rfl | ⟨t, ht, rfl | rfl⟩)
    · exact ha.start_row
    · exact a.mem_keys_of_next? ((a.mem_transitions t).mp ht)
    · exact ha.target_row ((a.mem_transitions t).mp ht)
  · intro hs
    rcases ha.start_or_target hs with rfl | ⟨q, c, hq⟩
    · exact .inl rfl
    · exact .inr ⟨⟨q, c, s⟩, (a.mem_transitions _).mpr hq, .inr rfl⟩

end States

variable {a m : Automaton α} {r : Refinement} {number : ℕ → ℕ}

namespace MergedInto

/-- The states of the merged automaton are the numbers of representatives. -/
theorem exists_of_occurs (h : a.MergedInto r number m) (hcoarse : a.Coarse r) (ha : a.Trim) {n : ℕ}
    (hn : m.Occurs n) : ∃ s, a.Represented r s ∧ number s = n := by
  rcases hn with rfl | ⟨t, ht, rfl | rfl⟩
  · exact ⟨_, hcoarse.represented_rep ha ha.start_row, h.start.symm⟩
  · exact h.source ((m.mem_transitions t).mp ht)
  · have hnext := (m.mem_transitions t).mp ht
    obtain ⟨s, hs, hsource⟩ := h.source hnext
    rw [← hsource, h.next hs, Option.map_eq_some_iff] at hnext
    obtain ⟨u, hu, htarget⟩ := hnext
    exact ⟨_, hcoarse.represented_rep ha (ha.target_row hu), htarget⟩

/-- Whether a set of states does not part representatives with the same outcomes. -/
def Gathers (a : Automaton α) (r : Refinement) (number : ℕ → ℕ) (m : Automaton α) (B : NatSet) : Prop :=
  ∀ u v, a.Represented r u → a.Represented r v →
    (∀ word, m.outcome (number u) word = m.outcome (number v) word) → u ∈ B → v ∈ B

/-- The sources of a group that gathers representatives with the same outcomes do so as well, if the group
is made up of blocks. -/
theorem gathers_sources (h : a.MergedInto r number m) (hcoarse : a.Coarse r) (ha : a.Trim)
    {G X : NatSet} (hG : Gathers a r number m G) (hrespects : Respects G r)
    (hX : X ∈ a.sourceSets G) : Gathers a r number m X := by
  obtain ⟨-, c, hinto⟩ := (mem_sourceSets ha.readsSymbols G X).mp hX
  have hblock : ∀ {s}, s ∈ a.rows.keys → (r.rep s ∈ G ↔ s ∈ G) := by
    intro s hs
    obtain ⟨B, hB, -, hsB⟩ := hcoarse.exists_block ha hs
    have hrepB := rep_mem hcoarse.partition hB hsB
    have hcross := hrespects B hB
    constructor
    · intro hin
      by_contra hout
      exact hcross ⟨⟨_, hrepB, hin⟩, s, hsB, hout⟩
    · intro hin
      by_contra hout
      exact hcross ⟨⟨s, hsB, hin⟩, _, hrepB, hout⟩
  intro u v hu hv hsame huX
  obtain ⟨-, hstep⟩ := (hinto.mem_iff u).mp huX
  refine (hinto.mem_iff v).mpr ⟨hv.1, ?_⟩
  have hnextu := h.next hu c
  have hnextv := h.next hv c
  cases hu' : a.next? u c with
  | none =>
    rw [hu', Option.map_none] at hnextu
    have hnone := next?_eq_none_of_outcome hsame hnextu
    rw [hnextv, Option.map_eq_none_iff] at hnone
    rw [ha.step_eq_dead.mpr hu'] at hstep
    rwa [ha.step_eq_dead.mpr hnone]
  | some u' =>
    cases hv' : a.next? v c with
    | none =>
      rw [hv', Option.map_none] at hnextv
      have hnone := next?_eq_none_of_outcome (fun word => (hsame word).symm) hnextv
      rw [hnextu, hu'] at hnone
      cases hnone
    | some v' =>
      rw [hu', Option.map_some] at hnextu
      rw [hv', Option.map_some] at hnextv
      rw [step, hu', Option.getD_some] at hstep
      rw [step, hv', Option.getD_some]
      have hrest : ∀ word, m.outcome (number (r.rep u')) word = m.outcome (number (r.rep v')) word := by
        intro word
        rw [← outcome_cons_some hnextu, ← outcome_cons_some hnextv, hsame]
      have hrep := hG _ _ (hcoarse.represented_rep ha (ha.target_row hu'))
        (hcoarse.represented_rep ha (ha.target_row hv')) hrest
        ((hblock (ha.target_row hu')).mpr hstep)
      exact (hblock (ha.target_row hv')).mp hrep

/-- Representatives with the same outcomes are the same. -/
theorem eq_of_outcome (h : a.MergedInto r number m) (hcoarse : a.Coarse r) (ha : a.Trim)
    (hothers : a.others.isEmpty = false) (hrounds : a.Rounds splitBySources a.initial r) {u v : ℕ}
    (hu : a.Represented r u) (hv : a.Represented r v)
    (hsame : ∀ word, m.outcome (number u) word = m.outcome (number v) word) : u = v := by
  have hend : ∀ B ∈ r.blocks.toList, Respects B r := by
    rintro B hB C hC ⟨⟨n, hnC, hnB⟩, k, hkC, hkB⟩
    exact hkB (hcoarse.partition.disjoint B hB C hC n hnB hnC ▸ hkC)
  have hinitial : ∀ B ∈ a.initial.blocks.toList, Gathers a r number m B := by
    intro B hB u v hu hv hsame huB
    have haccepting : u ∈ a.accepting ↔ v ∈ a.accepting := by
      have hnil := hsame []
      rw [outcome_nil, outcome_nil, Option.some.injEq, Bool.eq_iff_iff, NatSet.contains_iff,
        NatSet.contains_iff, h.accepting hu, h.accepting hv] at hnil
      exact hnil
    rcases mem_blocks_initial.mp hB with rfl | rfl | rfl
    · rw [NatSet.mem_singleton] at huB
      exact (ha.dead_row (huB ▸ hu.1)).elim
    · exact haccepting.mp huB
    · rw [mem_others] at huB ⊢
      refine ⟨(ha.mem_states v).mpr (.inr hv.1), mt haccepting.mpr huB.2.1, ?_⟩
      rintro rfl
      exact ha.dead_row hv.1
  have hway : ∀ group r X, Cuts (· = X) r (splitBySources group r X) :=
    fun group r X => cuts_splitBySources group r X
  have hblocks := hrounds.forall_blocks hway (coarse_initial ha hothers).partition.toPopulated hinitial
    (fun s hs G hG hgathers X hX B hB _ => by
      have hXgathers := h.gathers_sources hcoarse ha hgathers (hs.respects hway hend G hG) hX
      constructor
      · intro u v hu hv hsame huB
        rw [NatSet.mem_inter] at huB ⊢
        exact ⟨hB u v hu hv hsame huB.1, hXgathers u v hu hv hsame huB.2⟩
      · intro u v hu hv hsame huB
        rw [mem_outside] at huB ⊢
        exact ⟨hB u v hu hv hsame huB.1, fun hvX =>
          huB.2 (hXgathers v u hv hu (fun word => (hsame word).symm) hvX)⟩)
  obtain ⟨B, hB, -, huB⟩ := hcoarse.exists_block ha hu.1
  rw [← hu.2, ← hv.2]
  exact rep_eq_rep hcoarse.partition hB huB (hblocks B hB u v hu hv hsame huB)

/-- The merged automaton tells its states apart exactly if no state that strays from another is like it. -/
theorem tellsApart_iff (h : a.MergedInto r number m) (hcoarse : a.Coarse r) (ha : a.Trim)
    (hothers : a.others.isEmpty = false) (hrounds : a.Rounds splitBySources a.initial r) :
    m.TellsApart ↔ ∀ s t, m.Occurs s → m.Occurs t → m.Strays s t → ¬ m.Alike s t := by
  constructor
  · intro htells s t hs ht hstrays halike
    obtain ⟨word, hword⟩ := htells s t hs ht hstrays.ne
    exact hword (halike word)
  · intro hstrays s t hs ht hne
    by_contra hnone
    have halike : m.Alike s t := fun word => by_contra fun hword => hnone ⟨word, hword⟩
    obtain ⟨u, hu, rfl⟩ := h.exists_of_occurs hcoarse ha hs
    obtain ⟨v, hv, rfl⟩ := h.exists_of_occurs hcoarse ha ht
    by_cases hsame : ∀ word, m.outcome (number u) word = m.outcome (number v) word
    · exact hne (congrArg number (h.eq_of_outcome hcoarse ha hothers hrounds hu hv hsame))
    · obtain ⟨word, hword⟩ := not_forall.mp hsame
      rcases halike.strays_of_outcome_ne hword with hstray | hstray
      · exact hstrays _ _ hs ht hstray halike
      · exact hstrays _ _ ht hs hstray halike.symm

/-- If the states of each block are alike, no state of the merged automaton is lost. -/
theorem not_lost (h : a.MergedInto r number m) (hcoarse : a.Coarse r) (ha : a.Trim)
    (halike : ∀ B ∈ r.blocks.toList, ∀ s t, s ∈ B → t ∈ B → a.Alike s t) {s : ℕ}
    (hs : a.Represented r s) : ¬ m.Lost (number s) := by
  intro hlost
  obtain ⟨word, hword⟩ := ha.useful s hs.1
  have hsame := h.acceptsFrom_eq hcoarse ha halike hs.1 word
  rw [hs.2, hword, hlost word] at hsame
  cases hsame

end MergedInto

/-- A trim automaton in which some state neither accepts nor is dead is minimized to one that tells its
states apart exactly if none that strays from another is like it, and certainly if refinement leaves the
blocks that whole rounds leave. -/
theorem Trim.minimize_tellsApart (ha : a.Trim) (hothers : a.others.isEmpty = false)
    (hm : a.minimize = .ok m) :
    (m.TellsApart ↔ ∀ s t, m.Occurs s → m.Occurs t → m.Strays s t → ¬ m.Alike s t) ∧
      (a.RefinedWholly → m.TellsApart) := by
  obtain ⟨r, m', number, hr, hcoarse, hm', hmerged⟩ := Automaton.exists_minimize ha hothers
  rw [hm] at hm'
  cases hm'
  obtain ⟨r', hr', hrounds⟩ :=
    exists_refinement_rounds (coarse_initial ha hothers).partition.toPopulated
  rw [hr] at hr'
  cases hr'
  have hiff := hmerged.tellsApart_iff hcoarse ha hothers hrounds
  refine ⟨hiff, fun hwhole => hiff.mpr fun s t hs _ hstrays _ => ?_⟩
  have halike := (hcoarse.refinedWholly_iff ha hothers hr).mp hwhole
  obtain ⟨word, u, hrun, hlost, -⟩ := hstrays
  obtain ⟨v, hv, rfl⟩ := hmerged.exists_of_occurs hcoarse ha hs
  obtain ⟨w, hw, rfl⟩ := hmerged.exists_represented hcoarse ha hv hrun
  exact hmerged.not_lost hcoarse ha halike hw hlost

end ShellCompletion.Automaton

namespace ShellCompletion.Positions.Represents

variable {α : Type} [DecidableEq α] {p : Positions α} {number : NatSet → ℕ} {d : Automaton α}

/-- Every state but the dead one accepts exactly if every discovered set holds the end position. -/
theorem isEmpty_others_iff (h : p.Represents number d) (hd : d.Trim) :
    d.others.isEmpty = true ↔ ∀ S, p.Discovered S → p.stop ∈ S := by
  rw [NatSet.isEmpty_iff_forall]
  constructor
  · intro hnone S hS
    have hrow : number S ∈ d.rows.keys := (h.row_iff _).mpr ⟨S, hS, rfl⟩
    have haccepting : number S ∈ d.accepting := by
      by_contra hrejects
      exact hnone _ ((Automaton.mem_others _).mpr
        ⟨(hd.mem_states _).mpr (.inr hrow), hrejects, h.number_pos S⟩)
    obtain ⟨T, hT, heq, hstop⟩ := (h.accepting _).mp haccepting
    exact h.number_inj hT hS heq ▸ hstop
  · intro hstop s hs
    obtain ⟨hstate, hrejects, hdead⟩ := (Automaton.mem_others s).mp hs
    obtain ⟨S, hS, rfl⟩ := (h.row_iff s).mp (((hd.mem_states s).mp hstate).resolve_left hdead)
    exact hrejects ((h.accepting _).mpr ⟨S, hS, rfl, hstop S hS⟩)

/-- The states of an automaton are told apart exactly if for any two discovered sets some word leads
exactly one of them to the end position. -/
theorem tellsApart_iff (h : p.Represents number d) (hd : d.Trim) :
    d.TellsApart ↔ ∀ S T, p.Discovered S → p.Discovered T → S ≠ T →
      ∃ word, ¬ (p.stop ∈ p.afterWord S word ↔ p.stop ∈ p.afterWord T word) := by
  have hwords : ∀ {S T}, p.Discovered S → p.Discovered T → ∀ word,
      (d.acceptsFrom (number S) word ≠ d.acceptsFrom (number T) word ↔
        ¬ (p.stop ∈ p.afterWord S word ↔ p.stop ∈ p.afterWord T word)) := by
    intro S T hS hT word
    rw [ne_eq, Bool.eq_iff_iff, h.acceptsFrom_iff hS, h.acceptsFrom_iff hT]
  constructor
  · intro htells S T hS hT hne
    have hS' := (hd.occurs_iff _).mpr ((h.row_iff _).mpr ⟨S, hS, rfl⟩)
    have hT' := (hd.occurs_iff _).mpr ((h.row_iff _).mpr ⟨T, hT, rfl⟩)
    obtain ⟨word, hword⟩ := htells _ _ hS' hT' fun heq => hne (h.number_inj hS hT heq)
    exact ⟨word, (hwords hS hT word).mp hword⟩
  · intro htells s t hs ht hne
    obtain ⟨S, hS, rfl⟩ := (h.row_iff s).mp ((hd.occurs_iff s).mp hs)
    obtain ⟨T, hT, rfl⟩ := (h.row_iff t).mp ((hd.occurs_iff t).mp ht)
    obtain ⟨word, hword⟩ := htells S T hS hT fun heq => hne (congrArg number heq)
    exact ⟨word, (hwords hS hT word).mpr hword⟩

end ShellCompletion.Positions.Represents

namespace ShellCompletion.Expr

/-- The automaton of an expression without empty sequences and choices can always be minimized. If every
discovered set of positions holds the end position, any two states of the result are told apart by a word
exactly if any two of those sets are. Otherwise they are exactly if no state is like another from which it
strays, and in particular if refinement leaves the blocks that it would leave if no round ended early. -/
theorem minimize_tellsApart_iff {check : Positions Input → Result Unit}
    {specializations : Specializations} {s t : Interner Input} {e : Expr} {p : Pattern Input}
    (h : e.toPattern check specializations s = .ok (t, p)) (hfull : e.Full)
    (hlimit : {S | p.positions.Discovered S}.encard ≤ Positions.stateLimit) :
    ∃ d m, p.positions.automaton = .ok d ∧ d.minimize = .ok m ∧
      ((∀ S, p.positions.Discovered S → p.positions.stop ∈ S) →
        (m.TellsApart ↔ ∀ S T, p.positions.Discovered S → p.positions.Discovered T → S ≠ T →
          ∃ word, ¬ (p.positions.stop ∈ p.positions.afterWord S word ↔
            p.positions.stop ∈ p.positions.afterWord T word))) ∧
      ((∃ S, p.positions.Discovered S ∧ ¬ p.positions.stop ∈ S) →
        (m.TellsApart ↔ ∀ s t, m.Occurs s → m.Occurs t → m.Strays s t → ¬ m.Alike s t) ∧
        (d.RefinedWholly → m.TellsApart)) := by
  obtain ⟨-, d, number, hd, hrep⟩ | ⟨hlt, -⟩ := p.positions.automaton_cases
  · have htrim := hrep.trim (full_toPattern h hfull)
    obtain ⟨m, hm, -⟩ := htrim.exists_minimize
    refine ⟨d, m, hd, hm, ?_, ?_⟩
    · intro hall
      rw [Automaton.minimize_of_isEmpty ((hrep.isEmpty_others_iff htrim).mpr hall)] at hm
      cases hm
      exact hrep.tellsApart_iff htrim
    · rintro ⟨S, hS, hstop⟩
      refine htrim.minimize_tellsApart ?_ hm
      rw [← Bool.not_eq_true, hrep.isEmpty_others_iff htrim]
      exact fun hall => hstop (hall S hS)
  · exact absurd hlimit (not_le_of_gt hlt)

/-- The automaton of `(a | b [a])... a`. -/
def repeatedChoiceAutomaton : Automaton Input :=
  let a : Input := .literal "a" none 0 none
  let b : Input := .literal "b" none 0 none
  .ofTransitions 1 [⟨1, a, 2⟩, ⟨1, b, 3⟩, ⟨2, a, 4⟩, ⟨2, b, 3⟩, ⟨3, a, 4⟩, ⟨3, b, 3⟩, ⟨4, a, 4⟩,
    ⟨4, b, 3⟩] [4] [a, b]

theorem automaton_repeatedChoice :
    repeatedChoicePattern.positions.automaton = .ok repeatedChoiceAutomaton := by
  decide +kernel

/-- Refinement of that automaton leaves the blocks that whole rounds leave. -/
theorem refinedWholly_repeatedChoice : repeatedChoiceAutomaton.RefinedWholly :=
  .of_blocks [.ofList [0], .ofList [4], .ofList [2, 3], .ofList [1]] (by cbv) (by cbv)

/-- Its minimized automaton tells all states apart. -/
theorem tellsApart_repeatedChoice : ∃ m, repeatedChoiceAutomaton.minimize = .ok m ∧ m.TellsApart := by
  obtain ⟨d, m, hd, hm, -, hother⟩ := minimize_tellsApart_iff toPattern_repeatedChoice
    (by simp [repeatedChoice, Full, FullAll]) discovered_repeatedChoice
  rw [automaton_repeatedChoice] at hd
  cases hd
  have hfirst : ¬ repeatedChoicePattern.positions.stop ∈ repeatedChoicePattern.positions.first := by
    decide +kernel
  exact ⟨m, hm, (hother ⟨_, .first, hfirst⟩).2 refinedWholly_repeatedChoice⟩

/-- An optional input before any number of repetitions of it: `[b] [b...]`. -/
def optionalRepeat : Expr :=
  let b : Expr := .literal "b" none 0 none
  .sequence [.optional b, .optional (.repeated b)]

/-- The pattern of that expression. -/
def optionalRepeatPattern : Pattern Input :=
  let b : Pattern Input := .symbol (.literal "b" none 0 none)
  .sequence [.optional b, .optional (.repeated b)]

/-- The automaton of that pattern. -/
def optionalRepeatAutomaton : Automaton Input :=
  .ofTransitions 1 [⟨1, .literal "b" none 0 none, 2⟩, ⟨2, .literal "b" none 0 none, 2⟩] [1, 2] []

/-- The two states of that automaton are left as they are, and no word tells them apart. -/
theorem not_tellsApart_optionalRepeat :
    optionalRepeat.toPattern (fun _ => .ok ()) .empty {} = .ok ({}, optionalRepeatPattern) ∧
      optionalRepeatPattern.positions.automaton = .ok optionalRepeatAutomaton ∧
      optionalRepeatAutomaton.minimize = .ok optionalRepeatAutomaton ∧
      ¬ optionalRepeatAutomaton.TellsApart := by
  refine ⟨rfl, by decide +kernel, Automaton.minimize_of_isEmpty (by decide +kernel), fun htells => ?_⟩
  have hnext : ∀ c, optionalRepeatAutomaton.next? 1 c = optionalRepeatAutomaton.next? 2 c :=
    fun _ => rfl
  have hsecond : optionalRepeatAutomaton.Occurs 2 :=
    .inr ⟨⟨1, .literal "b" none 0 none, 2⟩, by decide +kernel, .inr rfl⟩
  obtain ⟨word, hword⟩ := htells 1 2 (.inl rfl) hsecond (by decide)
  cases word with
  | nil => exact hword rfl
  | cons c word =>
    cases hc : optionalRepeatAutomaton.next? 2 c with
    | none =>
      rw [Automaton.acceptsFrom_cons_none _ ((hnext c).trans hc),
        Automaton.acceptsFrom_cons_none _ hc] at hword
      exact hword rfl
    | some n =>
      rw [Automaton.acceptsFrom_cons_some _ ((hnext c).trans hc),
        Automaton.acceptsFrom_cons_some _ hc] at hword
      exact hword rfl

end ShellCompletion.Expr
