import ShellCompletion.Proofs.Minimization

/-!
# Symbols that look the same

An automaton has one transition for each symbol, but symbols may differ in ways that do not show, such
as the place where they were written. Whoever goes by what shows needs more: transitions from one state
on symbols that look the same must have the same target. For the automaton of positions this says which
positions may come next, and for a minimized automaton which states are merged.
-/

namespace ShellCompletion

variable {α : Type} [DecidableEq α] (same : α → α → Prop)

namespace Automaton

/-- Whether transitions from one state on symbols that look the same have the same target. -/
def DeterministicBy (a : Automaton α) : Prop :=
  ∀ s c c' t t', same c c' → a.next? s c = some t → a.next? s c' = some t' → t = t'

/-- Whether all symbols on transitions are among the symbols. -/
def KnowsSymbols (a : Automaton α) : Prop := ∀ s c t, a.next? s c = some t → c ∈ a.symbols.toList

/-- The state that stands for a state after minimization: the least one of its block, or the state
itself if there is nothing to refine. -/
def standIn (a : Automaton α) (s : ℕ) : ℕ :=
  if a.others.isEmpty then s
  else
    match a.refinement with
    | .ok r => r.rep s
    | .error _ => s

/-- Whether symbols that look the same lead from a state that stands for its block to states of one
block. -/
def MergesBy (a : Automaton α) : Prop :=
  ∀ s ∈ a.rows.keys, a.standIn s = s → ∀ c c' t t', same c c' → a.next? s c = some t →
    a.next? s c' = some t' → a.standIn t = a.standIn t'

end Automaton

/-- Whether symbols that look the same and can be read at a discovered set of positions have the same
positions after them. -/
def Positions.DeterministicBy (p : Positions α) : Prop :=
  ∀ S, p.Discovered S → ∀ c c', same c c' → (p.after S.toList c).isEmpty = false →
    (p.after S.toList c').isEmpty = false → p.after S.toList c = p.after S.toList c'

variable {same}

/-- The automaton of positions goes by what symbols look like exactly if the positions do. -/
theorem Positions.Represents.deterministicBy_iff {p : Positions α} {number : NatSet → ℕ}
    {d : Automaton α} (h : p.Represents number d) :
    d.DeterministicBy same ↔ p.DeterministicBy same := by
  constructor
  · intro hd S hS c c' hcc' hc hc'
    have ht := h.next hS c
    have ht' := h.next hS c'
    rw [hc, if_neg Bool.false_ne_true] at ht
    rw [hc', if_neg Bool.false_ne_true] at ht'
    have heq := hd (number S) c c' _ _ hcc' ht ht'
    exact h.number_inj (.after c hS hc) (.after c' hS hc') heq
  · intro hp s c c' t t' hcc' ht ht'
    obtain ⟨S, hS, hnumber, hc, htarget⟩ := h.next?_eq_some ht
    obtain ⟨S', hS', hnumber', hc', htarget'⟩ := h.next?_eq_some ht'
    have heq : S' = S := h.number_inj hS' hS (hnumber'.trans hnumber.symm)
    rw [heq] at hc' htarget'
    rw [← htarget, ← htarget', hp S hS c c' hcc' hc hc']

namespace Automaton

variable {a : Automaton α}

/-- Only pairs of transitions have to be looked at. -/
theorem deterministicBy_iff_transitions : a.DeterministicBy same ↔
    ∀ t ∈ a.transitions, ∀ u ∈ a.transitions, t.source = u.source → same t.symbol u.symbol →
      t.target = u.target := by
  constructor
  · intro h t ht u hu hsource hsymbol
    rw [a.mem_transitions] at ht hu
    rw [hsource] at ht
    exact h u.source t.symbol u.symbol t.target u.target hsymbol ht hu
  · intro h s c c' t t' hcc' ht ht'
    exact h ⟨s, c, t⟩ ((a.mem_transitions _).mpr ht) ⟨s, c', t'⟩ ((a.mem_transitions _).mpr ht') rfl
      hcc'

instance [DecidableRel same] : Decidable (a.DeterministicBy same) :=
  decidable_of_iff _ deterministicBy_iff_transitions.symm

/-- An automaton that is deterministic by a relation merges by it. -/
theorem DeterministicBy.mergesBy (h : a.DeterministicBy same) : a.MergesBy same := by
  intro s _ _ c c' t t' hcc' ht ht'
  rw [h s c c' t t' hcc' ht ht']

/-- A merged automaton goes by what symbols look like exactly if they lead from each representative to
states with one representative. -/
theorem MergedInto.deterministicBy_iff {r : Refinement} {number : ℕ → ℕ} {m : Automaton α}
    (h : a.MergedInto r number m) (hcoarse : a.Coarse r) (ha : a.Trim) :
    m.DeterministicBy same ↔ ∀ s, a.Represented r s → ∀ c c' t t', same c c' →
      a.next? s c = some t → a.next? s c' = some t' → r.rep t = r.rep t' := by
  constructor
  · intro hm s hs c c' t t' hcc' ht ht'
    have hnext := h.next hs c
    have hnext' := h.next hs c'
    rw [ht, Option.map_some] at hnext
    rw [ht', Option.map_some] at hnext'
    have heq := hm (number s) c c' _ _ hcc' hnext hnext'
    exact h.number_inj (hcoarse.represented_rep ha (ha.target_row ht))
      (hcoarse.represented_rep ha (ha.target_row ht')) heq
  · intro hrep n c c' k k' hcc' hk hk'
    obtain ⟨s, hs, rfl⟩ := h.source hk
    rw [h.next hs, Option.map_eq_some_iff] at hk hk'
    obtain ⟨t, ht, rfl⟩ := hk
    obtain ⟨t', ht', rfl⟩ := hk'
    rw [hrep s hs c c' t t' hcc' ht ht']

/-- A minimized automaton goes by what symbols look like exactly if the blocks do. -/
theorem Trim.minimize_deterministicBy_iff (ha : a.Trim) {m : Automaton α} (hm : a.minimize = .ok m) :
    m.DeterministicBy same ↔ a.MergesBy same := by
  cases hothers : a.others.isEmpty with
  | true =>
    rw [minimize_of_isEmpty hothers] at hm
    cases hm
    refine ⟨DeterministicBy.mergesBy, ?_⟩
    intro h s c c' t t' hcc' ht ht'
    have hself : ∀ s, a.standIn s = s := fun s => by rw [standIn, hothers, if_pos rfl]
    have heq := h s (a.mem_keys_of_next? ht) (hself s) c c' t t' hcc' ht ht'
    rw [hself, hself] at heq
    exact heq
  | false =>
    obtain ⟨r, m', number, hr, hcoarse, hm', hmerged⟩ := Automaton.exists_minimize ha hothers
    rw [hm] at hm'
    cases hm'
    have hrep : ∀ s, a.standIn s = r.rep s := fun s => by
      rw [standIn, hothers, if_neg Bool.false_ne_true, hr]
    rw [hmerged.deterministicBy_iff hcoarse ha]
    simp only [MergesBy, hrep, Represented, and_imp]

theorem Trim.knowsSymbols (ha : a.Trim) : a.KnowsSymbols := fun _ _ _ h => ha.symbol_mem h

/-- Minimizing leaves the symbols. -/
theorem Trim.symbols_minimize (ha : a.Trim) {m : Automaton α} (hm : a.minimize = .ok m) :
    m.symbols = a.symbols := by
  obtain rfl | ⟨r, number, -, -, hmerged⟩ := ha.minimize_cases hm
  · rfl
  · exact hmerged.symbols

/-- A minimized automaton has no symbols on its transitions that are not among its symbols. -/
theorem Trim.knowsSymbols_minimize (ha : a.Trim) {m : Automaton α} (hm : a.minimize = .ok m) :
    m.KnowsSymbols := by
  obtain rfl | ⟨r, number, -, -, hmerged⟩ := ha.minimize_cases hm
  · exact ha.knowsSymbols
  · intro n c k hk
    obtain ⟨s, hs, rfl⟩ := hmerged.source hk
    rw [hmerged.next hs, Option.map_eq_some_iff] at hk
    obtain ⟨t, ht, -⟩ := hk
    rw [hmerged.symbols]
    exact ha.symbol_mem ht

/-- A trim automaton has transitions. -/
theorem Trim.exists_transition (ha : a.Trim) : ∃ t, t ∈ a.transitions := by
  obtain ⟨c, t, ht⟩ := ha.start_moves
  exact ⟨⟨a.start, c, t⟩, (a.mem_transitions _).mpr ht⟩

/-- A minimized automaton has transitions: what represents a block of states that do not accept leads
on. -/
theorem Trim.exists_transition_minimize (ha : a.Trim) {m : Automaton α} (hm : a.minimize = .ok m) :
    ∃ t, t ∈ m.transitions := by
  obtain rfl | ⟨r, number, ⟨s, hs⟩, hcoarse, hmerged⟩ := ha.minimize_cases hm
  · exact ha.exists_transition
  · obtain ⟨hstate, hreject, hdead⟩ := (a.mem_others s).mp hs
    have hrow : s ∈ a.rows.keys := ((ha.mem_states s).mp hstate).resolve_left hdead
    obtain ⟨B, hB, -, hsB⟩ := hcoarse.exists_block ha hrow
    have hrep := hcoarse.represented_rep ha hrow
    have hreject' : ¬ r.rep s ∈ a.accepting := fun haccepting =>
      hreject (hcoarse.accepting B hB _ s (rep_mem hcoarse.partition hB hsB) hsB haccepting)
    obtain ⟨c, t, ht⟩ := (ha.accepting_or_next hrep.1).resolve_left hreject'
    refine ⟨⟨number (r.rep s), c, number (r.rep t)⟩, (m.mem_transitions _).mpr ?_⟩
    rw [hmerged.next hrep, ht]
    rfl

end Automaton

end ShellCompletion
