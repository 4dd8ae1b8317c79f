import ShellCompletion.Proofs.Minimality

/-!
# The states of an automaton before minimization

The automaton of an expression has one row for each set of positions that is discovered, and its states
are the numbers from one on. None of them is useless: each can be reached from the start, and from each
an accepting state can be reached. Minimization relies on this, as it takes every missing transition for
one to the dead state.
-/

namespace ShellCompletion

namespace Automaton

variable {α : Type} [DecidableEq α] {a : Automaton α}

/-- A word is accepted from a state exactly if it leads to an accepting one. -/
theorem acceptsFrom_iff_exists {s : ℕ} {word : List α} :
    a.acceptsFrom s word = true ↔ ∃ t, a.run? s word = some t ∧ t ∈ a.accepting := by
  unfold acceptsFrom
  cases h : a.run? s word with
  | none => simp
  | some t => simp [NatSet.contains_iff]

end Automaton

namespace Positions

variable {α : Type} [DecidableEq α] {p : Positions α}

/-- Sets are numbered from one on, in the order in which they are found. -/
theorem keys_ofSets_eq_range {sets : List NatSet} (hnodup : sets.Nodup) :
    (p.ofSets sets).rows.keys = List.range' 1 sets.length := by
  rw [keys_ofSets hnodup]
  refine List.ext_getElem (by simp) fun i hi _ => ?_
  have hlt : i < sets.length := by simpa using hi
  rw [List.getElem_map, stateOf, hnodup.idxOf_getElem i hlt, List.getElem_range']
  omega

end Positions

namespace Expr

/-- The automaton of an expression without empty sequences and choices exists as long as there are numbers
for the sets of positions that are discovered. These numbers are its rows and the states that occur in it;
each is reached from the start by some word, and some word leads from it to an accepting state. -/
theorem exists_trim_automaton {check : Positions Input → Result Unit}
    {specializations : Specializations} {s t : Interner Input} {e : Expr} {p : Pattern Input}
    (h : e.toPattern check specializations s = .ok (t, p)) (hfull : e.Full) {n : ℕ}
    (hn : {S | p.positions.Discovered S}.encard = n) (hlimit : n ≤ Positions.stateLimit) :
    ∃ d, p.positions.automaton = .ok d ∧ d.rows.keys = List.range' 1 n ∧
      (∀ state, d.Occurs state ↔ state ∈ d.rows.keys) ∧
      (∀ state ∈ d.accepting, state ∈ d.rows.keys) ∧
      (∀ state ∈ d.rows.keys, (∃ word, d.run? d.start word = some state) ∧
        ∃ word last, d.run? state word = some last ∧ last ∈ d.accepting) ∧
      ∀ move ∈ d.transitions, move.symbol ∈ d.symbols.toList := by
  have hle : {S | p.positions.Discovered S}.encard ≤ Positions.stateLimit := by
    rw [hn]
    exact_mod_cast hlimit
  obtain ⟨-, d, number, hd, hrep⟩ | ⟨hlt, -⟩ := p.positions.automaton_cases
  · have htrim := hrep.trim (full_toPattern h hfull)
    have hkeys : d.rows.keys = List.range' 1 n := by
      obtain ⟨sets, hfound, rfl⟩ := Positions.exists_sets hd
      obtain ⟨-, hnodup, -⟩ := Positions.mem_found_iff (fun a => OrderedSet.mem_ofList _ a) hfound
      have hlength : sets.length = n := by
        rw [Positions.encard_discovered hfound] at hn
        exact_mod_cast hn
      rw [Positions.keys_ofSets_eq_range hnodup, hlength]
    refine ⟨d, hd, hkeys, htrim.occurs_iff, htrim.accepting_row, fun state hstate => ?_, fun move hmove => ?_⟩
    · obtain ⟨word, hword⟩ := htrim.useful state hstate
      exact ⟨htrim.reached state hstate, word, Automaton.acceptsFrom_iff_exists.mp hword⟩
    · exact htrim.symbol_mem ((d.mem_transitions move).mp hmove)
  · exact absurd hle (not_le_of_gt hlt)

/-- It has four sets of positions. -/
theorem encard_discovered_repeatedChoice :
    {S | repeatedChoicePattern.positions.Discovered S}.encard = (4 : ℕ) := by
  have hfound : repeatedChoicePattern.positions.found?.map List.length = some 4 := by decide +kernel
  obtain ⟨sets, hsets, hlength⟩ := Option.map_eq_some_iff.mp hfound
  rw [Positions.encard_discovered hsets, hlength]

/-- Its automaton has four states, each of which can be reached and left. -/
theorem exists_trim_repeatedChoice :
    ∃ d, repeatedChoicePattern.positions.automaton = .ok d ∧ d.rows.keys = [1, 2, 3, 4] ∧
      (∀ state, d.Occurs state ↔ state ∈ d.rows.keys) ∧ ∀ state ∈ d.rows.keys,
        (∃ word, d.run? d.start word = some state) ∧
          ∃ word last, d.run? state word = some last ∧ last ∈ d.accepting := by
  obtain ⟨d, hd, hkeys, hoccurs, -, huseful, -⟩ :=
    exists_trim_automaton toPattern_repeatedChoice (by simp [repeatedChoice, Full, FullAll])
      encard_discovered_repeatedChoice (by decide)
  exact ⟨d, hd, hkeys, hoccurs, huseful⟩

end Expr

end ShellCompletion
