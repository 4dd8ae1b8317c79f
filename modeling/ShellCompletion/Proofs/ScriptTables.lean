import ShellCompletion.Proofs.LiteralTables
import ShellCompletion.Script

/-!
# Scripts that can be written

A script looks up the literals, commands, patterns and subwords of all transitions in tables, and
writes one table for each fallback level. If everything that is looked up is there and there is a
greatest level, the tables of an automaton can be written, and from them the script.
-/

namespace ShellCompletion

open Result (Succeeds succeeds_ok succeeds_require)

namespace Script

/-- Whether all that is looked up for an input of an automaton is there: a literal among the numbers of
the literals, commands and patterns among the routines of the script, and a subword among the given
numbers. -/
def Finds (a : Automaton Input) (shell : Shell) (routines : Matcher.Routines)
    (numbers : List (ℕ × ℕ)) : Input → Prop
  | .literal text description _ _ =>
    ((literalNumbers a).lookup (text, description.getD "")).isSome = true
  | .subword id _ _ => (numbers.lookup id).isSome = true
  | .reference _ specialization _ _ =>
    ∀ command ∈ specialization.bind (·.shells.get? shell),
      (routines.commands.indexOf? command).isSome = true
  | .command text patterns _ _ => (routines.commands.indexOf? text).isSome = true ∧
    ∀ pattern ∈ patterns.bind (·.get? shell), (routines.patterns.indexOf? pattern).isSome = true

/-- Whether the tables of an automaton can be written: all that is looked up is there, and the levels go
up to a greatest one. -/
structure Writable (a : Automaton Input) (shell : Shell) (routines : Matcher.Routines)
    (numbers : List (ℕ × ℕ)) : Prop where
  finds : ∀ t ∈ a.transitions, Finds a shell routines numbers t.symbol
  level : ∃ greatest, a.maxLevel? = some greatest ∧ ∀ t ∈ a.transitions, t.symbol.level ≤ greatest

section

variable {a : Automaton Input} {shell : Shell} {routines : Matcher.Routines} {numbers : List (ℕ × ℕ)}

/-- The transitions from a state are transitions of the automaton. -/
theorem mem_transitions_of_mem_transitionsFrom {s : ℕ} {t : Transition Input}
    (h : t ∈ a.transitionsFrom s) : t ∈ a.transitions := by
  unfold Automaton.transitionsFrom at h
  split at h
  · next row hrow =>
    exact List.mem_flatMap.mpr ⟨(s, row), (OrderedMap.mem_entries_iff _ _ _).mpr hrow, h⟩
  · simp at h

/-- A table of what is made of the transitions from each state can be written if each entry can. -/
theorem succeeds_moves {β γ : Type} {move? : Transition Input → Option β} {entry : β → Result γ}
    (h : ∀ t ∈ a.transitions, ∀ move, move? t = some move → Succeeds (entry move)) :
    Succeeds ((a.answersByState fun state => (a.transitionsFrom state).filterMap move?).mapM
      fun row => do return (row.1, ← row.2.mapM entry)) := by
  refine Succeeds.mapM fun row hrow => ?_
  obtain ⟨state, -, rfl⟩ := List.mem_map.mp (List.mem_filter.mp hrow).1
  refine (Succeeds.mapM fun move hmove => ?_).bind fun _ _ => succeeds_ok _
  obtain ⟨t, ht, hmove⟩ := List.mem_filterMap.mp hmove
  exact h t (mem_transitions_of_mem_transitionsFrom ht) move hmove

namespace Writable

variable (h : Writable a shell routines numbers)

include h

theorem succeeds_literalMoves : Succeeds (literalMoves a) := by
  refine succeeds_moves fun t ht move hmove => ?_
  have hfinds := h.finds t ht
  split at hmove
  · next hliteral =>
    cases hmove
    rw [hliteral] at hfinds
    exact (succeeds_require hfinds).bind fun _ _ => succeeds_ok _
  · cases hmove

theorem succeeds_patternMoves : Succeeds (patternMoves a shell routines) := by
  refine succeeds_moves fun t ht move hmove => ?_
  have hfinds := h.finds t ht
  split at hmove
  · next hcommand =>
    obtain ⟨pattern, hpattern, rfl⟩ := Option.map_eq_some_iff.mp hmove
    rw [hcommand] at hfinds
    exact (succeeds_require (hfinds.2 pattern hpattern)).bind fun _ _ => succeeds_ok _
  · cases hmove

theorem succeeds_subwordMoves : Succeeds (subwordMoves a numbers) := by
  refine succeeds_moves fun t ht move hmove => ?_
  have hfinds := h.finds t ht
  split at hmove
  · next hsubword =>
    cases hmove
    rw [hsubword] at hfinds
    exact (succeeds_require hfinds).bind fun _ _ => succeeds_ok _
  · cases hmove

theorem succeeds_maxLevel : Succeeds (maxLevel a) := by
  obtain ⟨greatest, hgreatest, -⟩ := h.level
  exact succeeds_require (by rw [hgreatest]; rfl)

/-- Tables of levels can be written if the entries of all inputs can that are found. -/
theorem succeeds_levels {β : Type} {entry : Input → Result (Option β)}
    (hentry : ∀ input, Finds a shell routines numbers input → Succeeds (entry input)) :
    Succeeds (levels a entry) := by
  refine (Succeeds.mapM fun t ht => ?_).bind fun _ _ => h.succeeds_maxLevel.bind fun _ _ =>
    succeeds_ok _
  exact (hentry _ (h.finds t ht)).bind fun _ _ => succeeds_ok _

theorem succeeds_literalLevels : Succeeds (literalLevels a) := by
  unfold literalLevels
  refine h.succeeds_levels fun input hfinds => ?_
  split
  · exact (succeeds_require hfinds).bind fun _ _ => succeeds_ok _
  · exact succeeds_ok none

end Writable

/-! ### The entries of inputs -/

/-- The routine of a plain command is found. -/
theorem succeeds_plainCommand {input : Input} (h : Finds a shell routines numbers input) :
    Succeeds (plainCommand routines input) := by
  unfold plainCommand
  split
  · exact (succeeds_require h.1).bind fun _ _ => succeeds_ok _
  · exact succeeds_ok none

theorem succeeds_specializedCommand {input : Input} (h : Finds a shell routines numbers input) :
    Succeeds (specializedCommand shell routines input) := by
  unfold specializedCommand
  split
  · split
    · next command hcommand =>
      exact (succeeds_require (h command hcommand)).bind fun _ _ => succeeds_ok _
    · exact succeeds_ok none
  · exact succeeds_ok none

theorem succeeds_anyCommand {input : Input} (h : Finds a shell routines numbers input) :
    Succeeds (anyCommand shell routines input) := by
  refine (succeeds_plainCommand h).bind fun number _ => ?_
  cases number with
  | some number => exact succeeds_ok _
  | none => exact succeeds_specializedCommand h

theorem succeeds_filteredCommand {input : Input} (h : Finds a shell routines numbers input) :
    Succeeds (filteredCommand shell routines input) := by
  unfold filteredCommand
  split
  · split
    · next pattern hpattern =>
      exact (succeeds_require h.1).bind fun _ _ =>
        (succeeds_require (h.2 pattern hpattern)).bind fun _ _ => succeeds_ok _
    · exact succeeds_ok none
  · exact succeeds_ok none

/-- The number of a subword is found. -/
theorem succeeds_offeredSubword {input : Input} (h : Finds a shell routines numbers input) :
    Succeeds (offeredSubword numbers input) := by
  unfold offeredSubword
  split
  · exact (succeeds_require h).bind fun _ _ => succeeds_ok _
  · exact succeeds_ok none

end

end Script

/-- Whether the script of a matcher can be written: the tables of its automaton, in which the subwords
are numbered, and those of its subwords, in which there are no others. -/
structure Matcher.Writable (m : Matcher) (shell : Shell) (routines : Matcher.Routines) : Prop where
  collected : m.routines shell = .ok routines
  main : ∀ first, Script.Writable m.main shell routines (m.main.numberedSubwords first)
  subwords : ∀ id ∈ m.main.subwordIds.toList, ∃ a, m.subwords.get? id = some a ∧
    Script.Writable a shell routines []

/-- The functions of the subwords can be written if that of each one can. -/
theorem Matcher.Writable.succeeds_subwords {m : Matcher} {shell : Shell} {routines : Matcher.Routines}
    (h : m.Writable shell routines) {tables : ℕ → Automaton Input → Result (List String)}
    (htables : ∀ number a, Script.Writable a shell routines [] → Succeeds (tables number a))
    (first : ℕ) :
    Succeeds ((m.main.numberedSubwords first).mapM fun entry => do
      tables entry.2 (← m.subword entry.1)) := by
  refine Succeeds.mapM fun entry hentry => ?_
  obtain ⟨a, ha, hwritable⟩ := h.subwords entry.1 (List.fst_mem_of_mem_zipIdx hentry)
  rw [Matcher.subword, ha]
  exact htables entry.2 a hwritable

namespace Script

variable {a : Automaton Input} {routines : Matcher.Routines} {numbers : List (ℕ × ℕ)} {m : Matcher}

/-! ### The scripts of the shells -/

namespace Bash

/-- The tables for matching can be written for bash. -/
theorem succeeds_matchingTables (h : Writable a .bash routines numbers) :
    Succeeds (matchingTables a routines) :=
  h.succeeds_literalMoves.bind fun _ _ => h.succeeds_patternMoves.bind fun _ _ => succeeds_ok _

/-- The tables of a subword can be written for bash. -/
theorem succeeds_subwordTables (command : String) (number : ℕ) (h : Writable a .bash routines []) :
    Succeeds (subwordTables command routines number a) :=
  (succeeds_matchingTables h).bind fun _ _ => h.succeeds_maxLevel.bind fun _ _ =>
    h.succeeds_literalLevels.bind fun _ _ =>
    (h.succeeds_levels fun _ => succeeds_filteredCommand).bind fun _ _ =>
    (h.succeeds_levels fun _ => succeeds_anyCommand).bind fun _ _ => succeeds_ok _

/-- The script for bash can be written if all that it looks up is found. -/
theorem succeeds_script (command : String) (h : m.Writable .bash routines) :
    Succeeds (script command m) := by
  have hsubwords := h.succeeds_subwords (fun number _ => succeeds_subwordTables command number) 0
  have hmain := h.main 0
  rw [script, h.collected, Result.ok_bind]
  exact hsubwords.bind fun _ _ => (succeeds_matchingTables hmain).bind fun _ _ =>
    hmain.succeeds_subwordMoves.bind fun _ _ =>
    hmain.succeeds_maxLevel.bind fun _ _ => hmain.succeeds_literalLevels.bind fun _ _ =>
    (hmain.succeeds_levels fun _ => succeeds_offeredSubword).bind fun _ _ =>
    (hmain.succeeds_levels fun _ => succeeds_anyCommand).bind fun _ _ =>
    (hmain.succeeds_levels fun _ => succeeds_filteredCommand).bind fun _ _ => succeeds_ok _

end Bash

namespace Fish

/-- The tables of a subword can be written for fish. -/
theorem succeeds_subwordTables (command : String) (number : ℕ) (h : Writable a .fish routines []) :
    Succeeds (subwordTables command routines number a) := by
  have hmatching : Succeeds (subwordMatchingTables a routines) :=
    h.succeeds_literalMoves.bind fun _ _ => h.succeeds_patternMoves.bind fun _ _ => succeeds_ok _
  exact hmatching.bind fun _ _ => h.succeeds_maxLevel.bind fun _ _ =>
    h.succeeds_literalLevels.bind fun _ _ =>
    (h.succeeds_levels fun _ => succeeds_filteredCommand).bind fun _ _ =>
    (h.succeeds_levels fun _ => succeeds_anyCommand).bind fun _ _ => succeeds_ok _

/-- A command with a slash in its name is refused for fish. -/
theorem script_of_slash {command : String} (hslash : '/' ∈ command.toList) (m : Matcher) :
    script command m = reject (.invalidCommandName command) := by
  have hcheck : Quote.checkFishCommand command = reject (.invalidCommandName command) :=
    if_pos (by simpa using hslash)
  rw [script, hcheck]
  rfl

/-- The script for fish can be written for all other commands, if all that it looks up is found. -/
theorem succeeds_script {command : String} (hslash : ¬ '/' ∈ command.toList)
    (h : m.Writable .fish routines) : Succeeds (script command m) := by
  have hcheck : Quote.checkFishCommand command = .ok () := if_neg (by simpa using hslash)
  have hsubwords := h.succeeds_subwords (fun number _ => succeeds_subwordTables command number) 1
  have hmain := h.main 1
  have hmatching : Succeeds (matchingTables m.main routines) :=
    hmain.succeeds_literalMoves.bind fun _ _ => hmain.succeeds_patternMoves.bind fun _ _ =>
      succeeds_ok _
  rw [script, hcheck, Result.ok_bind, h.collected, Result.ok_bind]
  exact hsubwords.bind fun _ _ => hmatching.bind fun _ _ =>
    hmain.succeeds_subwordMoves.bind fun _ _ =>
    hmain.succeeds_maxLevel.bind fun _ _ => hmain.succeeds_literalLevels.bind fun _ _ =>
    (hmain.succeeds_levels fun _ => succeeds_offeredSubword).bind fun _ _ =>
    (hmain.succeeds_levels fun _ => succeeds_anyCommand).bind fun _ _ =>
    (hmain.succeeds_levels fun _ => succeeds_filteredCommand).bind fun _ _ => succeeds_ok _

end Fish

namespace Zsh

/-- The tables for matching can be written for zsh. -/
theorem succeeds_matchingTables (h : Writable a .zsh routines numbers) (tag : String) :
    Succeeds (matchingTables tag a routines) :=
  h.succeeds_literalMoves.bind fun _ _ => h.succeeds_patternMoves.bind fun _ _ => succeeds_ok _

/-- The tables of a subword can be written for zsh. -/
theorem succeeds_subwordTables (command : String) (number : ℕ) (h : Writable a .zsh routines []) :
    Succeeds (subwordTables command routines number a) :=
  (succeeds_matchingTables h _).bind fun _ _ => h.succeeds_maxLevel.bind fun _ _ =>
    h.succeeds_literalLevels.bind fun _ _ =>
    (h.succeeds_levels fun _ => succeeds_plainCommand).bind fun _ _ =>
    (h.succeeds_levels fun _ => succeeds_specializedCommand).bind fun _ _ =>
    (h.succeeds_levels fun _ => succeeds_filteredCommand).bind fun _ _ => succeeds_ok _

/-- The script for zsh can be written if all that it looks up is found. -/
theorem succeeds_script (command : String) (h : m.Writable .zsh routines) :
    Succeeds (script command m) := by
  have hsubwords := h.succeeds_subwords (fun number _ => succeeds_subwordTables command number) 1
  have hmain := h.main 1
  rw [script, h.collected, Result.ok_bind]
  exact hsubwords.bind fun _ _ => (succeeds_matchingTables hmain _).bind fun _ _ =>
    hmain.succeeds_subwordMoves.bind fun _ _ =>
    hmain.succeeds_maxLevel.bind fun _ _ => hmain.succeeds_literalLevels.bind fun _ _ =>
    (hmain.succeeds_levels fun _ => succeeds_offeredSubword).bind fun _ _ =>
    (hmain.succeeds_levels fun _ => succeeds_plainCommand).bind fun _ _ =>
    (hmain.succeeds_levels fun _ => succeeds_filteredCommand).bind fun _ _ =>
    (hmain.succeeds_levels fun _ => succeeds_specializedCommand).bind fun _ _ => succeeds_ok _

end Zsh

/-- The script for PowerShell can be written if all that it looks up is found. -/
theorem Pwsh.succeeds_script (command : String) (h : m.Writable .pwsh routines) :
    Succeeds (script command m) := by
  rw [script, h.collected, Result.ok_bind]
  exact succeeds_ok _

end Script

end ShellCompletion
