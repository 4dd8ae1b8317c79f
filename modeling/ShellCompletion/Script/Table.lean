import ShellCompletion.Matcher

/-!
# Tables of a script

A script holds the transitions of an automaton as tables of numbers: for matching, what leads from
each state to which state, and for completion, what each state offers at each fallback level. Literals
are numbered by their place among the symbols; commands and patterns by their place among the routines
of the script. How tables are written is left to the modules of the shells.
-/

namespace ShellCompletion.Script

/-- For some states, in order, what is kept for them. -/
abbrev Table (β : Type) := List (Nat × List β)

/-- Apply a function to the entries of a table. -/
def Table.mapEntries {β γ : Type} (f : β → γ) (table : Table β) : Table γ :=
  table.map fun row => (row.1, row.2.map f)

/-- The literals of an automaton with their descriptions, where none is the empty text. -/
def literals (a : Automaton Input) : List (String × String) :=
  a.literals.map fun l => (l.1, l.2.getD "")

/-- The literals with their descriptions and their numbers, the last one first. If a literal stands
at several places with one description, the last place counts. -/
def literalNumbers (a : Automaton Input) : List ((String × String) × Nat) :=
  (literals a).zipIdx.reverse

/-- The different descriptions of literals, without the empty one. -/
def descriptions (a : Automaton Input) : OrderedSet String :=
  .ofList (((literals a).map Prod.snd).filter (!·.isEmpty))

/-- The literals that have a description, each with the number of the description. Literals and
descriptions are numbered from zero. -/
def describedLiterals (a : Automaton Input) : List (Nat × Nat) :=
  let texts := descriptions a
  (literals a).zipIdx.filterMap fun (l, number) =>
    (texts.indexOf? l.2).map fun description => (number, description)

/-- For each state the numbers of the literals that leave it, and their targets. -/
def literalMoves (a : Automaton Input) : Result (Table (Nat × Nat)) :=
  let numbers := literalNumbers a
  (a.answersByState a.literalsFrom).mapM fun (state, found) => do
    return (state, ← found.mapM fun (text, description, target) => do
      return (← require .missingEntry (numbers.lookup (text, description)), target))

/-- For each state the numbers of the patterns of commands that leave it, and their targets. -/
def patternMoves (a : Automaton Input) (shell : Shell) (routines : Matcher.Routines) :
    Result (Table (Nat × Nat)) :=
  (a.answersByState (a.patternsFrom shell)).mapM fun (state, found) => do
    return (state, ← found.mapM fun (text, target) => do
      return (← require .missingEntry (routines.patterns.indexOf? text), target))

/-- For each state the numbers of the subwords that leave it, and their targets. -/
def subwordMoves (a : Automaton Input) (numbers : List (Nat × Nat)) : Result (Table (Nat × Nat)) :=
  (a.answersByState a.subwordsFrom).mapM fun (state, found) => do
    return (state, ← found.mapM fun (id, target) => do
      return (← require .missingEntry (numbers.lookup id), target))

/-- The greatest fallback level of an automaton that a script is written for. -/
def maxLevel (a : Automaton Input) : Result Nat := require .noLevels a.maxLevel?

/-- What the states of an automaton offer, level by level: the entries that the given function makes
of the inputs of their transitions, states in order of their first entry. -/
def levels {β : Type} (a : Automaton Input) (entry : Input → Result (Option β)) :
    Result (List (Table β)) := do
  let found ← a.transitions.mapM fun t => do
    return (t.symbol.level, t.source, ← entry t.symbol)
  return (List.range ((← maxLevel a) + 1)).map fun level =>
    (found.foldl (fun (table : OrderedMap Nat (List β)) offer =>
      match offer with
      | (own, state, some item) =>
        if own = level then table.alter state [] (· ++ [item]) else table
      | (_, _, none) => table) .empty).entries

/-- The literals that states offer. -/
def literalLevels (a : Automaton Input) : Result (List (Table Nat)) :=
  let numbers := literalNumbers a
  levels a fun
    | .literal text description _ _ => do
      return some (← require .missingEntry (numbers.lookup (text, description.getD "")))
    | _ => .ok none

/-- The number of a command among the routines. -/
def commandNumber (routines : Matcher.Routines) (text : String) : Result Nat :=
  require .missingEntry (routines.commands.indexOf? text)

/-- The commands without patterns that states offer. -/
def plainCommand (routines : Matcher.Routines) : Input → Result (Option Nat)
  | .command text none _ _ => do return some (← commandNumber routines text)
  | _ => .ok none

/-- The commands of specialized nonterminals that states offer. -/
def specializedCommand (shell : Shell) (routines : Matcher.Routines) : Input → Result (Option Nat)
  | .reference _ (some specialization) _ _ =>
    match specialization.shells.get? shell with
    | some text => do return some (← commandNumber routines text)
    | none => .ok none
  | _ => .ok none

/-- The commands that states offer, of either kind. -/
def anyCommand (shell : Shell) (routines : Matcher.Routines) (input : Input) :
    Result (Option Nat) := do
  match ← plainCommand routines input with
  | some number => return some number
  | none => specializedCommand shell routines input

/-- The commands with patterns that states offer, each with its pattern. -/
def filteredCommand (shell : Shell) (routines : Matcher.Routines) :
    Input → Result (Option (Nat × Nat))
  | .command text (some patterns) _ _ =>
    match patterns.get? shell with
    | some pattern => do
      return some (← commandNumber routines text,
        ← require .missingEntry (routines.patterns.indexOf? pattern))
    | none => .ok none
  | _ => .ok none

/-- The subwords that states offer. -/
def offeredSubword (numbers : List (Nat × Nat)) : Input → Result (Option Nat)
  | .subword id _ _ => do return some (← require .missingEntry (numbers.lookup id))
  | _ => .ok none

/-- Texts with spaces between them. -/
def spaced (texts : List String) : String := " ".intercalate texts

/-- Numbers with spaces between them. -/
def spacedNumbers (numbers : List Nat) : String := spaced (numbers.map toString)

/-- The text of a script with the given lines. -/
def ofLines (lines : List String) : String := String.join (lines.map (· ++ "\n"))

end ShellCompletion.Script
