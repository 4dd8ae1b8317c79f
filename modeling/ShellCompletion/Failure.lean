import ShellCompletion.Input

/-!
# Failures

A grammar is rejected for one of a few reasons that its author can mend. Apart from them stand faults:
situations that no step of the compilation provides for.
-/

namespace ShellCompletion

/-- The reasons for which a grammar is rejected. -/
inductive GrammarError where
  /-- No statement calls the command. -/
  | missingCalls
  /-- The calls name several commands. -/
  | severalCommands (names : List String)
  /-- The command's name cannot be used in a script. -/
  | invalidCommandName (name : String)
  /-- Definitions depend on each other in a circle. -/
  | definitionCycle
  /-- A nonterminal is defined twice, for all shells or for the named one. -/
  | duplicateDefinition (name : String) (shell : Option String)
  /-- A definition is for a shell that is not known. -/
  | unknownShell (shell : String)
  /-- A definition that has to be a command is not. -/
  | notACommand (name : String) (shell : Option String)
  /-- Two inputs cannot be told apart in matching. -/
  | ambiguousInputs (first second : Input)
  /-- One literal is offered with two descriptions. -/
  | clashingVariants (first second : Option Span)
  /-- Two literals touch inside a word, by way of the references at the given places. -/
  | adjacentLiterals (first second : Option Span) (trace : List Span)
deriving DecidableEq, Repr

/-- The wording of an error. Errors that are shown by the inputs, names or places they carry have
none. -/
def GrammarError.message? : GrammarError → Option String
  | .missingCalls => some "Grammar needs to contain at least one call variant, e.g. grep;"
  | .invalidCommandName name => some s!"Invalid command name: {name}"
  | .definitionCycle => some "Nonterminal definitions depend on each other cyclically"
  | .duplicateDefinition .. => some "Duplicate nonterminal definition"
  | .unknownShell shell => some s!"Unknown shell: {shell}"
  | .severalCommands _ | .notACommand .. | .ambiguousInputs .. | .clashingVariants ..
  | .adjacentLiterals .. => none

/-- The situations that the compilation does not provide for. -/
inductive Fault where
  /-- A sequence without items. -/
  | emptySequence
  /-- A description that was not distributed. -/
  | strayDescription
  /-- A subword at the edge of an item inside a subword. -/
  | nestedSubword
  /-- References that unfold without end. -/
  | endlessUnfolding
  /-- A dependency on a name that is not in the graph. -/
  | unknownDependency
  /-- More position sets than there are state numbers. -/
  | tooManyStates
  /-- A group of states without members. -/
  | emptyGroup
  /-- Refinement that goes on beyond its bound. -/
  | endlessRefinement
  /-- A state that has no representative or number. -/
  | unknownState
  /-- A subword whose automaton is not known. -/
  | unknownSubword
  /-- An automaton without transitions, which has no fallback levels. -/
  | noLevels
  /-- A table entry that is not there. -/
  | missingEntry
deriving DecidableEq, Repr

/-- Why there is no result. -/
inductive Failure where
  /-- The grammar is rejected. -/
  | rejected (error : GrammarError)
  /-- The compilation met a situation it does not provide for. -/
  | fault (fault : Fault)
deriving DecidableEq, Repr

/-- Results of the compilation. -/
abbrev Result := Except Failure

/-- Reject the grammar. -/
def reject {α : Type} (error : GrammarError) : Result α := .error (.rejected error)

/-- Give up with a fault. -/
def giveUp {α : Type} (fault : Fault) : Result α := .error (.fault fault)

/-- A value that has to be there. -/
def require {α : Type} (fault : Fault) : Option α → Result α
  | some a => .ok a
  | none => giveUp fault

end ShellCompletion
