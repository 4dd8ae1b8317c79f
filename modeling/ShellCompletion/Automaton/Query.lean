import ShellCompletion.Automaton.Basic
import ShellCompletion.Input

/-!
# Questions to an automaton over inputs

What the writers of scripts and reports need to know about an automaton: its literals, and the
transitions from a state by kind of input.
-/

namespace ShellCompletion.Automaton

/-- The literals among the symbols, each with its description. -/
def literals (a : Automaton Input) : List (String × Option String) :=
  a.symbols.toList.filterMap fun
    | .literal text description _ _ => some (text, description)
    | _ => none

/-- The literals that leave a state: text, description or nothing, and target. -/
def literalsFrom (a : Automaton Input) (state : Nat) : List (String × String × Nat) :=
  (a.transitionsFrom state).filterMap fun t =>
    match t.symbol with
    | .literal text description _ _ => some (text, description.getD "", t.target)
    | _ => none

/-- The patterns of commands that leave a state in a shell, each with its target. -/
def patternsFrom (a : Automaton Input) (shell : Shell) (state : Nat) : List (String × Nat) :=
  (a.transitionsFrom state).filterMap fun t =>
    match t.symbol with
    | .command _ (some patterns) _ _ => (patterns.get? shell).map fun text => (text, t.target)
    | _ => none

/-- The subwords that leave a state, each with its target. -/
def subwordsFrom (a : Automaton Input) (state : Nat) : List (Nat × Nat) :=
  (a.transitionsFrom state).filterMap fun t =>
    match t.symbol with
    | .subword id _ _ => some (id, t.target)
    | _ => none

/-- The subwords of all transitions, without repetition. -/
def subwordIds (a : Automaton Input) : OrderedSet Nat :=
  .ofList (a.transitions.filterMap fun t =>
    match t.symbol with
    | .subword id _ _ => some id
    | _ => none)

/-- Whether some transition is on a subword. -/
def hasSubwords (a : Automaton Input) : Bool := !a.subwordIds.toList.isEmpty

/-- The subwords of all transitions, numbered from the given number. -/
def numberedSubwords (a : Automaton Input) (first : Nat) : List (Nat × Nat) :=
  a.subwordIds.toList.zipIdx first

/-- The transitions on inputs that are ambiguous in a shell: source and target. -/
def ambiguousMoves (a : Automaton Input) (shell : Shell) : List (Nat × Nat) :=
  (a.transitions.filter (·.symbol.isAmbiguous shell)).map fun t => (t.source, t.target)

/-- The greatest fallback level of a transition. -/
def maxLevel? (a : Automaton Input) : Option Nat :=
  (a.transitions.map (·.symbol.level)).max?

/-- The states with a row for which a question has answers, in ascending order. -/
def answersByState {β : Type} (a : Automaton Input) (question : Nat → List β) :
    List (Nat × List β) :=
  (a.states.toList.map fun state => (state, question state)).filter (!·.2.isEmpty)

end ShellCompletion.Automaton
