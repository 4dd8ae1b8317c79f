import ShellCompletion.Shell
import ShellCompletion.Source.Span

/-!
# Inputs of an automaton

The letters over which command lines are matched. Two inputs are the same letter only if they agree
in everything, the place where they were written included. A subword is named by the number of its
own automaton.
-/

namespace ShellCompletion

/-- What one step of matching reads. -/
inductive Input where
  /-- A literal text with its description. -/
  | literal (text : String) (description : Option String) (level : Nat) (span : Option Span)
  /-- A word matched by the automaton with the given number. -/
  | subword (id : Nat) (level : Nat) (span : Option Span)
  /-- A nonterminal, with the commands that complete it. -/
  | reference (name : String) (commands : Option Specialization) (level : Nat) (span : Option Span)
  /-- A command whose output lists the candidates, and patterns for them. -/
  | command (text : String) (patterns : Option ShellTexts) (level : Nat) (span : Option Span)
deriving DecidableEq, Repr

namespace Input

/-- Whether the shell cannot tell what the input matches: a nonterminal, and a command without a
pattern for that shell. -/
def isAmbiguous (shell : Shell) : Input → Bool
  | .literal .. => false
  | .subword .. => false
  | .reference .. => true
  | .command _ none _ _ => true
  | .command _ (some patterns) _ _ => (patterns.get? shell).isNone

/-- The place where the input was written. -/
def span : Input → Option Span
  | .literal _ _ _ span => span
  | .subword _ _ span => span
  | .reference _ _ _ span => span
  | .command _ _ _ span => span

/-- The fallback level. -/
def level : Input → Nat
  | .literal _ _ level _ => level
  | .subword _ level _ => level
  | .reference _ _ level _ => level
  | .command _ _ level _ => level

end Input

end ShellCompletion
