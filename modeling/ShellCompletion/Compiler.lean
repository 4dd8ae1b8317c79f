import ShellCompletion.Grammar.Valid
import ShellCompletion.Matcher

/-!
# From a grammar to a matcher

The whole way: a grammar is validated for a shell, the positions of its pattern are checked, and its
automaton is built and, if asked for, minimized.
-/

namespace ShellCompletion

/-- A command whose command lines can be matched. -/
structure CompiledGrammar where
  /-- The name of the command. -/
  command : String
  /-- The matcher of its command lines. -/
  matcher : Matcher

namespace Grammar

/-- Validate a grammar and check the positions of its pattern. -/
def check (grammar : Grammar) (shell : Shell) : Result ValidGrammar := do
  let valid ← grammar.validate shell
  let positions := valid.pattern.positions
  positions.checkWords shell
  positions.checkVariants
  return valid

/-- Compile a grammar for a shell. -/
def compile (grammar : Grammar) (shell : Shell) (minimized : Bool) : Result CompiledGrammar := do
  let valid ← grammar.check shell
  let a ← valid.pattern.positions.automaton
  let a ← if minimized then a.minimize else pure a
  return { command := valid.command, matcher := ⟨a, valid.subwords⟩ }

end Grammar

end ShellCompletion
