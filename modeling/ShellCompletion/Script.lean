import ShellCompletion.Compiler
import ShellCompletion.Script.Bash
import ShellCompletion.Script.Fish
import ShellCompletion.Script.Pwsh
import ShellCompletion.Script.Zsh

/-!
# Completion scripts

The script that makes a shell complete the command lines of a compiled grammar.
-/

namespace ShellCompletion

/-- The completion script for a shell. -/
def CompiledGrammar.script (grammar : CompiledGrammar) : Shell → Result String
  | .bash => Script.Bash.script grammar.command grammar.matcher
  | .fish => Script.Fish.script grammar.command grammar.matcher
  | .zsh => Script.Zsh.script grammar.command grammar.matcher
  | .pwsh => Script.Pwsh.script grammar.command grammar.matcher

end ShellCompletion
