/-!
# Shells and the texts kept for them

A grammar is compiled for one of four shells. Commands carry at most one pattern per shell, and a
nonterminal may be served by one command per shell, with a generic command beside them. How these
texts enter a script is left to the script modules.
-/

namespace ShellCompletion

/-- The shells a completion script can be written for. -/
inductive Shell where
  | bash
  | fish
  | zsh
  | pwsh
deriving DecidableEq, Repr

/-- The name by which grammars and messages refer to a shell. -/
def Shell.name : Shell → String
  | .bash => "bash"
  | .fish => "fish"
  | .zsh => "zsh"
  | .pwsh => "pwsh"

/-- All shells, in the order in which reports list them. -/
def Shell.all : List Shell := [.bash, .fish, .zsh, .pwsh]

/-- The shell with the given name. -/
def Shell.ofName? (name : String) : Option Shell :=
  Shell.all.find? (·.name == name)

/-- The shells that a grammar may name in a pattern or a specialization. -/
def Shell.ofGrammarName? (name : String) : Option Shell :=
  (Shell.ofName? name).filter (· != .pwsh)

/-- At most one text for each shell. -/
structure ShellTexts where
  /-- The text for bash. -/
  bash : Option String := none
  /-- The text for fish. -/
  fish : Option String := none
  /-- The text for zsh. -/
  zsh : Option String := none
  /-- The text for PowerShell. -/
  pwsh : Option String := none
deriving DecidableEq, Repr

/-- The text kept for a shell. -/
def ShellTexts.get? (texts : ShellTexts) : Shell → Option String
  | .bash => texts.bash
  | .fish => texts.fish
  | .zsh => texts.zsh
  | .pwsh => texts.pwsh

/-- Keep a text for a shell, in place of the one it may have had. -/
def ShellTexts.set (texts : ShellTexts) (shell : Shell) (text : String) : ShellTexts :=
  match shell with
  | .bash => { texts with bash := some text }
  | .fish => { texts with fish := some text }
  | .zsh => { texts with zsh := some text }
  | .pwsh => { texts with pwsh := some text }

/-- Setting a text is seen by its own shell and by no other. -/
theorem ShellTexts.get?_set (texts : ShellTexts) (shell other : Shell) (text : String) :
    (texts.set shell text).get? other = if other = shell then some text else texts.get? other := by
  cases shell <;> cases other <;> rfl

/-- The commands that complete a nonterminal: one per shell, and one for shells without their own. -/
structure Specialization where
  /-- Commands given for particular shells. -/
  shells : ShellTexts := {}
  /-- The command of the plain definition. -/
  generic : Option String := none
deriving DecidableEq, Repr

end ShellCompletion
