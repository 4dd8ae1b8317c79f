import ShellCompletion.Failure

/-!
# Texts as words of a shell

How a text is written in a script so that the shell reads it as one word. Bash and fish write a text
without quotes where no blank asks for them; zsh always writes double quotes and PowerShell single
ones.
-/

namespace ShellCompletion.Quote

/-- Put a backslash before each of the given characters. -/
def escape (special : List Char) (text : String) : String :=
  String.ofList (text.toList.flatMap fun c => if c ∈ special then ['\\', c] else [c])

/-- Put a backslash before each of the given characters, for one character after the other in the whole
text. A backslash has to be the first one, or those that were put in get one too. -/
def escapeInTurn (special : List Char) (text : String) : String :=
  special.foldl (fun text c => escape [c] text) text

/-- Put double quotes around a text. -/
def doubleQuoted (text : String) : String := "\"" ++ text ++ "\""

/-- Escape a text, and put it into double quotes if it is empty or holds one of the given blanks. -/
def whereNeeded (blanks special : List Char) (text : String) : String :=
  if text.isEmpty || text.toList.any (· ∈ blanks) then doubleQuoted (escape special text)
  else escape special text

/-- A word of bash. -/
def bash (text : String) : String :=
  whereNeeded [' ', '\t', '\n'] ['"', '\x60', '$'] text

/-- A word of fish. -/
def fish (text : String) : String :=
  whereNeeded [' ', '\t', '\n', '|'] ['\\', '"', '$'] text

/-- A word of zsh. -/
def zsh (text : String) : String :=
  doubleQuoted (escapeInTurn ['\\', '"', '\x60', '$'] text)

/-- A word of PowerShell, in which a single quote is written twice. -/
def pwsh (text : String) : String :=
  "'" ++ String.ofList (text.toList.flatMap fun c => if c = '\'' then ['\'', '\''] else [c]) ++ "'"

/-- A text as a word of a shell. -/
def forShell : Shell → String → String
  | .bash => bash
  | .fish => fish
  | .zsh => zsh
  | .pwsh => pwsh

/-- Reject names of commands that cannot be part of the name of a fish function. -/
def checkFishCommand (name : String) : Result Unit :=
  if name.toList.contains '/' then reject (.invalidCommandName name) else .ok ()

end ShellCompletion.Quote
