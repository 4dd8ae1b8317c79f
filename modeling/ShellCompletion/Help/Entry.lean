/-!
# Entries of a help text

An option of a command as its help text describes it, and the branch of a grammar that stands for it.
-/

namespace ShellCompletion.Help

/-- The names of an option, without the dashes in front of them. -/
inductive Names where
  /-- One character after one dash. -/
  | short (name : Char)
  /-- A name after two dashes. -/
  | long (name : List Char)
  /-- A name of each kind. -/
  | both (short : Char) (long : List Char)
deriving DecidableEq, Repr

/-- How an option takes an argument. -/
inductive Style where
  /-- As the next word. -/
  | word
  /-- As the next word, which may be missing. -/
  | optionalWord
  /-- After an equals sign. -/
  | joined
  /-- After an equals sign, which may be missing with it. -/
  | optionalJoined
deriving DecidableEq, Repr

/-- An option of a command. -/
structure Entry where
  /-- The names of the option. -/
  names : Names
  /-- How the option takes its argument and what the argument is called, if it takes one. -/
  argument : Option (Style × List Char)
  /-- What the option does. -/
  description : List Char
deriving DecidableEq, Repr

namespace Entry

/-- A name of one character with the argument after it. An argument that a long name takes after an
equals sign is the next word after a short name. -/
def spellShort (name : Char) : Option (Style × List Char) → String
  | none => "-" ++ name.toString
  | some (.word, argument) | some (.joined, argument) =>
    "-" ++ name.toString ++ " <" ++ String.ofList argument ++ ">"
  | some (.optionalWord, argument) | some (.optionalJoined, argument) =>
    "-" ++ name.toString ++ " [<" ++ String.ofList argument ++ ">]"

/-- A long name with the argument after it. -/
def spellLong (name : List Char) : Option (Style × List Char) → String
  | none => "--" ++ String.ofList name
  | some (.word, argument) => "--" ++ String.ofList name ++ " <" ++ String.ofList argument ++ ">"
  | some (.optionalWord, argument) =>
    "--" ++ String.ofList name ++ " [<" ++ String.ofList argument ++ ">]"
  | some (.joined, argument) => "--" ++ String.ofList name ++ "=<" ++ String.ofList argument ++ ">"
  | some (.optionalJoined, argument) =>
    "--" ++ String.ofList name ++ "[=<" ++ String.ofList argument ++ ">]"

/-- Put parentheses around an expression. -/
def grouped (text : String) : String := "(" ++ text ++ ")"

/-- The option as an expression that a description can follow: in parentheses if it has two names or
an argument of its own. -/
def expression (entry : Entry) : String :=
  match entry.names, entry.argument with
  | .both short long, argument =>
    grouped (spellShort short argument ++ " | " ++ spellLong long argument)
  | .short name, none => spellShort name none
  | .short name, argument => grouped (spellShort name argument)
  | .long name, some (.word, argument) => grouped (spellLong name (some (.word, argument)))
  | .long name, some (.optionalWord, argument) =>
    grouped (spellLong name (some (.optionalWord, argument)))
  | .long name, argument => spellLong name argument

/-- The branch of a grammar that stands for the option. The description is taken as it is. -/
def branch (entry : Entry) : String :=
  " | " ++ entry.expression ++ " \"" ++ String.ofList entry.description ++ "\"\n"

end Entry

end ShellCompletion.Help
