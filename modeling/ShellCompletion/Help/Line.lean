import ShellCompletion.Help.Entry
import ShellCompletion.Text.Readings
import ShellCompletion.Text.Uppercase
import ShellCompletion.Text.Whitespace

/-!
# Lines of a help text

A line that describes an option has its names, its argument and the description in one of a few forms.
The forms overlap: the name of an option may hold any character but white space, so `--when=TIME` can
be a name or a name with an argument. The forms are tried in a fixed order, the most particular of a
kind first.
-/

namespace ShellCompletion.Help

open Text (Readings isWhitespace isUppercase)

/-- Read white space, if there is any. -/
def blanks : Readings Unit := do
  let _ ← Readings.run isWhitespace

/-- Read a dash and the character after it. -/
def shortName : Readings Char := do
  Readings.exactly "-"
  Readings.one (!isWhitespace ·)

/-- Read two dashes and the name after them. -/
def longName : Readings (List Char) := do
  Readings.exactly "--"
  Readings.someRun (!isWhitespace ·)

/-- Read a short name. -/
def short : Readings Names := do
  blanks
  return .short (← shortName)

/-- Read a long name. -/
def long : Readings Names := do
  blanks
  return .long (← longName)

/-- Read a short and a long name with a comma between them. -/
def both : Readings Names := do
  blanks
  let short ← shortName
  Readings.exactly ","
  blanks
  return .both short (← longName)

/-- What the name of an argument is made of. -/
def Style.holds : Style → Char → Bool
  | .word, c | .optionalWord, c => c != '>'
  | .joined, c | .optionalJoined, c => isUppercase c

/-- What stands in front of the name of an argument. -/
def Style.before : Style → String
  | .word => " <"
  | .optionalWord => " [<"
  | .joined => "="
  | .optionalJoined => "[="

/-- What stands after the name of an argument. -/
def Style.after : Style → String
  | .word => ">"
  | .optionalWord => ">]"
  | .joined => ""
  | .optionalJoined => "]"

/-- Read an argument after a long name. -/
def Style.argument (style : Style) : Readings (Option (Style × List Char)) := do
  Readings.exactly style.before
  let name ← Readings.someRun style.holds
  Readings.exactly style.after
  return some (style, name)

/-- Read an argument after a short name, from which any white space may separate it. -/
def spacedArgument : Readings (Option (Style × List Char)) := do
  blanks
  Readings.exactly "<"
  let name ← Readings.someRun Style.word.holds
  Readings.exactly ">"
  return some (.word, name)

/-- Read an entry from names and an argument, and the description that white space separates from
them. -/
def entry (names : Readings Names) (argument : Readings (Option (Style × List Char))) :
    Readings Entry := do
  let names ← names
  let argument ← argument
  let _ ← Readings.someRun isWhitespace
  return ⟨names, argument, ← Readings.remainder⟩

/-- The forms of a line that describes an option, in the order in which they are tried. -/
def forms : List (Readings Entry) :=
  [entry both (Style.argument .optionalWord),
    entry both (Style.argument .word),
    entry both (Style.argument .joined),
    entry both (pure none),
    entry long (Style.argument .joined),
    entry long (Style.argument .optionalWord),
    entry long (Style.argument .word),
    entry long (Style.argument .optionalJoined),
    entry long (pure none),
    entry short spacedArgument,
    entry short (pure none)]

/-- The option that a line describes, if it describes one. -/
def Entry.ofLine? (line : List Char) : Option Entry :=
  forms.findSome? fun form => form.whole? line

/-- The indentation of a line, and the text after it, which is not empty. -/
def indented : Readings (List Char × List Char) := do
  let indentation ← Readings.run isWhitespace
  return (indentation, ← Readings.remainder)

end ShellCompletion.Help
