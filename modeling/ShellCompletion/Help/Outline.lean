import ShellCompletion.Help.Line
import ShellCompletion.Text.Lines

/-!
# From a help text to a grammar

The options that a help text describes, as branches of an alternative. The description of an option
with a long name may go on in the next lines, where those are indented to the place at which it
starts.
-/

namespace ShellCompletion.Help

/-- Whether the description of an option may go on in the next lines. -/
def Entry.goesOn (entry : Entry) : Bool :=
  match entry.names, entry.argument with
  | .long _, none => true
  | .long _, some (.joined, _) => true
  | _, _ => false

/-- The text of a line that has the given indentation in bytes. -/
def continued? (indentation : Nat) (line : List Char) : Option (List Char) :=
  match indented.whole? line with
  | some (blanks, text) => if Text.bytes blanks = indentation then some text else none
  | none => none

/-- The texts of the first lines, up to one without the given indentation. -/
def continuation (indentation : Nat) : List (List Char) → List (List Char)
  | [] => []
  | line :: later =>
    match continued? indentation line with
    | some text => text :: continuation indentation later
    | none => []

/-- The entry of a line with what later lines add to its description, and the number of those
lines. -/
def Entry.extend (entry : Entry) (line : List Char) (later : List (List Char)) : Entry × Nat :=
  if entry.goesOn then
    let texts := continuation (Text.bytes line - Text.bytes entry.description) later
    ({ entry with description := entry.description ++ texts.flatMap (' ' :: ·) }, texts.length)
  else (entry, 0)

/-- The options that lines describe. -/
def entries : List (List Char) → List Entry
  | [] => []
  | line :: later =>
    match Entry.ofLine? line with
    | some entry =>
      let (extended, count) := entry.extend line later
      extended :: entries (later.drop count)
    | none => entries later
termination_by lines => lines.length

/-- The branches of a grammar for the options that a help text describes. -/
def outline (text : String) (last : Text.LastReturn := .kept) : String :=
  String.join ((entries (Text.lines last text.toList)).map Entry.branch)

end ShellCompletion.Help
