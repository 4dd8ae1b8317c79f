import ShellCompletion.Automaton.Dot
import ShellCompletion.CommandLine
import ShellCompletion.Grammar.Parser
import ShellCompletion.Help.Outline
import ShellCompletion.Script

/-!
# The program

Reads a grammar and writes its completion script, or reads a help text and writes the outline of a
grammar. Here are only the streams and files; what is read and written is decided elsewhere.
-/

namespace ShellCompletion.CommandLine

/-- Write lines to the error stream. -/
def complain (lines : List String) : IO Unit := do
  for line in lines do
    IO.eprintln line

/-- Read all that a stream gives. -/
partial def readAll (stream : IO.FS.Stream) (before : String) : IO String := do
  let line ← stream.getLine
  if line.isEmpty then return before
  readAll stream (before ++ line)

/-- Read a file, or the standard input. -/
def readSource (path : String) : IO String := do
  if path = "-" then readAll (← IO.getStdin) "" else IO.FS.readFile path

/-- Write a file, or the standard output. -/
def writeTarget (path text : String) : IO Unit :=
  if path = "-" then IO.print text else IO.FS.writeFile path text

/-- Compile a grammar and write what was asked for. -/
def compile (source : String) (shell : Shell) (script : String) (graph : Option String) :
    IO UInt32 := do
  match Grammar.parse (← readSource source) with
  | .error e =>
    complain [s!"{e.line}:{e.column}:{e.message}", e.source]
    return 1
  | .ok grammar =>
    match grammar.validate shell with
    | .ok valid => complain (warnings valid)
    | .error _ => pure ()
    let compiled := do
      let compiled ← grammar.compile shell true
      return (compiled.command, ← compiled.matcher.dot, ← compiled.script shell)
    match compiled with
    | .error failure =>
      complain (failureLines failure)
      return 1
    | .ok (command, dot, text) =>
      match graph with
      | some path => writeTarget path dot
      | none => pure ()
      complain (nameWarning command script shell)
      writeTarget script text
      return 0

/-- Do a task. -/
def run : Task → IO UInt32
  | .outline => do
    IO.print (Help.outline (← readSource "-"))
    return 0
  | .compile grammar shell script graph => compile grammar shell script graph

end ShellCompletion.CommandLine

/-- Read the arguments and do what they ask for. -/
def main (arguments : List String) : IO UInt32 := do
  match (ShellCompletion.CommandLine.Arguments.read {} arguments).bind (·.task) with
  | .ok task => ShellCompletion.CommandLine.run task
  | .error message =>
    IO.eprintln s!"error: {message}"
    return 2
