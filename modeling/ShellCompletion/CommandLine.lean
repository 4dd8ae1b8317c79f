import ShellCompletion.Grammar.Valid

/-!
# The command line

What the program is asked to do, and what it tells the author of a grammar about warnings and errors.
Reading and writing files is left to the program itself.
-/

namespace ShellCompletion.CommandLine

/-- What the program is asked to do. A path of one dash stands for the standard streams. -/
inductive Task where
  /-- Outline a grammar from a help text. -/
  | outline
  /-- Write the script for a grammar, and its graph if a path is given for it. -/
  | compile (grammar : String) (shell : Shell) (script : String) (graph : Option String)
deriving DecidableEq, Repr

/-- The arguments read so far. -/
structure Arguments where
  /-- Whether a help text is to be outlined. -/
  outline : Bool := false
  /-- The path of the grammar. -/
  grammar : Option String := none
  /-- The paths of the scripts, with their shells. -/
  scripts : List (Shell × String) := []
  /-- The path of the graph. -/
  graph : Option String := none

namespace Arguments

/-- Take up an option with its value. -/
def set (arguments : Arguments) (option value : String) : Except String Arguments :=
  if option = "--dfa" then .ok { arguments with graph := some value }
  else
    match Shell.all.find? (fun shell => "--" ++ shell.name = option) with
    | some shell => .ok { arguments with scripts := arguments.scripts ++ [(shell, value)] }
    | none => .error s!"unexpected argument '{option}' found"

/-- Read arguments one after the other. -/
def read (arguments : Arguments) : List String → Except String Arguments
  | [] => .ok arguments
  | "--scrape" :: others => read { arguments with outline := true } others
  | argument :: others =>
    if argument.startsWith "--" then
      match others with
      | [] => .error s!"a value is required for '{argument}'"
      | value :: others => do read (← arguments.set argument value) others
    else if arguments.grammar.isSome then .error s!"unexpected argument '{argument}' found"
    else read { arguments with grammar := some argument } others

/-- The task that the arguments describe. -/
def task (arguments : Arguments) : Except String Task :=
  if arguments.outline then .ok .outline
  else
    match arguments.grammar, arguments.scripts with
    | none, _ => .error "Missing usage file path argument"
    | some grammar, [(shell, script)] => .ok (.compile grammar shell script arguments.graph)
    | some _, _ => .error "exactly one script has to be asked for"

end Arguments

/-- A message, behind the place it is about. -/
def placed (span : Option Span) (message : String) : String :=
  match span with
  | some span => s!"{span.line}:{span.start}:{message}"
  | none => message

/-- What the author of a grammar is told about an error. -/
def errorLines : GrammarError → List String
  | .severalCommands names => ["Multiple commands specified: " ++ ", ".intercalate names]
  | .notACommand name shell =>
    ["Can only specialize external commands: " ++ name ++ "@" ++ shell.getD ""]
  | .adjacentLiterals first second trace =>
    [placed first "Adjacent literals in expression used in a subword context.  First one:",
      placed second "Second one:",
      "Join the adjacent literals into one as spaces are invalid in a subword context"] ++
    trace.map fun span => placed (some span) "Referenced in a subword context at"
  | .ambiguousInputs first second =>
    [placed first.span "Ambiguous grammar.  Matching can't differentiate:",
      placed second.span "and:"]
  | .clashingVariants first second =>
    [placed first "Clashing variants.  Completion can't differentiate:", placed second "and:"]
  | error => error.message?.toList

/-- What the author of a grammar is told about a failure. -/
def failureLines : Failure → List String
  | .rejected error => errorLines error
  | .fault _ => ["The grammar cannot be compiled"]

/-- Warnings about the names of a valid grammar. -/
def warnings (valid : ValidGrammar) : List String :=
  (if valid.undefined.isEmpty then []
    else ["warning: undefined nonterminal(s): " ++ " ".intercalate valid.undefined]) ++
  (if valid.unused.isEmpty then []
    else ["warning: unused nonterminal(s): " ++ " ".intercalate valid.unused])

/-- The warning about the name of a zsh script, which zsh looks for by the name of the command. -/
def nameWarning (command path : String) (shell : Shell) : List String :=
  if shell = .zsh ∧ path ≠ "-" ∧ (path.splitOn "/").getLast? ≠ some ("_" ++ command) then
    ["warning: ZSH requires the output script to be named \"_" ++ command ++
      "\" for autoloading to work"]
  else []

end ShellCompletion.CommandLine
