import ShellCompletion.Grammar.Adjacency
import ShellCompletion.Grammar.Compilation
import ShellCompletion.Grammar.Level
import ShellCompletion.Grammar.Resolution

/-!
# Valid grammars

A grammar is valid for a shell if it calls one command, its definitions are consistent and without
circles, no literals touch inside words and every subword can be matched without guessing. Validation
resolves the calls to one pattern of inputs and collects the automata of the subwords.
-/

namespace ShellCompletion

/-- A grammar whose references are resolved. -/
structure ResolvedGrammar where
  /-- The name of the command. -/
  command : String
  /-- What may follow the command, with levels assigned. -/
  body : Expr
  /-- The specialized names. -/
  specializations : Specializations
  /-- The names that are mentioned and neither defined nor specialized, in ascending order. -/
  undefined : List String
  /-- The names that are defined and not used, in ascending order. -/
  unused : List String

/-- A grammar that is valid for a shell. -/
structure ValidGrammar where
  /-- The name of the command. -/
  command : String
  /-- What may follow the command. -/
  pattern : Pattern Input
  /-- The automata of the subwords. -/
  subwords : Interner Input
  /-- The specialized names. -/
  specializations : Specializations
  /-- The names that are mentioned and neither defined nor specialized, in ascending order. -/
  undefined : List String
  /-- The names that are defined and not used, in ascending order. -/
  unused : List String

/-- Different names in ascending order. -/
def sortedNames (names : List String) : List String :=
  names.eraseDups.mergeSort fun a b => a ≤ b

namespace Grammar

/-- The calls of the command, each with its name. -/
def calls (grammar : Grammar) : List (String × Expr) :=
  grammar.statements.filterMap fun
    | .call head body => some (head, body)
    | .definition .. => none

/-- The name of the command, which all calls share. -/
def command (grammar : Grammar) : Result String :=
  match sortedNames (grammar.calls.map Prod.fst) with
  | [] => reject .missingCalls
  | [name] => .ok name
  | names => reject (.severalCommands names)

/-- What may follow the command: the single call, or one of several. -/
def body (grammar : Grammar) : Expr :=
  match grammar.calls with
  | [(_, e)] => e
  | calls => .alternative (calls.map Prod.snd)

/-- Resolve the references of a grammar. -/
def resolve (grammar : Grammar) : Result ResolvedGrammar := do
  let command ← grammar.command
  let definitions ← grammar.definitions
  let body := grammar.body.distributed
  let specializations ← grammar.specializations
  let order ← definitions.dependencies.resolutionOrder
  let resolved := definitions.resolve specializations order
  body.refuseTouchingLiterals resolved
  let result := (body.substitute (resolved.replacement? specializations)).assignLevels 0
  return {
    command, specializations
    body := result
    undefined := sortedNames (result.references.filter (!specializations.contains ·))
    unused := sortedNames (definitions.unused specializations order body) }

/-- Validate a grammar for a shell. -/
def validate (grammar : Grammar) (shell : Shell) : Result ValidGrammar := do
  let resolved ← grammar.resolve
  let (subwords, pattern) ← resolved.body.flattenSubwords.toPattern
    (Positions.checkSubwordFor shell) resolved.specializations {}
  return {
    pattern, subwords
    command := resolved.command
    specializations := resolved.specializations
    undefined := resolved.undefined
    unused := resolved.unused }

end Grammar

end ShellCompletion
