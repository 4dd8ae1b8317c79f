import ShellCompletion.Data.OrderedMap
import ShellCompletion.Failure
import ShellCompletion.Grammar.Dependency
import ShellCompletion.Grammar.Description

/-!
# Definitions of nonterminals

Plain definitions give expressions for names. Definitions for a shell, which must be commands, make a
name specialized; its plain definition then serves the remaining shells and has to be a command too.
Some names are specialized from the start, unless the grammar specializes them itself.
-/

namespace ShellCompletion

/-- The plain definitions, by name. -/
abbrev Definitions := OrderedMap String Expr

/-- The specialized names and their commands. -/
abbrev Specializations := OrderedMap String Specialization

namespace Grammar

/-- The plain definitions of a grammar with their descriptions distributed. No name may have two. -/
def definitions (grammar : Grammar) : Result Definitions :=
  grammar.statements.foldlM (fun (definitions : Definitions) statement =>
    match statement with
    | .definition name none body =>
      if definitions.contains name then reject (.duplicateDefinition name none)
      else .ok (definitions.insert name body.distributed)
    | _ => .ok definitions) .empty

/-- Take up a definition for a shell. -/
def addShellDefinition (found : Specializations) (name shell : String) (body : Expr) :
    Result Specializations :=
  match body with
  | .command text _ _ _ =>
    match Shell.ofGrammarName? shell with
    | none => reject (.unknownShell shell)
    | some known =>
      let commands := (found.get? name).getD {}
      if (commands.shells.get? known).isSome then reject (.duplicateDefinition name (some shell))
      else .ok (found.insert name { commands with shells := commands.shells.set known text })
  | _ => reject (.notACommand name (some shell))

/-- Take up the plain definition of a specialized name. A generic command that is there already is not
looked for: a name has no second plain definition when this is done, since `definitions` rejects it
before. -/
def addGenericDefinition (found : Specializations) (name : String) (body : Expr) :
    Result Specializations :=
  match found.get? name with
  | none => .ok found
  | some commands =>
    match body with
    | .command text _ _ _ => .ok (found.insert name { commands with generic := some text })
    | _ => reject (.notACommand name none)

/-- The bash command that offers each line of a listing with a space behind it. -/
def spacedListing (kind : String) : String :=
  s!"compgen -A {kind} | while read line; do echo \"$line \"; done"

/-- The names that are specialized from the start. -/
def predefined : List (String × Specialization) :=
  [("PATH", { shells := {
      bash := some "compgen -A file \"$1\""
      fish := some "__fish_complete_path \"$1\""
      zsh := some "_path_files" } }),
    ("DIRECTORY", { shells := {
      bash := some "compgen -A directory \"$1\""
      fish := some "__fish_complete_directories \"$1\""
      zsh := some "_path_files -/" } }),
    ("PID", { shells := {
      fish := some "__fish_complete_pids"
      zsh := some "_pids" } }),
    ("USER", { shells := {
      bash := some (spacedListing "user")
      fish := some "__fish_complete_users"
      zsh := some "_users" } }),
    ("GROUP", { shells := {
      bash := some (spacedListing "group")
      fish := some "__fish_complete_groups"
      zsh := some "_groups" } }),
    ("HOST", { shells := {
      bash := some (spacedListing "hostname")
      fish := some "__fish_complete_hostnames"
      zsh := some "_hosts" } }),
    ("INTERFACE", { shells := {
      fish := some "__fish_complete_interfaces"
      zsh := some "_net_interfaces" } }),
    ("PACKAGE", { shells := {
      fish := some "__fish_complete_packages" } })]

/-- The specialized names of a grammar: first those of its definitions for shells, then their plain
definitions, then the names that are specialized from the start. -/
def specializations (grammar : Grammar) : Result Specializations := do
  let found ← grammar.statements.foldlM (fun found statement =>
    match statement with
    | .definition name (some shell) body => addShellDefinition found name shell body
    | _ => .ok found) .empty
  let found ← grammar.statements.foldlM (fun found statement =>
    match statement with
    | .definition name none body => addGenericDefinition found name body
    | _ => .ok found) found
  return predefined.foldl (fun found entry => found.insertNew entry.1 entry.2) found

end Grammar

/-- The graph of the names that definitions mention. -/
def Definitions.dependencies (definitions : Definitions) : Dependencies :=
  .ofList (definitions.entries.map fun d => (d.1, d.2.references.filter definitions.contains))

end ShellCompletion
