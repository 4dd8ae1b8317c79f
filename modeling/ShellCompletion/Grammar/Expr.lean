import ShellCompletion.Shell
import ShellCompletion.Source.Span

/-!
# Expressions and statements of a grammar

An expression describes the words that may follow a command. Leaves are literals, references to
nonterminals and commands whose output is offered; they carry a fallback level and the place where
they were written. A subword is an expression whose items follow each other inside one word.
-/

namespace ShellCompletion

/-- What may stand on a command line. -/
inductive Expr where
  /-- A word or a part of a word, with its description. -/
  | literal (text : String) (description : Option String) (level : Nat) (span : Option Span)
  /-- A nonterminal, by name. -/
  | reference (name : String) (level : Nat) (span : Option Span)
  /-- A command whose output lists the candidates, and patterns for them. -/
  | command (text : String) (patterns : Option ShellTexts) (level : Nat) (span : Option Span)
  /-- One item after the other. -/
  | sequence (items : List Expr)
  /-- One of several branches. -/
  | alternative (branches : List Expr)
  /-- One of several branches, of which later ones are offered when earlier ones give nothing. -/
  | fallback (branches : List Expr)
  /-- An item that may be left out. -/
  | optional (item : Expr)
  /-- One or more occurrences of an item. -/
  | repeated (item : Expr)
  /-- An expression with a description for the literals that it may start with. -/
  | described (item : Expr) (description : String)
  /-- An expression that is matched inside one word. -/
  | subword (body : Expr) (level : Nat) (span : Option Span)

/-- One statement of a grammar. -/
inductive Statement where
  /-- A way of calling the command. -/
  | call (head : String) (body : Expr)
  /-- A definition of a nonterminal, for all shells or for the named one. -/
  | definition (name : String) (shell : Option String) (body : Expr)

/-- A grammar is a list of statements. -/
structure Grammar where
  /-- The statements, in the order in which they were written. -/
  statements : List Statement

mutual

/-- Replace every subword by its body: inside a word there are no further words. -/
def Expr.flatten : Expr → Expr
  | .literal text description level span => .literal text description level span
  | .reference name level span => .reference name level span
  | .command text patterns level span => .command text patterns level span
  | .sequence items => .sequence (Expr.flattenAll items)
  | .alternative branches => .alternative (Expr.flattenAll branches)
  | .fallback branches => .fallback (Expr.flattenAll branches)
  | .optional item => .optional item.flatten
  | .repeated item => .repeated item.flatten
  | .described item description => .described item.flatten description
  | .subword body _ _ => body.flatten

/-- Flatten each expression of a list. -/
def Expr.flattenAll : List Expr → List Expr
  | [] => []
  | e :: es => e.flatten :: Expr.flattenAll es

end

mutual

/-- The names of the nonterminals that occur in an expression, from left to right. -/
def Expr.references : Expr → List String
  | .literal .. => []
  | .reference name _ _ => [name]
  | .command .. => []
  | .sequence items => Expr.referencesAll items
  | .alternative branches => Expr.referencesAll branches
  | .fallback branches => Expr.referencesAll branches
  | .optional item => item.references
  | .repeated item => item.references
  | .described item _ => item.references
  | .subword body _ _ => body.references

/-- The names that occur in a list of expressions. -/
def Expr.referencesAll : List Expr → List String
  | [] => []
  | e :: es => e.references ++ Expr.referencesAll es

end

end ShellCompletion
