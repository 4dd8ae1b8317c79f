import ShellCompletion.Automaton.Construction
import ShellCompletion.Automaton.Interner
import ShellCompletion.Automaton.Minimization
import ShellCompletion.Grammar.Definition
import ShellCompletion.Pattern.Checks

/-!
# From expressions to patterns of inputs

Leaves become inputs. Each subword is compiled to an automaton of its own, whose number becomes the
input, after its positions have passed the given check. Subwords are compiled from left to right, inner
ones before outer ones.
-/

namespace ShellCompletion

/-- The automaton for the words of a pattern, with the least number of states. -/
def Pattern.minimalAutomaton {α : Type} [DecidableEq α] (p : Pattern α) : Result (Automaton α) := do
  let a ← p.positions.automaton
  a.minimize

mutual

/-- The pattern of an expression. -/
def Expr.toPattern (check : Positions Input → Result Unit) (specializations : Specializations)
    (subwords : Interner Input) : Expr → Result (Interner Input × Pattern Input)
  | .literal text description level span =>
    .ok (subwords, .symbol (.literal text description level span))
  | .reference name level span =>
    .ok (subwords, .symbol (.reference name (specializations.get? name) level span))
  | .command text patterns level span =>
    .ok (subwords, .symbol (.command text patterns level span))
  | .sequence items => do
    if items.isEmpty then giveUp .emptySequence
    let (subwords, items) ← Expr.toPatterns check specializations subwords items
    return (subwords, .sequence items)
  | .alternative branches => do
    let (subwords, branches) ← Expr.toPatterns check specializations subwords branches
    return (subwords, .alternative branches)
  | .fallback branches => do
    let (subwords, branches) ← Expr.toPatterns check specializations subwords branches
    return (subwords, .fallback branches)
  | .optional item => do
    let (subwords, item) ← item.toPattern check specializations subwords
    return (subwords, .optional item)
  | .repeated item => do
    let (subwords, item) ← item.toPattern check specializations subwords
    return (subwords, .repeated item)
  | .described .. => giveUp .strayDescription
  | .subword body level span => do
    let (subwords, body) ← body.toPattern check specializations subwords
    check body.positions
    let (subwords, id) := subwords.intern (← body.minimalAutomaton)
    return (subwords, .symbol (.subword id level span))

/-- The patterns of a list of expressions. -/
def Expr.toPatterns (check : Positions Input → Result Unit) (specializations : Specializations)
    (subwords : Interner Input) : List Expr → Result (Interner Input × List (Pattern Input))
  | [] => .ok (subwords, [])
  | e :: es => do
    let (subwords, p) ← e.toPattern check specializations subwords
    let (subwords, ps) ← Expr.toPatterns check specializations subwords es
    return (subwords, p :: ps)

end

mutual

/-- Flatten the bodies of the subwords, so that no subword has another one inside. -/
def Expr.flattenSubwords : Expr → Expr
  | .literal text description level span => .literal text description level span
  | .reference name level span => .reference name level span
  | .command text patterns level span => .command text patterns level span
  | .sequence items => .sequence (Expr.flattenSubwordsAll items)
  | .alternative branches => .alternative (Expr.flattenSubwordsAll branches)
  | .fallback branches => .fallback (Expr.flattenSubwordsAll branches)
  | .optional item => .optional item.flattenSubwords
  | .repeated item => .repeated item.flattenSubwords
  | .described item description => .described item.flattenSubwords description
  | .subword body level span => .subword body.flatten level span

/-- Flatten the bodies of the subwords in a list of expressions. -/
def Expr.flattenSubwordsAll : List Expr → List Expr
  | [] => []
  | e :: es => e.flattenSubwords :: Expr.flattenSubwordsAll es

end

/-- What the positions of a subword of a grammar have to fulfil for a shell. -/
def Positions.checkSubwordFor (shell : Shell) (p : Positions Input) : Result Unit := do
  p.checkSubword shell
  p.checkVariants

end ShellCompletion
