import ShellCompletion.Automaton.Basic
import ShellCompletion.Failure
import ShellCompletion.Pattern.Positions

/-!
# From positions to an automaton

A state stands for a set of positions, any of which may come next. The sets that can be reached are
found first in, first out from the set of first positions, and are numbered from one in that order.
State numbers have sixteen bits, of which zero is the dead state and one number stays free.
-/

namespace ShellCompletion.Positions

variable {α : Type} [DecidableEq α]

/-- The greatest number of states. -/
def stateLimit : Nat := 65534

/-- The positions that may come after a symbol is read at one of the given positions. -/
def after (p : Positions α) (here : List Nat) (a : α) : NatSet :=
  here.foldl (fun result n =>
    if p.symbols[n]? = some a then result.union (p.follow n) else result) .empty

/-- The symbols that can be read at a set of positions, each with the positions after it. -/
def moves (p : Positions α) (symbols : List α) (set : NatSet) : List (α × NatSet) :=
  let here := set.toList
  symbols.filterMap fun a =>
    let next := p.after here a
    if next.isEmpty then none else some (a, next)

/-- All values that can be reached from pending ones, first in, first out. Gives nothing if more than
the given number of values are left to be expanded. A set of pending values has no order of its own: that
they are taken up in the order in which they are met is a convention, on which the numbers of states
depend, but not the values that are found. -/
def reachable {β : Type} [DecidableEq β] (next : β → List β) :
    Nat → List β → List β → Option (List β)
  | _, found, [] => some found
  | 0, _, _ :: _ => none
  | limit + 1, found, b :: pending =>
    let waiting := (next b).foldl
      (fun waiting c => if c ∈ found ∨ c = b ∨ c ∈ waiting then waiting else waiting ++ [c]) pending
    reachable next limit (found ++ [b]) waiting

/-- The number of a set among those found. -/
def stateOf (sets : List NatSet) (set : NatSet) : Nat := sets.idxOf set + 1

/-- The automaton that reads the words of the positions. -/
def automaton (p : Positions α) : Result (Automaton α) := do
  let symbols := OrderedSet.ofList p.symbols.toList
  let sets ← require .tooManyStates <|
    reachable (fun set => (p.moves symbols.toList set).map Prod.snd) stateLimit [] [p.first]
  let rows := sets.map fun set =>
    (stateOf sets set,
      OrderedMap.ofList ((p.moves symbols.toList set).map fun m => (m.1, stateOf sets m.2)))
  return {
    start := stateOf sets p.first
    rows := .ofList rows
    accepting := .ofList ((sets.filter (·.contains p.stop)).map (stateOf sets))
    symbols := symbols }

end ShellCompletion.Positions
