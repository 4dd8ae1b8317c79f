import ShellCompletion.Data.OrderedMap
import ShellCompletion.Failure

/-!
# Dependencies between definitions

A graph has an edge from a name to each name that its definition mentions. Definitions are resolved in
an order in which every one comes after those it depends on. The order is found depth first from the
names that no other depends on; meeting a name again on the path that leads to it is a circle.
-/

namespace ShellCompletion

/-- For each name the names it depends on. -/
abbrev Dependencies := OrderedMap String (List String)

namespace Dependencies

/-- The names that no name depends on. Every dependency has to be a name of the graph. -/
def roots (graph : Dependencies) : Result (List String) :=
  let depended := (graph.entries.map Prod.snd).flatten
  if depended.all graph.contains then .ok (graph.keys.filter (· ∉ depended))
  else giveUp .unknownDependency

/-- The names met and the names finished so far, each in order. -/
structure Progress where
  /-- The names met. -/
  visited : List String := []
  /-- The names whose dependencies are all finished. -/
  finished : List String := []

/-- Visit what a name depends on, depth first. The path holds the names between the root and this
one. The names on a path differ, so the fuel is enough if it is above the number of names. -/
def visit (graph : Dependencies) : Nat → String → List String → Progress → Result Progress
  | 0, _, _, progress => .ok progress
  | fuel + 1, name, path, progress =>
    ((graph.get? name).getD []).foldlM (fun progress dependency =>
      if dependency ∈ path then reject .definitionCycle
      else if dependency ∈ progress.visited then .ok progress
      else do
        let progress ← visit graph fuel dependency (path ++ [dependency]) progress
        return { progress with finished := progress.finished ++ [dependency] })
      { progress with visited := progress.visited ++ [name] }

/-- The names that depend on others, each after those it depends on. -/
def resolutionOrder (graph : Dependencies) : Result (List String) := do
  if graph.entries.isEmpty then return []
  let roots ← graph.roots
  if roots.isEmpty then reject .definitionCycle
  let progress ← roots.foldlM (fun progress root => do
    let progress ← visit graph (graph.size + 1) root [] progress
    return { progress with finished := progress.finished ++ [root] }) ({} : Progress)
  return progress.finished.filter fun name => !((graph.get? name).getD []).isEmpty

end Dependencies

end ShellCompletion
