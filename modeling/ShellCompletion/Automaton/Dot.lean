import ShellCompletion.Matcher

/-!
# Automata as graph descriptions

A matcher written in the DOT language: one node per state, one edge per transition, and a cluster per
subword that is entered from and left to the states around it.
-/

namespace ShellCompletion.Dot

/-- What stands at the edge of an input. -/
def label : Input → String
  | .literal text _ _ _ => text
  | .subword id _ _ => s!"{id}"
  | .reference name _ _ _ => s!"<{name}>"
  | .command text _ _ _ => s!"\x7b\x7b\x7b {text} \x7d\x7d\x7d"

/-- Put a backslash before each quote. -/
def escapeQuotes (text : String) : String :=
  String.ofList (text.toList.flatMap fun c => if c = '"' then ['\\', '"'] else [c])

/-- The line that declares a state. -/
def stateLine (indent tag : String) (state : Nat) : String :=
  s!"{indent}_{tag}{state}[label=\"{tag}{state}\"];"

/-- The declarations of the states: the start, those that do not accept, and those that do. -/
def stateLines (indent tag : String) (a : Automaton Input) : List String :=
  let shape := if a.accepting.contains a.start then "doubleoctagon" else "octagon"
  let regular := (a.states.diff a.accepting).diff (.singleton a.start)
  [s!"{indent}node [shape = {shape}];", stateLine indent tag a.start,
      s!"{indent}node [shape = circle];"] ++
    regular.toList.map (stateLine indent tag) ++
    ["", s!"{indent}node [shape = doublecircle];"] ++
    a.accepting.toList.map (stateLine indent tag) ++ [""]

/-- The edges of a transition. A subword is passed from its start to each of its accepting states. -/
def edgeLines (indent tag : String) (numbers : List (Nat × Nat))
    (subword : Nat → Result (Automaton Input)) (t : Transition Input) : Result (List String) :=
  match t.symbol with
  | .subword id _ _ => do
    let inner ← subword id
    let number ← require .missingEntry (numbers.lookup id)
    return s!"{indent}_{tag}{t.source} -> _{number}_{inner.start} [style=\"dashed\"];" ::
      inner.accepting.toList.map fun state =>
        s!"{indent}_{number}_{state} -> _{tag}{t.target} [style=\"dashed\"];"
  | input => .ok
    [s!"{indent}_{tag}{t.source} -> _{tag}{t.target} [label=\"{escapeQuotes (label input)}\"];"]

/-- The lines of an automaton, with its clusters between its states and its edges. -/
def automatonLines (indent tag : String) (a : Automaton Input) (numbers : List (Nat × Nat))
    (subword : Nat → Result (Automaton Input)) (clusters : List String) : Result (List String) := do
  let edges ← a.transitions.mapM (edgeLines indent tag numbers subword)
  return stateLines indent tag a ++ clusters ++ edges.flatten

/-- The lines of the cluster of a subword. A subword has no subwords inside. -/
def clusterLines (m : Matcher) (number : Nat × Nat) : Result (List String) := do
  let a ← m.subword number.1
  let inner ← automatonLines "\t\t" s!"{number.2}_" a [] (fun _ => giveUp .unknownSubword) []
  return [s!"\tsubgraph cluster_{number.2} \x7b", s!"\t\tlabel=\"subword {number.2}\";",
    "\t\tcolor=grey91;", "\t\tstyle=filled;"] ++ inner ++ ["\t\x7d"]

end ShellCompletion.Dot

namespace ShellCompletion

/-- The graph description of a matcher. -/
def Matcher.dot (m : Matcher) : Result String := do
  let numbers := m.main.numberedSubwords 0
  let clusters ← numbers.mapM (Dot.clusterLines m)
  let body ← Dot.automatonLines "\t" "" m.main numbers m.subword clusters.flatten
  let lines := ["digraph nfa \x7b", "\trankdir=LR;"] ++ body ++ ["\x7d"]
  return String.join (lines.map (· ++ "\n"))

end ShellCompletion
