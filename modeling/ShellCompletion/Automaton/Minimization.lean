import ShellCompletion.Automaton.Basic
import ShellCompletion.Automaton.Range
import ShellCompletion.Failure

/-!
# Minimization

States are divided into the dead state, the accepting states and the others, and blocks are split as
long as some pending group is reached by one symbol from a part of a block only. States of one block
are then merged into the least of them, states that are no longer reached or lead nowhere are dropped,
and the rest is numbered from zero in order of appearance.
-/

namespace ShellCompletion.Automaton

variable {α : Type} [DecidableEq α]

/-- All transitions of the states that have rows, those on missing symbols to the dead state
included, in ascending order of their targets. -/
def image (a : Automaton α) : Array (Transition α) :=
  let completed := a.rows.entries.flatMap fun r =>
    r.2.entries.map (fun e => ⟨r.1, e.1, e.2⟩) ++
      (a.symbols.toList.filter (!r.2.contains ·)).map fun symbol => ⟨r.1, symbol, deadState⟩
  (completed.mergeSort fun s t => s.target ≤ t.target).toArray

/-- The transitions of an image whose targets lie between two states. -/
def between (image : Array (Transition α)) (low high : Nat) : Array (Transition α) :=
  match Range.bounds (image.map (·.target)) low high with
  | some (first, behind) => image.extract first behind
  | none => #[]

/-- For each symbol that leads into a group, the states from which it does. -/
def sourcesInto (group : NatSet) (transitions : List (Transition α)) : OrderedMap α NatSet :=
  transitions.foldl (fun sources t =>
    if group.contains t.target then sources.alter t.symbol .empty (·.insert t.source) else sources)
    .empty

/-- Blocks of states, and the groups by which blocks may still have to be split. -/
structure Refinement where
  /-- The blocks. -/
  blocks : OrderedSet NatSet
  /-- The pending groups. -/
  pending : OrderedSet NatSet

namespace Refinement

/-- Split a block in two. Both parts are pending if the block was, and else the smaller part. -/
def split (r : Refinement) (block inside outside : NatSet) : Refinement :=
  { blocks := ((r.blocks.erase block).insert inside).insert outside
    pending :=
      if r.pending.contains block then ((r.pending.erase block).insert inside).insert outside
      else if inside.size ≤ outside.size then r.pending.insert inside
      else r.pending.insert outside }

/-- Split those of the given blocks that hold some of the sources and other states. Splitting the
group itself ends the round. -/
def splitAll (group sources : NatSet) (r : Refinement) : List NatSet → Refinement
  | [] => r
  | block :: blocks =>
    let inside := block.inter sources
    let outside := block.diff inside
    if outside.isEmpty then splitAll group sources r blocks
    else
      let r := r.split block inside outside
      if block = group then r else splitAll group sources r blocks

/-- Split the blocks that some of the sources are in. -/
def splitBySources (group : NatSet) (r : Refinement) (sources : NatSet) : Refinement :=
  splitAll group sources r (r.blocks.toList.filter fun block => !(block.inter sources).isEmpty)

/-- Split blocks by a group, one symbol after the other. -/
def splitByGroup (image : Array (Transition α)) (group : NatSet) (r : Refinement) :
    Result Refinement := do
  let low ← require .emptyGroup group.min?
  let high ← require .emptyGroup group.max?
  let sources := sourcesInto group (between image low high).toList
  return (sources.entries.map Prod.snd).foldl (splitBySources group) r

/-- Take up pending groups one after the other until there are none. Sets of groups have no order of
their own: by convention the group added first is taken up first, and its round goes through the blocks
in the order in which they were added. A round ends when the group itself is split, so the order decides
which blocks are left unsplit, and what is proved about the result is proved for this order. -/
def run (image : Array (Transition α)) : Nat → Refinement → Result Refinement
  | fuel, r =>
    match r.pending.toList with
    | [] => .ok r
    | group :: _ =>
      match fuel with
      | 0 => giveUp .endlessRefinement
      | fuel + 1 => do
        run image fuel (← splitByGroup image group { r with pending := r.pending.erase group })

end Refinement

/-- The least state of the block that a state is in. -/
def representative? (blocks : List NatSet) (state : Nat) : Option Nat :=
  (blocks.reverse.find? (·.contains state)).bind (·.min?)

/-- Drop what can no longer be reached: transitions from states other than the start that have no
transition to them, and accepting states of that kind. -/
def keepReached (start : Nat) (transitions : List (Transition α)) (accepting : NatSet) :
    List (Transition α) × NatSet :=
  let reached := NatSet.ofList (transitions.map (·.target))
  (transitions.filter fun t =>
      t.source == start || (reached.contains t.source && reached.contains t.target),
    .ofList (accepting.toList.filter fun state => state == start || reached.contains state))

/-- Drop transitions to states that neither accept nor lead further. -/
def dropUseless (transitions : List (Transition α)) (accepting : NatSet) : List (Transition α) :=
  let leading := NatSet.ofList (transitions.map (·.source))
  transitions.filter fun t => accepting.contains t.target || leading.contains t.target

/-- The states in order of appearance: the start, then the two ends of each transition. -/
def appearances (start : Nat) (transitions : List (Transition α)) : OrderedSet Nat :=
  .ofList (start :: transitions.flatMap fun t => [t.source, t.target])

/-- Give each state the number of its place among the states in order of appearance. -/
def renumber (start : Nat) (transitions : List (Transition α)) (accepting : NatSet)
    (symbols : OrderedSet α) : Result (Automaton α) := do
  let order := appearances start transitions
  let number (state : Nat) : Result Nat := require .unknownState (order.indexOf? state)
  let start ← number start
  let transitions ← transitions.mapM fun t =>
    return { t with source := ← number t.source, target := ← number t.target }
  let accepting ← accepting.toList.mapM number
  return { start, rows := rowsOf transitions, accepting := .ofList accepting, symbols }

/-- The blocks with which refinement begins: the dead state, the accepting states and the others. Their
order is a convention, as that of all groups in `Refinement.run`. -/
def initialBlocks (a : Automaton α) : List NatSet :=
  [.singleton deadState, a.accepting, (a.states.diff a.accepting).diff (.singleton deadState)]

/-- Merge states that cannot be told apart. An automaton in which only the dead state does not accept
is left as it is. A group is split at most as often as it has states, and each split adds at most two
pending groups. -/
def minimize (a : Automaton α) : Result (Automaton α) := do
  let initial := a.initialBlocks
  let others := (a.states.diff a.accepting).diff (.singleton deadState)
  if others.isEmpty then return a
  let blocks := OrderedSet.ofList initial
  let fuel := 3 + 2 * NatSet.totalSize initial
  let refined ← Refinement.run a.image fuel ⟨blocks, blocks⟩
  let representative (state : Nat) : Result Nat :=
    require .unknownState (representative? refined.blocks.toList state)
  let start ← representative a.start
  let accepting ← a.accepting.toList.mapM representative
  let transitions ← a.transitions.mapM fun t =>
    return { t with target := ← representative t.target }
  let (transitions, accepting) := keepReached start transitions (.ofList accepting)
  renumber start (dropUseless transitions accepting) accepting a.symbols

end ShellCompletion.Automaton
