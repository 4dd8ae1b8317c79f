import ShellCompletion.Data.NatSet
import ShellCompletion.Data.OrderedMap

/-!
# Deterministic automata

States are numbers. Zero stands for the dead state, to which every missing transition leads. Rows and
the transitions in a row keep the order in which they were made. Equal automata agree in that order
too; whether two automata agree as maps and sets, whatever the order, is asked separately.
-/

namespace ShellCompletion

/-- One transition of an automaton. -/
structure Transition (α : Type) where
  /-- The state that is left. -/
  source : Nat
  /-- The symbol that is read. -/
  symbol : α
  /-- The state that is reached. -/
  target : Nat
deriving DecidableEq

/-- A deterministic automaton over the symbols `α`. -/
structure Automaton (α : Type) where
  /-- The state in which reading begins. -/
  start : Nat
  /-- For each state the target of each symbol. -/
  rows : OrderedMap Nat (OrderedMap α Nat)
  /-- The states in which a word may end. -/
  accepting : NatSet
  /-- The symbols of the alphabet. -/
  symbols : OrderedSet α
deriving DecidableEq

namespace Automaton

variable {α : Type}

/-- The dead state. -/
def deadState : Nat := 0

/-- The transitions from a state, in order. -/
def transitionsFrom (a : Automaton α) (state : Nat) : List (Transition α) :=
  match a.rows.get? state with
  | some row => row.entries.map fun e => ⟨state, e.1, e.2⟩
  | none => []

/-- All transitions, row by row. -/
def transitions (a : Automaton α) : List (Transition α) :=
  a.rows.entries.flatMap fun r => r.2.entries.map fun e => ⟨r.1, e.1, e.2⟩

/-- The states that occur in transitions, and the dead state. -/
def states (a : Automaton α) : NatSet :=
  a.transitions.foldl (fun states t => (states.insert t.source).insert t.target)
    (.singleton deadState)

variable [DecidableEq α]

/-- The state reached from a state by one symbol. -/
def next? (a : Automaton α) (state : Nat) (symbol : α) : Option Nat :=
  (a.rows.get? state).bind (·.get? symbol)

/-- The state reached from a state by a word. -/
def run? (a : Automaton α) (state : Nat) : List α → Option Nat
  | [] => some state
  | symbol :: word => (a.next? state symbol).bind (a.run? · word)

/-- Whether a word leads from the start to an accepting state. -/
def accepts (a : Automaton α) (word : List α) : Bool :=
  match a.run? a.start word with
  | some state => a.accepting.contains state
  | none => false

/-- Gather transitions into rows. A later transition on the same symbol takes the place of an
earlier one. -/
def rowsOf (transitions : List (Transition α)) : OrderedMap Nat (OrderedMap α Nat) :=
  transitions.foldl (fun rows t => rows.alter t.source .empty (·.insert t.symbol t.target)) .empty

/-- The automaton with the given transitions. Its alphabet begins with the given symbols. -/
def ofTransitions (start : Nat) (transitions : List (Transition α)) (accepting : List Nat)
    (symbols : List α) : Automaton α :=
  { start
    rows := rowsOf transitions
    accepting := .ofList accepting
    symbols := .ofList (symbols ++ transitions.map (·.symbol)) }

/-- Whether two automata agree in start, transitions, accepting states and symbols. -/
def same (a b : Automaton α) : Bool :=
  a.start == b.start && a.rows.sameBy (OrderedMap.sameBy (· == ·)) b.rows &&
    a.accepting == b.accepting && a.symbols.same b.symbols

end Automaton

end ShellCompletion
