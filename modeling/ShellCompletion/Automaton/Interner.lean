import ShellCompletion.Automaton.Basic

/-!
# Numbered automata

Automata are numbered from zero in the order in which they are first met. They are looked up by their
hash: an earlier automaton is found if it is the same and if the hash function is given the same values of
both. What it is given follows the order of rows, transitions and symbols.
-/

namespace ShellCompletion

/-- A value that a hash function is given. -/
inductive Fed (α : Type) where
  /-- The number of a state. -/
  | number (n : Nat)
  /-- A symbol, as a whole. -/
  | symbol (a : α)
deriving DecidableEq

namespace Automaton

variable {α : Type}

/-- What a hash function is given of the transitions in a row. -/
def fedEntries (entries : List (α × Nat)) : List (Fed α) :=
  entries.flatMap fun e => [.symbol e.1, .number e.2]

/-- What a hash function is given of rows. -/
def fedRows (rows : List (Nat × OrderedMap α Nat)) : List (Fed α) :=
  rows.flatMap fun r => .number r.1 :: fedEntries r.2.entries

/-- What a hash function is given of an automaton: the start, the rows, the accepting states in ascending
order and the symbols, all without their lengths. -/
def fed (a : Automaton α) : List (Fed α) :=
  .number a.start :: (fedRows a.rows.entries ++
    (a.accepting.toList.map .number ++ a.symbols.toList.map .symbol))

end Automaton

/-- The automata met so far, each at the place of its number. -/
structure Interner (α : Type) where
  /-- The automata. -/
  automata : Array (Automaton α) := #[]

namespace Interner

variable {α : Type}

/-- The automaton with the given number. -/
def get? (interner : Interner α) (id : Nat) : Option (Automaton α) := interner.automata[id]?

variable [DecidableEq α]

/-- The number of an automaton. Different values are taken to have different hashes, so an earlier
automaton that is the same is found only if it gives the hash function the same values. -/
def intern (interner : Interner α) (a : Automaton α) : Interner α × Nat :=
  match interner.automata.findIdx? fun b => b.same a && decide (b.fed = a.fed) with
  | some id => (interner, id)
  | none => (⟨interner.automata.push a⟩, interner.automata.size)

end Interner

end ShellCompletion
