import ShellCompletion.Data.NatSet
import ShellCompletion.Pattern.Basic

/-!
# First and following positions

Which positions of a pattern can come first in a word, which last, and which directly after which.
The last question is answered by the joints of the pattern, the places where one part ends and another
begins. An end position is added behind the pattern, so that a word is matched when the end can follow.
-/

namespace ShellCompletion.Pattern

variable {α : Type}

mutual

/-- Whether the empty word matches. -/
def nullable : Pattern α → Bool
  | .symbol _ => false
  | .sequence items => nullableAll items
  | .alternative branches => nullableAny branches
  | .fallback branches => nullableAny branches
  | .optional _ => true
  | .repeated item => item.nullable

/-- Whether the empty word matches each pattern of a list. -/
def nullableAll : List (Pattern α) → Bool
  | [] => true
  | p :: ps => p.nullable && nullableAll ps

/-- Whether the empty word matches some pattern of a list. -/
def nullableAny : List (Pattern α) → Bool
  | [] => false
  | p :: ps => p.nullable || nullableAny ps

end

mutual

/-- The positions that can come first. -/
def first : Pattern Nat → NatSet
  | .symbol n => .singleton n
  | .sequence items => firstOfSequence items
  | .alternative branches => firstOfChoice branches
  | .fallback branches => firstOfChoice branches
  | .optional item => item.first
  | .repeated item => item.first

/-- The positions that can come first in a sequence. -/
def firstOfSequence : List (Pattern Nat) → NatSet
  | [] => .empty
  | p :: ps => if p.nullable then p.first.union (firstOfSequence ps) else p.first

/-- The positions that can come first in some branch. -/
def firstOfChoice : List (Pattern Nat) → NatSet
  | [] => .empty
  | p :: ps => p.first.union (firstOfChoice ps)

end

mutual

/-- The positions that can come last. -/
def last : Pattern Nat → NatSet
  | .symbol n => .singleton n
  | .sequence items => lastOfSequence items
  | .alternative branches => lastOfChoice branches
  | .fallback branches => lastOfChoice branches
  | .optional item => item.last
  | .repeated item => item.last

/-- The positions that can come last in a sequence. -/
def lastOfSequence : List (Pattern Nat) → NatSet
  | [] => .empty
  | p :: ps => if nullableAll ps then p.last.union (lastOfSequence ps) else lastOfSequence ps

/-- The positions that can come last in some branch. -/
def lastOfChoice : List (Pattern Nat) → NatSet
  | [] => .empty
  | p :: ps => p.last.union (lastOfChoice ps)

end

mutual

/-- The joints of a pattern. Each pair joins the positions that can end a part with those that can
begin the next one. -/
def joints : Pattern Nat → List (NatSet × NatSet)
  | .symbol _ => []
  | .sequence items => jointsOfSequence items
  | .alternative branches => jointsOfChoice branches
  | .fallback branches => jointsOfChoice branches
  | .optional item => item.joints
  | .repeated item => (item.last, item.first) :: item.joints

/-- The joints of a sequence: those of its items, and those between an item and the ones behind. -/
def jointsOfSequence : List (Pattern Nat) → List (NatSet × NatSet)
  | [] => []
  | p :: ps => (p.last, firstOfSequence ps) :: (p.joints ++ jointsOfSequence ps)

/-- The joints of the branches. -/
def jointsOfChoice : List (Pattern Nat) → List (NatSet × NatSet)
  | [] => []
  | p :: ps => p.joints ++ jointsOfChoice ps

end

/-- The positions that joints allow directly after the given one. -/
def followers (joints : List (NatSet × NatSet)) (n : Nat) : NatSet :=
  joints.foldr (fun joint later => if n ∈ joint.1 then joint.2.union later else later) .empty

/-- A position follows another one if some joint has the two on its sides. -/
theorem mem_followers (joints : List (NatSet × NatSet)) (n m : Nat) :
    m ∈ followers joints n ↔ ∃ joint ∈ joints, n ∈ joint.1 ∧ m ∈ joint.2 := by
  induction joints with
  | nil => simp [followers]
  | cons joint joints ih =>
    by_cases h : n ∈ joint.1
    · simp only [followers, List.foldr_cons, h, if_true, NatSet.mem_union, List.mem_cons,
        exists_eq_or_imp, true_and]
      exact or_congr_right ih
    · simp only [followers, List.foldr_cons, h, if_false, List.mem_cons, exists_eq_or_imp,
        false_and, false_or]
      exact ih

end ShellCompletion.Pattern

namespace ShellCompletion

/-- The positions of a pattern with the end position behind them. -/
structure Positions (α : Type) where
  /-- The symbol at each position but the end. -/
  symbols : Array α
  /-- The positions that can come first. -/
  first : NatSet
  /-- The positions that can come directly after each position. -/
  follows : Array NatSet

namespace Positions

variable {α : Type}

/-- The end position. -/
def stop (p : Positions α) : Nat := p.symbols.size

/-- The positions that can come directly after the given one. -/
def follow (p : Positions α) (n : Nat) : NatSet := p.follows.getD n .empty

end Positions

/-- The positions of a pattern. -/
def Pattern.positions {α : Type} (p : Pattern α) : Positions α :=
  let marked := p.numbered 0
  let stop := NatSet.singleton p.size
  let joints := (marked.last, stop) :: marked.joints
  { symbols := p.symbols.toArray
    first := if p.nullable then marked.first.union stop else marked.first
    follows := Array.ofFn fun n : Fin p.size => Pattern.followers joints n }

end ShellCompletion
