/-!
# Patterns

A pattern describes words over any kind of symbol by sequences, choices, optional and repeated parts.
Fallbacks choose like alternatives and are told apart only in listings. The occurrences of symbols in
a pattern are its positions, numbered from left to right.
-/

namespace ShellCompletion

/-- A description of words over the symbols `α`. -/
inductive Pattern (α : Type) where
  /-- The word of one symbol. -/
  | symbol (a : α)
  /-- Words of the items, one after the other. -/
  | sequence (items : List (Pattern α))
  /-- A word of one of the branches. -/
  | alternative (branches : List (Pattern α))
  /-- A word of one of the branches, which are ranked. -/
  | fallback (branches : List (Pattern α))
  /-- A word of the item, or the empty word. -/
  | optional (item : Pattern α)
  /-- One or more words of the item. -/
  | repeated (item : Pattern α)

namespace Pattern

variable {α : Type}

mutual

/-- The symbols at the positions of a pattern. -/
def symbols : Pattern α → List α
  | .symbol a => [a]
  | .sequence items => symbolsAll items
  | .alternative branches => symbolsAll branches
  | .fallback branches => symbolsAll branches
  | .optional item => item.symbols
  | .repeated item => item.symbols

/-- The symbols at the positions of a list of patterns. -/
def symbolsAll : List (Pattern α) → List α
  | [] => []
  | p :: ps => p.symbols ++ symbolsAll ps

end

mutual

/-- The number of positions. -/
def size : Pattern α → Nat
  | .symbol _ => 1
  | .sequence items => sizeAll items
  | .alternative branches => sizeAll branches
  | .fallback branches => sizeAll branches
  | .optional item => item.size
  | .repeated item => item.size

/-- The number of positions of a list of patterns. -/
def sizeAll : List (Pattern α) → Nat
  | [] => 0
  | p :: ps => p.size + sizeAll ps

end

mutual

/-- The pattern in which each symbol is replaced by its position, counted from the given number. -/
def numbered (start : Nat) : Pattern α → Pattern Nat
  | .symbol _ => .symbol start
  | .sequence items => .sequence (numberedAll start items)
  | .alternative branches => .alternative (numberedAll start branches)
  | .fallback branches => .fallback (numberedAll start branches)
  | .optional item => .optional (item.numbered start)
  | .repeated item => .repeated (item.numbered start)

/-- Number the positions of a list of patterns. -/
def numberedAll (start : Nat) : List (Pattern α) → List (Pattern Nat)
  | [] => []
  | p :: ps => p.numbered start :: numberedAll (start + p.size) ps

end

mutual

/-- There are as many positions as symbols at them. -/
theorem length_symbols : (p : Pattern α) → p.symbols.length = p.size
  | .symbol _ => rfl
  | .sequence items => length_symbolsAll items
  | .alternative branches => length_symbolsAll branches
  | .fallback branches => length_symbolsAll branches
  | .optional item => length_symbols item
  | .repeated item => length_symbols item

/-- There are as many symbols in a list as its patterns have. -/
theorem length_symbolsAll : (ps : List (Pattern α)) → (symbolsAll ps).length = sizeAll ps
  | [] => rfl
  | p :: ps => by
    rw [symbolsAll, sizeAll, List.length_append, length_symbols p, length_symbolsAll ps]

end

end Pattern

end ShellCompletion
