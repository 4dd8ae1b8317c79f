import ShellCompletion.Source.Span

/-!
# Reading positions

A cursor is the unread part of a source text together with the place at which it starts. Scanners of
single items work on the unread characters alone; the cursor follows them by the number of characters
they took.
-/

namespace ShellCompletion

/-- A reading position in a source text. -/
structure Cursor where
  /-- The characters not read yet. -/
  rest : List Char
  /-- The line of the first unread character. -/
  line : Nat := 0
  /-- The column of the first unread character, in bytes from the last line feed. -/
  column : Nat := 0
deriving DecidableEq, Repr

namespace Cursor

/-- Move past a given number of characters, or to the end of the text. -/
def advance : Nat → Cursor → Cursor
  | 0, cursor => cursor
  | count + 1, cursor =>
    match cursor.rest with
    | [] => cursor
    | c :: cs =>
      if c = '\n' then advance count ⟨cs, cursor.line + 1, 0⟩
      else advance count ⟨cs, cursor.line, cursor.column + c.utf8Size⟩

/-- The place of what lies between two cursors. -/
def spanTo (start stop : Cursor) : Span := ⟨start.line, start.column, stop.column⟩

/-- Moving reads exactly the given number of characters. -/
theorem rest_advance (count : Nat) (cursor : Cursor) :
    (advance count cursor).rest = cursor.rest.drop count := by
  induction count generalizing cursor with
  | zero => simp [advance]
  | succ count ih =>
    unfold advance
    split
    · next h => simp [h]
    · next c cs h => split <;> simp [ih, h]

end Cursor

/-- A parser reads an item at a cursor and gives it with the cursor after it, or refuses. -/
abbrev Parser (α : Type) := Cursor → Option (α × Cursor)

namespace Parser

variable {α : Type}

/-- Read an item with a scanner, which tells how many characters it took. -/
def ofScan (scan : List Char → Option (α × Nat)) : Parser α := fun cursor => do
  let (item, count) ← scan cursor.rest
  return (item, cursor.advance count)

/-- Read the given characters. -/
def exactly (text : String) : Parser Unit := fun cursor =>
  if text.toList.isPrefixOf cursor.rest then some ((), cursor.advance text.length) else none

/-- Read items for as long as there are any, at most the given number. -/
def atMost (item : Parser α) : Nat → Cursor → List α × Cursor
  | 0, cursor => ([], cursor)
  | count + 1, cursor =>
    match item cursor with
    | none => ([], cursor)
    | some (first, next) =>
      let (others, last) := atMost item count next
      (first :: others, last)

/-- Read items for as long as there are any. A parser that always takes a character succeeds no
more often than there are characters. -/
def many (item : Parser α) (cursor : Cursor) : List α × Cursor :=
  atMost item cursor.rest.length cursor

/-- Read an item if there is one. -/
def maybe (item : Parser α) (cursor : Cursor) : Option α × Cursor :=
  match item cursor with
  | some (found, next) => (some found, next)
  | none => (none, cursor)

end Parser

end ShellCompletion
