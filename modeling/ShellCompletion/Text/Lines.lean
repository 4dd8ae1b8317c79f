/-!
# Lines and bytes of a text

A line feed ends a line, and a carriage return right in front of it belongs to the end of the line. All
other carriage returns are characters of their lines. A line feed at the very end of a text starts no
further line. Columns and indentations are counted in bytes.
-/

namespace ShellCompletion.Text

/-- What becomes of a carriage return with which a text ends. There is no line feed behind it, so it is a
character of the last line, but readers of lines have also been known to drop it. -/
inductive LastReturn where
  /-- It is a character of the last line. -/
  | kept
  /-- It is dropped as if a line feed stood behind it. -/
  | dropped
deriving DecidableEq, Repr

/-- The lines of a text. -/
def lines (last : LastReturn) : List Char → List (List Char)
  | [] => []
  | '\n' :: cs => [] :: lines last cs
  | '\r' :: '\n' :: cs => [] :: lines last cs
  | ['\r'] =>
    match last with
    | .kept => [['\r']]
    | .dropped => [[]]
  | c :: cs =>
    match lines last cs with
    | [] => [[c]]
    | line :: later => (c :: line) :: later

/-- The number of bytes of some characters. -/
def bytes : List Char → Nat
  | [] => 0
  | c :: cs => c.utf8Size + bytes cs

/-- The bytes of two texts are counted one after the other. -/
theorem bytes_append (cs ds : List Char) : bytes (cs ++ ds) = bytes cs + bytes ds := by
  induction cs with
  | nil => simp [bytes]
  | cons c cs ih => rw [List.cons_append, bytes, bytes, ih, Nat.add_assoc]

end ShellCompletion.Text
