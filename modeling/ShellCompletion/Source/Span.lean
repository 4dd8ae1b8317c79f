/-!
# Places in a source text

A span says where an item of a grammar stands: the line of its start, and the columns of its start
and of its end. Lines and columns count from zero, and columns count bytes.
-/

namespace ShellCompletion

/-- The place of an item in a source text. -/
structure Span where
  /-- The line on which the item starts. -/
  line : Nat
  /-- The column at which the item starts. -/
  start : Nat
  /-- The column just after the item, on the line where it ends. -/
  stop : Nat
deriving DecidableEq, Repr

end ShellCompletion
