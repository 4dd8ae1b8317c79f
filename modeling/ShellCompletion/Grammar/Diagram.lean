import ShellCompletion.Grammar.Expr

/-!
# Railroad diagrams

The tree of boxes and tracks that pictures a grammar: one row per statement. Drawing the tree is left
to the reader of the tree.
-/

namespace ShellCompletion

/-- A part of a railroad diagram. -/
inductive Diagram where
  /-- The left end of a track. -/
  | start
  /-- The right end of a track. -/
  | stop
  /-- The left end of a track inside a diagram. -/
  | simpleStart
  /-- The right end of a track inside a diagram. -/
  | simpleStop
  /-- A track without boxes. -/
  | empty
  /-- A box for a literal text. -/
  | terminal (text : String)
  /-- A box for a name. -/
  | nonterminal (text : String)
  /-- A text beside the track. -/
  | comment (text : String)
  /-- Parts one after the other. -/
  | sequence (parts : List Diagram)
  /-- Parts of which one is taken. -/
  | choice (parts : List Diagram)
  /-- Rows one below the other. -/
  | grid (rows : List Diagram)
  /-- A part that can be passed by. -/
  | optional (part : Diagram)
  /-- A part with a way back, and what stands on that way. -/
  | loop (part back : Diagram)
  /-- A part in a frame with a label. -/
  | labeled (part label : Diagram)

mutual

/-- The diagram of an expression. -/
def Expr.diagram : Expr → Diagram
  | .literal text _ _ _ => .terminal text
  | .reference name _ _ => .nonterminal name
  | .command text _ _ _ => .comment text
  | .sequence items => .sequence (Expr.diagrams items)
  | .alternative branches => .choice (Expr.diagrams branches)
  | .fallback branches => .choice (Expr.diagrams branches)
  | .optional item => .optional item.diagram
  | .repeated item => .loop item.diagram .empty
  | .described item description => .labeled item.diagram (.comment description)
  | .subword body _ _ => .sequence [.simpleStart, body.diagram, .simpleStop]

/-- The diagrams of a list of expressions. -/
def Expr.diagrams : List Expr → List Diagram
  | [] => []
  | e :: es => e.diagram :: Expr.diagrams es

end

/-- The row of a statement. -/
def Statement.diagram : Statement → Diagram
  | .call head body => .sequence [.start, .terminal head, body.diagram, .stop]
  | .definition name none body => .labeled body.diagram (.comment name)
  | .definition name (some shell) body => .labeled body.diagram (.comment s!"{name}@{shell}")

/-- The diagram of a grammar. -/
def Grammar.diagram (grammar : Grammar) : Diagram :=
  .grid (grammar.statements.map Statement.diagram)

end ShellCompletion
