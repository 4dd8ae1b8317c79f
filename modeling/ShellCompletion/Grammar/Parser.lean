import ShellCompletion.Grammar.Expr
import ShellCompletion.Grammar.Lexeme
import ShellCompletion.Text.Lines

/-!
# Reading a grammar

An expression is read by recursive descent: units, juxtaposed units, sequences, alternatives and
fallbacks, each in terms of the one before. What stands in brackets is read by the parser given for
one level of nesting less, so that the depth of nesting bounds the recursion. A text that is not read
to its end is refused with the place where reading stopped.
-/

namespace ShellCompletion.Parser

/-- Move past blanks, if there are any. -/
def skipBlanks (cursor : Cursor) : Cursor :=
  cursor.advance (Lexeme.blankLength false cursor.rest)

/-- Move past blanks, of which there must be some. -/
def blanks : Parser Unit := fun cursor =>
  let count := Lexeme.blankLength false cursor.rest
  if count = 0 then none else some ((), cursor.advance count)

/-- A text in quotes, after blanks. -/
def description : Parser String := fun cursor =>
  ofScan Lexeme.quoted (skipBlanks cursor)

/-- A literal with the description that may follow it. -/
def literal : Parser Expr := fun cursor => do
  let (text, next) ← ofScan Lexeme.literal cursor
  let (description, last) := maybe description next
  return (.literal text description 0 (some (cursor.spanTo last)), last)

/-- A reference to a nonterminal. -/
def reference : Parser Expr := fun cursor => do
  let (name, last) ← ofScan Lexeme.name cursor
  return (.reference name 0 (some (cursor.spanTo last)), last)

/-- A pattern for the output of a command in one shell. -/
def pattern : Parser (Shell × String) := fun cursor => do
  let ((), cursor) ← exactly "@" cursor
  let (name, cursor) ← ofScan Lexeme.literal cursor
  let shell ← Shell.ofGrammarName? name
  let (text, cursor) ← ofScan Lexeme.quoted cursor
  return ((shell, text), cursor)

/-- A command with the patterns that follow it directly. Of two patterns for one shell the later
one counts. -/
def command : Parser Expr := fun cursor => do
  let (text, next) ← ofScan Lexeme.command cursor
  let (patterns, last) := many pattern next
  let texts := patterns.foldl (fun texts p => texts.set p.1 p.2) ({} : ShellTexts)
  let given := if patterns.isEmpty then none else some texts
  return (.command text given 0 (some (cursor.spanTo next)), last)

/-- What stands between two brackets, with blanks around it. -/
def between (opening closing : String) (body : Parser Expr) : Parser Expr := fun cursor => do
  let ((), cursor) ← exactly opening cursor
  let (e, cursor) ← body (skipBlanks cursor)
  let ((), cursor) ← exactly closing (skipBlanks cursor)
  return (e, cursor)

/-- An expression that may be left out. -/
def optional (body : Parser Expr) : Parser Expr := fun cursor => do
  let (e, cursor) ← between "[" "]" body cursor
  return (.optional e, cursor)

/-- The dots that make the unit before them repeat. -/
def dots : Parser Unit := fun cursor => exactly "..." (skipBlanks cursor)

/-- One unit, repeated if dots follow. -/
def unit (body : Parser Expr) : Parser Expr := fun cursor => do
  let (e, cursor) ← reference cursor <|> optional body cursor <|> between "(" ")" body cursor <|>
    command cursor <|> literal cursor
  match dots cursor with
  | some ((), cursor) => return (.repeated e, cursor)
  | none => return (e, cursor)

/-- Units without blanks between them, which make up a subword if there are several. -/
def juxtaposition (body : Parser Expr) : Parser Expr := fun cursor => do
  let (first, next) ← unit body cursor
  match many (unit body) next with
  | ([], last) => return (first, last)
  | (others, last) =>
    let items := (first :: others).map Expr.flatten
    return (.subword (.sequence items) 0 (some (cursor.spanTo last)), last)

/-- A juxtaposition with the description that may follow it. -/
def item (body : Parser Expr) : Parser Expr := fun cursor => do
  let (e, next) ← juxtaposition body cursor
  match description next with
  | some (text, last) => return (.described e text, last)
  | none => return (e, next)

/-- Several expressions joined by a separator. A single one is left as it is. -/
def joined (separator : Parser Unit) (operand : Parser Expr) (combine : List Expr → Expr) :
    Parser Expr := fun cursor => do
  let (first, next) ← operand cursor
  let further : Parser Expr := fun cursor => do
    let ((), cursor) ← separator cursor
    operand cursor
  match many further next with
  | ([], last) => return (first, last)
  | (others, last) => return (combine (first :: others), last)

/-- An operator, with blanks around it. -/
def operator (text : String) : Parser Unit := fun cursor => do
  let ((), cursor) ← exactly text (skipBlanks cursor)
  return ((), skipBlanks cursor)

/-- Items with blanks between them. -/
def sequence (body : Parser Expr) : Parser Expr :=
  joined blanks (item body) .sequence

/-- Sequences with bars between them. -/
def alternative (body : Parser Expr) : Parser Expr :=
  joined (operator "|") (sequence body) .alternative

/-- Alternatives with double bars between them. -/
def fallback (body : Parser Expr) : Parser Expr :=
  joined (operator "||") (alternative body) .fallback

/-- An expression whose brackets are nested less deeply than the given number. -/
def exprWithin : Nat → Parser Expr
  | 0 => fun _ => none
  | depth + 1 => fallback (exprWithin depth)

/-- An expression. Brackets cannot be nested more deeply than there are characters. -/
def expr : Parser Expr := fun cursor => exprWithin (cursor.rest.length + 1) cursor

/-- The end of a statement, after blanks. -/
def terminator : Parser Unit := fun cursor => exactly ";" (skipBlanks cursor)

/-- A way of calling the command. -/
def call : Parser Statement := fun cursor => do
  let (head, cursor) ← ofScan Lexeme.literal cursor
  let ((), cursor) ← blanks cursor
  let (body, cursor) ← expr cursor
  let ((), cursor) ← terminator cursor
  return (.call head body, cursor)

/-- The name that a definition is for, with its shell if one is given. -/
def definedName : Parser (String × Option String) := fun cursor =>
  (do
    let ((name, shell), cursor) ← ofScan Lexeme.nameForShell cursor
    return ((name, some shell), cursor)) <|>
  (do
    let (name, cursor) ← ofScan Lexeme.name cursor
    return ((name, none), cursor))

/-- A definition of a nonterminal. -/
def definition : Parser Statement := fun cursor => do
  let ((name, shell), cursor) ← definedName cursor
  let ((), cursor) ← operator "::=" cursor
  let (body, cursor) ← expr cursor
  let ((), cursor) ← terminator cursor
  return (.definition name shell body, cursor)

/-- A statement with the blanks after it. -/
def statement : Parser Statement := fun cursor => do
  let (found, cursor) ← call cursor <|> definition cursor
  return (found, skipBlanks cursor)

/-- The leading statements of a text, and the cursor where they end. -/
def statements (cursor : Cursor) : List Statement × Cursor :=
  many statement (skipBlanks cursor)

end ShellCompletion.Parser

namespace ShellCompletion

/-- The place at which a text stops being a grammar. -/
structure SyntaxError where
  /-- The line of the first character that was not read. -/
  line : Nat
  /-- The column of that character. -/
  column : Nat
  /-- The text of that line. -/
  source : String
deriving DecidableEq, Repr

/-- What is reported for a text that is not a grammar. -/
def SyntaxError.message (_ : SyntaxError) : String := "Parsing failed"

/-- Read a grammar. Where it is refused, the line of the place is one of the text: in front of the first
character that is not read there are as many line feeds as the cursor counts. -/
def Grammar.parse (text : String) (last : Text.LastReturn := .kept) : Except SyntaxError Grammar :=
  let (statements, cursor) := Parser.statements ⟨text.toList, 0, 0⟩
  if cursor.rest.isEmpty then .ok ⟨statements⟩
  else
    let source := ((Text.lines last text.toList)[cursor.line]?).getD []
    .error ⟨cursor.line, cursor.column, String.ofList source⟩

end ShellCompletion
