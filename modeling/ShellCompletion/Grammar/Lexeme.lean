import ShellCompletion.Source.Cursor
import ShellCompletion.Text.Whitespace

/-!
# Lexemes of a grammar

Scanners for the smallest items of a grammar text: blanks with comments, literal texts, quoted
texts, names in angle brackets and commands in triple braces. Each looks at the unread characters and
tells how many of them it takes. How lexemes combine is left to the parser.
-/

namespace ShellCompletion.Lexeme

/-- The characters that separate items: space, tab, line feed and carriage return. -/
def isSpace (c : Char) : Bool := c = ' ' || c = '\t' || c = '\n' || c = '\r'

/-- The number of blank characters at the front. Besides white space and form feeds, everything from
a number sign to the end of its line is blank. -/
def blankLength (comment : Bool) : List Char → Nat
  | [] => 0
  | c :: cs =>
    if comment then blankLength (c ≠ '\n') cs + 1
    else if isSpace c || c = '\x0c' then blankLength false cs + 1
    else if c = '#' then blankLength true cs + 1
    else 0

/-- The characters with a meaning of their own, which a literal must escape. -/
def isReserved (c : Char) : Bool := "()[]\x7b\x7d<>|;\"".toList.contains c

/-- ASCII punctuation. -/
def isPunctuation (c : Char) : Bool :=
  (0x21 ≤ c.val && c.val ≤ 0x2F) || (0x3A ≤ c.val && c.val ≤ 0x40) ||
    (0x5B ≤ c.val && c.val ≤ 0x60) || (0x7B ≤ c.val && c.val ≤ 0x7E)

/-- The characters that a literal holds as they are: ASCII letters, digits and punctuation without
the backslash and the reserved characters. -/
def isPlain (c : Char) : Bool :=
  c ≠ '\\' && !isReserved c && (c.isAlphanum || isPunctuation c)

/-- The text at the front in which plain characters stand for themselves and a backslash escapes a
reserved one, with its length in the source. A backslash before any other character is refused. -/
def plainRun : List Char → Option (List Char × Nat)
  | [] => some ([], 0)
  | c :: cs =>
    if c = '\\' then
      match cs with
      | [] => none
      | d :: ds =>
        if isReserved d then (plainRun ds).map fun (text, count) => (d :: text, count + 2) else none
    else if isPlain c then (plainRun cs).map fun (text, count) => (c :: text, count + 1)
    else some ([], 0)

/-- A literal text, which is not empty. -/
def literal (cs : List Char) : Option (String × Nat) := do
  let (text, count) ← plainRun cs
  if text.isEmpty then none else some (String.ofList text, count)

/-- What stands between quotes, with its length in the source. A backslash escapes a quote and
another backslash, and before white space it makes all of that white space vanish. The text ends at a
quote, at a backslash that does neither and at the end of the source. -/
def quotedRun (vanishing : Bool) : List Char → List Char × Nat
  | [] => ([], 0)
  | c :: cs =>
    if vanishing && isSpace c then
      let (text, count) := quotedRun true cs
      (text, count + 1)
    else if c = '"' then ([], 0)
    else if c = '\\' then
      match cs with
      | [] => ([], 0)
      | d :: ds =>
        if d = '\\' || d = '"' then
          let (text, count) := quotedRun false ds
          (d :: text, count + 2)
        else if isSpace d then
          let (text, count) := quotedRun true ds
          (text, count + 2)
        else ([], 0)
    else
      let (text, count) := quotedRun false cs
      (c :: text, count + 1)

/-- A text in quotes. -/
def quoted : List Char → Option (String × Nat)
  | '"' :: cs =>
    let (text, count) := quotedRun false cs
    if (cs.drop count).head? = some '"' then some (String.ofList text, count + 2) else none
  | _ => none

/-- A name in angle brackets, which is not empty. -/
def name : List Char → Option (String × Nat)
  | '<' :: cs =>
    let text := cs.takeWhile (· ≠ '>')
    if text.isEmpty || (cs.drop text.length).isEmpty then none
    else some (String.ofList text, text.length + 2)
  | _ => none

/-- A name in angle brackets with the shell it is defined for, after an at sign. Neither is empty. -/
def nameForShell : List Char → Option ((String × String) × Nat)
  | '<' :: cs =>
    let text := cs.takeWhile fun c => c ≠ '>' && c ≠ '@'
    match cs.drop text.length with
    | '@' :: ds =>
      let shell := ds.takeWhile (· ≠ '>')
      if text.isEmpty || shell.isEmpty || (ds.drop shell.length).isEmpty then none
      else some ((String.ofList text, String.ofList shell), text.length + shell.length + 3)
    | _ => none
  | _ => none

/-- What stands before the next three closing braces. -/
def beforeClosing : List Char → Option (List Char)
  | [] => none
  | c :: cs =>
    if "\x7d\x7d\x7d".toList.isPrefixOf (c :: cs) then some []
    else (beforeClosing cs).map (c :: ·)

/-- A command in triple braces, without the white space around it. -/
def command (cs : List Char) : Option (String × Nat) :=
  if "\x7b\x7b\x7b".toList.isPrefixOf cs then
    (beforeClosing (cs.drop 3)).map fun text =>
      (String.ofList (Text.trim text), text.length + 6)
  else none

end ShellCompletion.Lexeme
