import Mathlib.Data.List.Infix
import Mathlib.Data.Nat.Notation
import Mathlib.Tactic.SplitIfs
import ShellCompletion.Script.Quote

/-!
# Words as a shell reads them

A shell reads a line character by character and keeps track of how the next one is quoted. What it finds
are pieces of words, gaps between words and quotes, which make a word even if there is nothing between
them. Bash and fish read in the same way and differ in the characters to which they give a meaning.
-/

namespace ShellCompletion

/-- How the next character of a line is quoted. -/
inductive Quoting where
  | bare
  | escaped
  | single
  | singleEscaped
  | double
  | doubleEscaped
deriving DecidableEq, Repr

/-- What a part of a line adds to its words. -/
inductive Piece where
  /-- A character of a word. -/
  | char (c : Char)
  /-- An opening quote. -/
  | mark
  /-- A blank between words. -/
  | gap
deriving DecidableEq, Repr

namespace Piece

/-- The characters of words among some pieces. -/
def chars : List Piece → List Char
  | [] => []
  | .char c :: pieces => c :: chars pieces
  | .mark :: pieces => chars pieces
  | .gap :: pieces => chars pieces

/-- The words that pieces make up, if those of a first word may have been found already. -/
def gather (begun : Option (List Char)) : List Piece → List (List Char)
  | [] => begun.toList
  | .char c :: pieces => gather (some (begun.getD [] ++ [c])) pieces
  | .mark :: pieces => gather (some (begun.getD [])) pieces
  | .gap :: pieces => begun.toList ++ gather none pieces

/-- The characters of two parts are those of the first and those of the second. -/
theorem chars_append (pieces others : List Piece) :
    chars (pieces ++ others) = chars pieces ++ chars others := by
  induction pieces with
  | nil => rfl
  | cons piece pieces ih => cases piece <;> simp [chars, ih]

/-- Words are made of the characters that were found. -/
theorem flatten_gather (begun : Option (List Char)) (pieces : List Piece) :
    (gather begun pieces).flatten = begun.getD [] ++ chars pieces := by
  induction pieces generalizing begun with
  | nil => cases begun <;> simp [gather, chars]
  | cons piece pieces ih => cases piece <;> cases begun <;> simp [gather, chars, ih]

/-- Characters without gaps go on with the word that was begun. -/
theorem gather_map_char (word cs : List Char) : gather (some word) (cs.map .char) = [word ++ cs] := by
  induction cs generalizing word with
  | nil => simp [gather]
  | cons c cs ih => simp [gather, ih]

/-- A gap parts the words before it from those behind it. -/
theorem gather_append_gap (begun : Option (List Char)) (pieces others : List Piece) :
    gather begun (pieces ++ .gap :: others) = gather begun pieces ++ gather none others := by
  induction pieces generalizing begun with
  | nil => rfl
  | cons piece pieces ih => cases piece <;> simp [gather, ih]

end Piece

/-- The characters to which a shell gives a meaning. -/
structure WordRules where
  /-- Those that are no part of a word unless they are quoted, besides blanks, quotes and backslashes. -/
  special : List Char
  /-- Those that start an expansion also in double quotes. -/
  expanding : List Char
  /-- Those that a backslash quotes in single quotes. -/
  inSingle : List Char
  /-- Those that a backslash quotes in double quotes. -/
  inDouble : List Char

namespace WordRules

/-- The rules of bash. A dollar sign and a backtick start an expansion wherever nothing quotes them,
outside of quotes as well as in double quotes, and no expansion is a character of a word. In what is
written for bash they stand unquoted only behind a backslash of the text: the text `\$` becomes `\\$`,
a quoted backslash and a dollar sign that nothing quotes. -/
def bash : WordRules where
  special := [';', '&', '|', '(', ')', '<', '>', '$', '\x60']
  expanding := ['$', '\x60']
  inSingle := []
  inDouble := ['$', '\x60', '"', '\\', '\n']

/-- The rules of fish. A dollar sign starts an expansion wherever nothing quotes it, and outside of quotes
a number sign starts a comment. A backslash quotes in single quotes too, and backticks have no meaning. -/
def fish : WordRules where
  special := [';', '&', '|', '(', ')', '<', '>', '#', '$']
  expanding := ['$']
  inSingle := ['\'', '\\']
  inDouble := ['"', '$', '\\']

variable (rules : WordRules)

/-- Read one character: the pieces it completes, and how the next one is quoted. A line feed behind a
backslash that quotes it only continues the line. Nothing is read where a line is more than its words. -/
def step : Quoting → Char → Option (List Piece × Quoting)
  | .bare, c =>
    if c = '\\' then some ([], .escaped)
    else if c = '"' then some ([.mark], .double)
    else if c = '\'' then some ([.mark], .single)
    else if c ∈ [' ', '\t', '\n'] then some ([.gap], .bare)
    else if c ∈ rules.special then none
    else some ([.char c], .bare)
  | .escaped, c => if c = '\n' then some ([], .bare) else some ([.char c], .bare)
  | .single, c =>
    if c = '\'' then some ([], .bare)
    else if c = '\\' ∧ '\\' ∈ rules.inSingle then some ([], .singleEscaped)
    else some ([.char c], .single)
  | .singleEscaped, c =>
    if c ∈ rules.inSingle then some ([.char c], .single)
    else some ([.char '\\', .char c], .single)
  | .double, c =>
    if c = '"' then some ([], .bare)
    else if c = '\\' then some ([], .doubleEscaped)
    else if c ∈ rules.expanding then none
    else some ([.char c], .double)
  | .doubleEscaped, c =>
    if c ∈ rules.inDouble then
      if c = '\n' then some ([], .double) else some ([.char c], .double)
    else some ([.char '\\', .char c], .double)

/-- Read a part of a line. -/
def run : Quoting → List Char → Option (List Piece × Quoting)
  | quoting, [] => some ([], quoting)
  | quoting, c :: cs => do
    let (found, next) ← rules.step quoting c
    let (others, last) ← run next cs
    return (found ++ others, last)

/-- The words of a line, in which every quote must be closed. -/
def read (line : String) : Option (List String) := do
  let (found, last) ← rules.run .bare line.toList
  if last = .bare then some ((Piece.gather none found).map String.ofList) else none

variable {rules} {quoting last : Quoting} {cs : List Char} {found : List Piece}

/-- A line is read character by character. -/
theorem run_cons_eq_some {c : Char} : rules.run quoting (c :: cs) = some (found, last) ↔
    ∃ first next others, rules.step quoting c = some (first, next) ∧
      rules.run next cs = some (others, last) ∧ found = first ++ others := by
  simp only [run, Option.bind_eq_bind, Option.bind_eq_some_iff, Prod.exists, Option.pure_def,
    Option.some.injEq, Prod.mk.injEq]
  constructor
  · rintro ⟨first, next, hstep, others, last', hrun, rfl, rfl⟩
    exact ⟨first, next, others, hstep, hrun, rfl⟩
  · rintro ⟨first, next, others, hstep, hrun, rfl⟩
    exact ⟨first, next, hstep, others, last, hrun, rfl, rfl⟩

/-- A line is read part by part. -/
theorem run_append_eq_some {ds : List Char} : rules.run quoting (cs ++ ds) = some (found, last) ↔
    ∃ first next others, rules.run quoting cs = some (first, next) ∧
      rules.run next ds = some (others, last) ∧ found = first ++ others := by
  induction cs generalizing quoting found with
  | nil => simp [run]
  | cons c cs ih =>
    rw [List.cons_append, run_cons_eq_some]
    constructor
    · rintro ⟨first, next, others, hstep, hrun, rfl⟩
      obtain ⟨middle, place, rest, hmiddle, hrest, rfl⟩ := ih.mp hrun
      exact ⟨first ++ middle, place, rest, run_cons_eq_some.mpr ⟨_, _, _, hstep, hmiddle, rfl⟩, hrest,
        (List.append_assoc ..).symm⟩
    · rintro ⟨first, next, others, hrun, hrest, rfl⟩
      obtain ⟨start, place, middle, hstep, hmiddle, rfl⟩ := run_cons_eq_some.mp hrun
      exact ⟨start, place, middle ++ others, hstep, ih.mpr ⟨_, _, _, hmiddle, hrest, rfl⟩,
        List.append_assoc ..⟩

/-- A line is read if it ends outside of quotes. -/
theorem read_eq_some {line : String} {words : List String} : rules.read line = some words ↔
    ∃ found, rules.run .bare line.toList = some (found, .bare) ∧
      words = (Piece.gather none found).map String.ofList := by
  simp only [read, Option.bind_eq_bind, Option.bind_eq_some_iff, Prod.exists]
  constructor
  · rintro ⟨found, last, hrun, h⟩
    split at h
    · next hlast =>
      cases h
      exact ⟨found, hlast ▸ hrun, rfl⟩
    · cases h
  · rintro ⟨found, hrun, rfl⟩
    exact ⟨found, .bare, hrun, if_pos rfl⟩

/-- What is read in double quotes is one word. -/
theorem read_double {line text : String} (hline : line.toList = '"' :: (cs ++ ['"']))
    (h : rules.run .double cs = some (text.toList.map .char, .double)) :
    rules.read line = some [text] := by
  have hclosing : rules.run .double ['"'] = some ([], .bare) := by simp [run, step]
  refine read_eq_some.mpr ⟨.mark :: text.toList.map .char, ?_, ?_⟩
  · rw [hline, run_cons_eq_some]
    refine ⟨[.mark], .double, text.toList.map .char, by simp [step], ?_, rfl⟩
    exact run_append_eq_some.mpr ⟨_, _, _, h, hclosing, (List.append_nil _).symm⟩
  · simp [Piece.gather, Piece.gather_map_char]

/-- Characters that are read without quotes are one word, if there are any. -/
theorem read_bare {line text : String} (hne : text.toList ≠ [])
    (h : rules.run .bare line.toList = some (text.toList.map .char, .bare)) :
    rules.read line = some [text] := by
  refine read_eq_some.mpr ⟨text.toList.map .char, h, ?_⟩
  obtain ⟨c, cs, hcs⟩ := List.exists_cons_of_ne_nil hne
  rw [hcs, List.map_cons, Piece.gather, Piece.gather_map_char]
  rw [Option.getD_none, List.nil_append, List.singleton_append, ← hcs]
  simp

/-- Lines with a space between them are read one after the other. -/
theorem read_append_space {line other : String} {words others : List String}
    (h : rules.read line = some words) (hothers : rules.read other = some others) :
    rules.read (line ++ " " ++ other) = some (words ++ others) := by
  obtain ⟨found, hrun, rfl⟩ := read_eq_some.mp h
  obtain ⟨found', hrun', rfl⟩ := read_eq_some.mp hothers
  refine read_eq_some.mpr ⟨found ++ .gap :: found', ?_, ?_⟩
  · have hspace : rules.run .bare (' ' :: other.toList) = some (.gap :: found', .bare) :=
      run_cons_eq_some.mpr ⟨[.gap], .bare, found', by simp [step], hrun', rfl⟩
    have hlist : (line ++ " " ++ other).toList = line.toList ++ ' ' :: other.toList := by simp
    rw [hlist]
    exact run_append_eq_some.mpr ⟨_, _, _, hrun, hspace, rfl⟩
  · rw [Piece.gather_append_gap, List.map_append]

end WordRules

end ShellCompletion
