import ShellCompletion.Help.Outline
import ShellCompletion.Proofs.EndedQuotes

/-!
# Options of a help text

The branch for an option is made of its names, each with the argument behind it, and of its description.
Names and descriptions are texts without a rule of their own, so they may fit the lexemes of a grammar or
not. Arguments always do: the lines of a help text give them names that angle brackets can hold. A quote
may end a description early, and another one may then open a quoted text that goes on in the next branch,
so how branches fit is told by the place that reading has come to behind each of them.
-/

namespace ShellCompletion

/-! ### What lines of a help text give -/

namespace Text.Readings

variable {α β : Type}

/-- The readings of two parts in a row are those of the second part behind those of the first. -/
theorem mem_bind {first : Readings α} {second : α → Readings β} {cs rest : List Char} {b : β} :
    (b, rest) ∈ (first >>= second) cs ↔
      ∃ a middle, (a, middle) ∈ first cs ∧ (b, rest) ∈ second a middle := by
  simp [bind, andThen, List.mem_flatMap]

theorem mem_pure {a b : α} {cs rest : List Char} :
    (b, rest) ∈ (pure a : Readings α) cs ↔ b = a ∧ rest = cs := by
  simp [pure, done]

/-- A run that is not empty has characters of its class only. -/
theorem mem_someRun {holds : Char → Bool} {cs taken rest : List Char}
    (h : (taken, rest) ∈ someRun holds cs) : taken ≠ [] ∧ ∀ c ∈ taken, holds c = true := by
  obtain ⟨first, middle, hfirst, h⟩ := mem_bind.mp h
  obtain ⟨others, last, hothers, h⟩ := mem_bind.mp h
  obtain ⟨rfl, rfl⟩ := mem_pure.mp h
  refine ⟨List.cons_ne_nil _ _, List.forall_mem_cons.mpr ⟨?_, (mem_run hothers).2⟩⟩
  cases cs with
  | nil => cases hfirst
  | cons c cs =>
    rw [one] at hfirst
    split at hfirst
    · next hc =>
      cases List.mem_singleton.mp hfirst
      exact hc
    · cases hfirst

end Text.Readings

namespace Help

open Text (Readings)
open Lexeme (Fit literalFit quotedFit angled NameText)
open ShellCompletion.Parser (Place Subject)

/-- An argument whose name can stand in angle brackets. -/
def Named (argument : Option (Style × List Char)) : Prop :=
  ∀ taken ∈ argument, NameText (String.ofList taken.2)

/-- The name of an argument can stand in angles. -/
theorem nameText_of_mem_someRun {style : Style} {cs name rest : List Char}
    (h : (name, rest) ∈ Readings.someRun style.holds cs) : NameText (String.ofList name) := by
  obtain ⟨hne, hholds⟩ := Readings.mem_someRun h
  have hclosing : style.holds '>' = false := by cases style <;> decide
  constructor
  · rwa [String.toList_ofList]
  · rw [String.toList_ofList]
    intro hin
    rw [hholds '>' hin] at hclosing
    cases hclosing

/-- An argument that is read has a name that can stand in angles. -/
theorem named_of_mem_argument {style : Style} {cs rest : List Char}
    {argument : Option (Style × List Char)} (h : (argument, rest) ∈ style.argument cs) :
    Named argument := by
  obtain ⟨_, _, -, h⟩ := Readings.mem_bind.mp h
  obtain ⟨name, _, hname, h⟩ := Readings.mem_bind.mp h
  obtain ⟨_, _, -, h⟩ := Readings.mem_bind.mp h
  obtain ⟨rfl, -⟩ := Readings.mem_pure.mp h
  rintro _ ⟨⟩
  exact nameText_of_mem_someRun hname

theorem named_of_mem_spacedArgument {cs rest : List Char} {argument : Option (Style × List Char)}
    (h : (argument, rest) ∈ spacedArgument cs) : Named argument := by
  obtain ⟨_, _, -, h⟩ := Readings.mem_bind.mp h
  obtain ⟨_, _, -, h⟩ := Readings.mem_bind.mp h
  obtain ⟨name, _, hname, h⟩ := Readings.mem_bind.mp h
  obtain ⟨_, _, -, h⟩ := Readings.mem_bind.mp h
  obtain ⟨rfl, -⟩ := Readings.mem_pure.mp h
  rintro _ ⟨⟩
  exact nameText_of_mem_someRun hname

theorem named_of_mem_none {cs rest : List Char} {argument : Option (Style × List Char)}
    (h : (argument, rest) ∈ (pure none : Readings _) cs) : Named argument := by
  obtain ⟨rfl, -⟩ := Readings.mem_pure.mp h
  rintro _ ⟨⟩

theorem named_of_mem_entry {names : Readings Names} {argument : Readings (Option (Style × List Char))}
    (hargument : ∀ {cs rest found}, (found, rest) ∈ argument cs → Named found) {cs rest : List Char}
    {e : Entry} (h : (e, rest) ∈ entry names argument cs) : Named e.argument := by
  obtain ⟨_, _, -, h⟩ := Readings.mem_bind.mp h
  obtain ⟨found, _, hfound, h⟩ := Readings.mem_bind.mp h
  obtain ⟨_, _, -, h⟩ := Readings.mem_bind.mp h
  obtain ⟨_, _, -, h⟩ := Readings.mem_bind.mp h
  obtain ⟨rfl, -⟩ := Readings.mem_pure.mp h
  exact hargument hfound

theorem named_of_ofLine? {line : List Char} {e : Entry} (h : Entry.ofLine? line = some e) :
    Named e.argument := by
  obtain ⟨form, hform, hwhole⟩ := List.exists_of_findSome?_eq_some h
  obtain ⟨⟨_, rest⟩, hfound, rfl⟩ := Option.map_eq_some_iff.mp hwhole
  have hin := List.mem_of_find?_eq_some hfound
  simp only [forms, List.mem_cons, List.not_mem_nil, or_false] at hform
  rcases hform with rfl | rfl | rfl | rfl | rfl | rfl | rfl | rfl | rfl | rfl | rfl
  · exact named_of_mem_entry named_of_mem_argument hin
  · exact named_of_mem_entry named_of_mem_argument hin
  · exact named_of_mem_entry named_of_mem_argument hin
  · exact named_of_mem_entry named_of_mem_none hin
  · exact named_of_mem_entry named_of_mem_argument hin
  · exact named_of_mem_entry named_of_mem_argument hin
  · exact named_of_mem_entry named_of_mem_argument hin
  · exact named_of_mem_entry named_of_mem_argument hin
  · exact named_of_mem_entry named_of_mem_none hin
  · exact named_of_mem_entry named_of_mem_spacedArgument hin
  · exact named_of_mem_entry named_of_mem_none hin

/-- An entry takes the lines that go on with its description. -/
theorem entries_of_line {line : List Char} {later : List (List Char)} {e extended : Entry} {count : Nat}
    (hline : Entry.ofLine? line = some e) (hextended : e.extend line later = (extended, count)) :
    entries (line :: later) = extended :: entries (later.drop count) := by
  rw [entries, hline]
  dsimp only
  rw [hextended]

/-- The argument of every entry that is found has a name that can stand in angles. -/
theorem named_of_mem_entries {lines : List (List Char)} {e : Entry} (h : e ∈ entries lines) :
    Named e.argument := by
  fun_induction entries lines with
  | case1 => cases h
  | case2 line later found hfound extended count hextended ih =>
    rcases List.mem_cons.mp h with heq | h
    · have hargument : extended.argument = found.argument := by
        rw [Entry.extend] at hextended
        split at hextended <;> cases hextended <;> rfl
      rw [heq, hargument]
      exact named_of_ofLine? hfound
    · exact ih h
  | case3 line later hnone ih => exact ih h

/-! ### Branches as texts -/

/-- The argument of an option as it is written behind a name. -/
def argumentText : Option (Style × List Char) → List Char
  | none => []
  | some (.word, name) => ' ' :: angled name
  | some (.optionalWord, name) => ' ' :: '[' :: (angled name ++ [']'])
  | some (.joined, name) => '=' :: angled name
  | some (.optionalJoined, name) => '[' :: '=' :: (angled name ++ [']'])

/-- How an argument is taken after a name of one character. -/
def Style.spaced : Style → Style
  | .word | .joined => .word
  | .optionalWord | .optionalJoined => .optionalWord

/-- A name of an option with its dashes, and the argument behind it. -/
structure Spelling where
  /-- The name, with the dashes in front of it. -/
  name : List Char
  /-- The argument behind the name. -/
  argument : Option (Style × List Char)
  dashed : name.head? = some '-'

/-- The text of a name with the argument behind it. -/
def Spelling.text (s : Spelling) : List Char := s.name ++ argumentText s.argument

namespace Entry

/-- The names of an option, each with the argument behind it. -/
def spellings (e : Entry) : List Spelling :=
  match e.names with
  | .short name => [⟨['-', name], e.argument.map (Prod.map Style.spaced id), rfl⟩]
  | .long name => [⟨'-' :: '-' :: name, e.argument, rfl⟩]
  | .both short long =>
    [⟨['-', short], e.argument.map (Prod.map Style.spaced id), rfl⟩,
      ⟨'-' :: '-' :: long, e.argument, rfl⟩]

theorem spellings_ne_nil (e : Entry) : e.spellings ≠ [] := by
  unfold spellings
  split <;> exact List.cons_ne_nil _ _

/-- How the texts of an option fit: the description, and each name with its dashes. -/
def fits (e : Entry) : List Fit :=
  quotedFit e.description :: e.spellings.map fun s => literalFit s.name

/-- What the description of an option describes: the literal, if the option is nothing but one name. -/
def subject (e : Entry) : Subject :=
  match e.names, e.argument with
  | .both _ _, _ => .item
  | _, none => .literal
  | _, some _ => .item

/-- What stands in front of the description in the branch for an option. -/
def opening (e : Entry) : List Char := e.expression.toList ++ [' ', '"']

/-- What stands behind the bar in the branch for an option. -/
def text (e : Entry) : List Char := e.opening ++ (e.description ++ ['"'])

/-- A branch is written behind a bar on a line of its own. -/
theorem toList_branch (e : Entry) : e.branch.toList = ' ' :: '|' :: ' ' :: (e.text ++ ['\n']) := by
  simp [branch, text, opening]

/-- The place behind the branch for an option, if a text is left open there. Names stand for themselves
only if none is open in front of the branch; an open text goes on with all of the branch. -/
def after (e : Entry) : Option Place → Option Place
  | none =>
    match Fit.first (e.spellings.map fun s => literalFit s.name) with
    | .whole => ((Place.quoted e.subject.next).run e.description).close
    | .refused => some .refused
    | .leaking => some .leaking
  | some place => (place.run (['\n', ' ', '|', ' '] ++ e.opening ++ e.description)).close

/-- A short option is written with one dash, and its argument behind a space. -/
theorem toList_spellShort (name : Char) (argument : Option (Style × List Char)) :
    (spellShort name argument).toList =
      ['-', name] ++ argumentText (argument.map (Prod.map Style.spaced id)) := by
  match argument with
  | none => simp [spellShort, argumentText]
  | some (.word, _) => simp [spellShort, argumentText, Style.spaced, angled]
  | some (.optionalWord, _) => simp [spellShort, argumentText, Style.spaced, angled]
  | some (.joined, _) => simp [spellShort, argumentText, Style.spaced, angled]
  | some (.optionalJoined, _) => simp [spellShort, argumentText, Style.spaced, angled]

/-- A long option is written with two dashes and its argument as it was found. -/
theorem toList_spellLong (name : List Char) (argument : Option (Style × List Char)) :
    (spellLong name argument).toList = '-' :: '-' :: name ++ argumentText argument := by
  match argument with
  | none => simp [spellLong, argumentText]
  | some (.word, _) => simp [spellLong, argumentText, angled]
  | some (.optionalWord, _) => simp [spellLong, argumentText, angled]
  | some (.joined, _) => simp [spellLong, argumentText, angled]
  | some (.optionalJoined, _) => simp [spellLong, argumentText, angled]

/-- An option is written in round brackets, or it has one name with nothing behind it but an argument
that an equals sign joins to it. -/
theorem expression_cases (e : Entry) :
    (e.subject = .item ∧
      e.expression.toList = bracketed ([' ', '|', ' '].intercalate (e.spellings.map Spelling.text))) ∨
    ∃ s, e.spellings = [s] ∧ e.expression.toList = s.text ∧
      ((e.subject = .literal ∧ s.argument = none) ∨ (e.subject = .item ∧
        ∃ name, s.argument = some (.joined, name) ∨ s.argument = some (.optionalJoined, name))) := by
  obtain ⟨names, argument, description⟩ := e
  cases names with
  | short name =>
    cases argument with
    | none =>
      exact .inr ⟨_, rfl, by simp [expression, toList_spellShort, Spelling.text], .inl ⟨rfl, rfl⟩⟩
    | some taken =>
      refine .inl ⟨rfl, ?_⟩
      simp [expression, spellings, grouped, toList_spellShort, Spelling.text, bracketed,
        List.intercalate]
  | long name =>
    rcases argument with _ | ⟨style, taken⟩
    · exact .inr ⟨_, rfl, by simp [expression, toList_spellLong, Spelling.text], .inl ⟨rfl, rfl⟩⟩
    · cases style with
      | word =>
        refine .inl ⟨rfl, ?_⟩
        simp [expression, spellings, grouped, toList_spellLong, Spelling.text, bracketed,
          List.intercalate]
      | optionalWord =>
        refine .inl ⟨rfl, ?_⟩
        simp [expression, spellings, grouped, toList_spellLong, Spelling.text, bracketed,
          List.intercalate]
      | joined =>
        exact .inr ⟨_, rfl, by simp [expression, toList_spellLong, Spelling.text],
          .inr ⟨rfl, taken, .inl rfl⟩⟩
      | optionalJoined =>
        exact .inr ⟨_, rfl, by simp [expression, toList_spellLong, Spelling.text],
          .inr ⟨rfl, taken, .inr rfl⟩⟩
  | both short long =>
    refine .inl ⟨rfl, ?_⟩
    simp [expression, spellings, grouped, toList_spellShort, toList_spellLong, Spelling.text,
      bracketed, List.intercalate]

/-- The argument of a spelling has a name that can stand in angles. -/
theorem named_of_mem_spellings {e : Entry} (h : Named e.argument) {s : Spelling}
    (hs : s ∈ e.spellings) : Named s.argument := by
  have hspaced : Named (e.argument.map (Prod.map Style.spaced id)) := by
    intro taken htaken
    obtain ⟨taken', htaken', rfl⟩ := Option.map_eq_some_iff.mp htaken
    exact h taken' htaken'
  unfold spellings at hs
  split at hs
  · cases List.mem_singleton.mp hs
    exact hspaced
  · cases List.mem_singleton.mp hs
    exact h
  · simp only [List.mem_cons, List.not_mem_nil, or_false] at hs
    rcases hs with rfl | rfl
    · exact hspaced
    · exact h

end Entry

/-! ### Branches one after the other -/

/-- The place behind the branches for options, if a text is left open there. -/
def afterAll (place : Option Place) (es : List Entry) : Option Place :=
  es.foldl (fun place e => e.after place) place

/-- How branches fit that lead to a place. A quoted text that is open behind the last one is never
closed. -/
def fitOf : Option Place → Fit
  | none => .whole
  | some (.quoted _) | some .refused => .refused
  | some _ => .leaking

/-- How the branches for options fit into a grammar. -/
def fit (es : List Entry) : Fit := fitOf (afterAll none es)

/-- What the branches for options add to a grammar, each in a line of its own. -/
def branches (es : List Entry) : List Char := (es.map Entry.text).flatMap (['\n', ' ', '|', ' '] ++ ·)

/-- Branches are written one after the other. -/
theorem branches_cons (e : Entry) (es : List Entry) :
    branches (e :: es) = ['\n', ' ', '|', ' '] ++ e.opening ++ e.description ++ '"' :: branches es := by
  simp [branches, Entry.text]

/-- No branch leads away from a place that no character leads away from. -/
theorem afterAll_of_run_eq {place : Place} (hrun : ∀ text, place.run text = place)
    (hclose : place.close = some place) (es : List Entry) : afterAll (some place) es = some place := by
  induction es with
  | nil => rfl
  | cons e es ih =>
    rw [afterAll, List.foldl_cons, Entry.after, hrun, hclose]
    exact ih

/-- An open text is closed by one of the branches, or it makes the sequence halt that it is part of. -/
theorem open_cases (place : Place) (es : List Entry) (h : fitOf (afterAll (some place) es) ≠ .leaking) :
    (∃ text later subject, branches es = text ++ '"' :: branches later ∧ place.run text = .quoted subject ∧
      (∃ closed, es = closed ++ later ∧ closed ≠ []) ∧
      fitOf (afterAll (some place) es) = fit later) ∨
    (fitOf (afterAll (some place) es) = .refused ∧ ∃ text rest,
      branches es ++ ['\n', ';'] = text ++ rest ∧ Parser.Settles Parser.Halted (place.run text) rest) := by
  induction es generalizing place with
  | nil =>
    refine .inr ?_
    cases place with
    | quoted subject => exact ⟨rfl, ['\n', ';'], [], rfl, .unclosed fun _ hr => hr⟩
    | refused => exact ⟨rfl, [], ['\n', ';'], rfl, .refused fun _ hr => hr⟩
    | escaped subject => exact (h rfl).elim
    | word => exact (h rfl).elim
    | wordEscaped => exact (h rfl).elim
    | behind subject spaced => exact (h rfl).elim
    | leaking => exact (h rfl).elim
  | cons e es ih =>
    obtain ⟨front, hbranches, hafter⟩ : ∃ front, branches (e :: es) = front ++ '"' :: branches es ∧
        afterAll (some place) (e :: es) = afterAll (place.run front).close es :=
      ⟨_, branches_cons e es, rfl⟩
    rw [hafter] at h ⊢
    rw [hbranches]
    rcases (place.run front).close_cases with ⟨subject, hquoted, hclose⟩ | hclose
    · rw [hclose] at h ⊢
      exact .inl ⟨front, es, subject, rfl, hquoted, ⟨[e], rfl, by simp⟩, rfl⟩
    · rw [hclose] at h ⊢
      have hrun : ∀ text, ((place.run front).step '"').run text = place.run (front ++ '"' :: text) :=
        fun text => by rw [Place.run_append, Place.run_cons]
      rcases ih _ h with ⟨text, later, subject, htext, hquoted, ⟨closed, hes, -⟩, hfit⟩ |
        ⟨hfit, text, rest, htext, hsettles⟩
      · refine .inl ⟨front ++ '"' :: text, later, subject, by simp [htext], hrun text ▸ hquoted,
          ⟨e :: closed, by rw [hes]; rfl, by simp⟩, hfit⟩
      · refine .inr ⟨hfit, front ++ '"' :: text, rest, ?_, hrun text ▸ hsettles⟩
        rw [List.append_assoc, List.cons_append, htext, List.append_assoc, List.cons_append]

end Help

end ShellCompletion
