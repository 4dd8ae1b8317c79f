import Mathlib.Data.List.Infix
import Mathlib.Logic.Basic
import ShellCompletion.Grammar.Expr
import ShellCompletion.Grammar.Lexeme
import ShellCompletion.Proofs.SubwordBodies

/-!
# Printing a grammar

A grammar is printed with all brackets: literals, lists, repeated and described parts and subwords stand
in round brackets of their own, so that no rule of precedence is needed to read them again. Texts that a
lexeme cannot hold have no printed form. The scanners of the lexemes read what is printed, and no more,
if a character follows that ends the lexeme.
-/

namespace ShellCompletion

namespace Lexeme

/-! ### Texts of lexemes -/

/-- A text with a backslash before each character that has a meaning of its own. -/
def escape (text : List Char) : List Char :=
  text.flatMap fun c => if isReserved c then ['\\', c] else [c]

/-- A text with a backslash before each backslash and each quote. -/
def quoteBody (text : List Char) : List Char :=
  text.flatMap fun c => if c = '\\' ∨ c = '"' then ['\\', c] else [c]

/-- A text in quotes. -/
def quote (text : List Char) : List Char := '"' :: (quoteBody text ++ ['"'])

/-- A text in angle brackets. -/
def angled (text : List Char) : List Char := '<' :: (text ++ ['>'])

/-- A text in triple braces. -/
def brace (text : List Char) : List Char :=
  "\x7b\x7b\x7b ".toList ++ (text ++ " \x7d\x7d\x7d".toList)

/-- A text that a literal can have: ASCII letters, digits and punctuation without backslashes, of which
the first one does not begin a comment. -/
@[mk_iff]
structure LiteralText (text : String) : Prop where
  ne_nil : text.toList ≠ []
  no_comment : text.toList.head? ≠ some '#'
  printed : ∀ c ∈ text.toList, c ≠ '\\' ∧ (c.isAlphanum = true ∨ isPunctuation c = true)

instance : DecidablePred LiteralText := fun text =>
  decidable_of_iff (text.toList ≠ [] ∧ text.toList.head? ≠ some '#' ∧
      text.toList.all fun c => decide (c ≠ '\\') && (c.isAlphanum || isPunctuation c)) <| by
    rw [literalText_iff]
    simp

/-- A text that a name in angle brackets can have. -/
structure NameText (text : String) : Prop where
  ne_nil : text.toList ≠ []
  open_end : '>' ∉ text.toList

/-- A text that a command in triple braces can have: it has no white space around it, and no triple
braces close it early. -/
structure CommandText (text : String) : Prop where
  trimmed : Text.trim text.toList = text.toList
  open_end : ¬ "\x7d\x7d\x7d".toList <:+: text.toList

/-- The brackets with which printed expressions begin. -/
def openings : List Char := ['(', '[', '<', '\x7b']

/-- Whether what follows a lexeme ends a literal: it neither goes on with a plain character nor with an
escaped one. -/
def EndsLiteral (rest : List Char) : Prop := ∀ c ∈ rest.head?, c ≠ '\\' ∧ isPlain c = false

/-- A character that is not plain ends a literal. -/
theorem endsLiteral_cons {c : Char} (hc : c ≠ '\\' ∧ isPlain c = false) (cs : List Char) :
    EndsLiteral (c :: cs) := by
  rintro _ ⟨⟩
  exact hc

/-- No character is taken where a literal ends. -/
theorem plainRun_of_ends {rest : List Char} (hrest : EndsLiteral rest) :
    plainRun rest = some ([], 0) := by
  cases rest with
  | nil => rfl
  | cons c cs =>
    obtain ⟨hc, hplain⟩ := hrest c rfl
    rw [plainRun.eq_def]
    dsimp only
    rw [if_neg hc, hplain, if_neg Bool.false_ne_true]

/-- The characters of an escaped text are read back. -/
theorem plainRun_escape {text : List Char}
    (htext : ∀ c ∈ text, c ≠ '\\' ∧ (c.isAlphanum = true ∨ isPunctuation c = true))
    {rest : List Char} (hrest : EndsLiteral rest) :
    plainRun (escape text ++ rest) = some (text, (escape text).length) := by
  induction text with
  | nil => exact plainRun_of_ends hrest
  | cons c text ih =>
    have hfirst := htext c (by simp)
    have hothers := ih fun d hd => htext d (by simp [hd])
    rw [escape, List.flatMap_cons, ← escape, List.append_assoc]
    cases hreserved : isReserved c with
    | true =>
      rw [if_pos rfl]
      simp [plainRun, hreserved, hothers]
    | false =>
      have hplain : isPlain c = true := by
        simpa [isPlain, hfirst.1, hreserved] using hfirst.2
      rw [if_neg Bool.false_ne_true, List.singleton_append, plainRun.eq_def]
      simp [hfirst.1, hplain, hothers]

/-- An escaped text is read back as a literal. -/
theorem literal_escape {text : String} (h : LiteralText text) {rest : List Char}
    (hrest : EndsLiteral rest) :
    literal (escape text.toList ++ rest) = some (text, (escape text.toList).length) := by
  rw [literal, plainRun_escape h.printed hrest]
  simpa using h.ne_nil

/-- What is written between quotes is read back. -/
theorem quotedRun_quoteBody (text rest : List Char) :
    quotedRun false (quoteBody text ++ '"' :: rest) = (text, (quoteBody text).length) := by
  induction text with
  | nil =>
    rw [quoteBody, List.flatMap_nil, List.nil_append, quotedRun.eq_def]
    simp
  | cons c text ih =>
    rw [quoteBody, List.flatMap_cons, ← quoteBody, List.append_assoc]
    by_cases hc : c = '\\' ∨ c = '"'
    · rw [if_pos hc]
      simp [quotedRun, hc, ih]
    · rw [if_neg hc, List.singleton_append, quotedRun.eq_def]
      rw [not_or] at hc
      simp [hc, ih]

/-- A quoted text is read back. -/
theorem quoted_quote (text : String) (rest : List Char) :
    quoted (quote text.toList ++ rest) = some (text, (quote text.toList).length) := by
  have hquote : quote text.toList ++ rest = '"' :: (quoteBody text.toList ++ '"' :: rest) := by
    simp [quote]
  rw [hquote, quoted, quotedRun_quoteBody]
  simp [quote]

theorem takeWhile_append_cons {p : Char → Bool} {text rest : List Char} {c : Char}
    (htext : ∀ d ∈ text, p d = true) (hc : p c = false) :
    (text ++ c :: rest).takeWhile p = text := by
  rw [List.takeWhile_append_of_pos htext, List.takeWhile_cons, hc]
  simp

theorem angled_append (text rest : List Char) : angled text ++ rest = '<' :: (text ++ '>' :: rest) := by
  simp [angled]

/-- A name in angles is read back. -/
theorem name_print {text : String} (h : NameText text) (rest : List Char) :
    name (angled text.toList ++ rest) = some (text, (angled text.toList).length) := by
  have htake : (text.toList ++ '>' :: rest).takeWhile (fun c => decide (c ≠ '>')) = text.toList :=
    takeWhile_append_cons (fun d hd => by simpa using ne_of_mem_of_not_mem hd h.open_end) (by simp)
  have hne := h.ne_nil
  rw [angled_append, name, htake]
  simpa [angled] using hne

/-- A name for a shell in angles is read back. -/
theorem nameForShell_print {text shell : String} (htext : NameText text) (hat : '@' ∉ text.toList)
    (hshell : NameText shell) (rest : List Char) :
    nameForShell (angled (text.toList ++ '@' :: shell.toList) ++ rest) =
      some ((text, shell), (angled (text.toList ++ '@' :: shell.toList)).length) := by
  have htake : (text.toList ++ '@' :: (shell.toList ++ '>' :: rest)).takeWhile
      (fun c => decide (c ≠ '>') && decide (c ≠ '@')) = text.toList :=
    takeWhile_append_cons (fun d hd => by
      simpa using ⟨ne_of_mem_of_not_mem hd htext.open_end, ne_of_mem_of_not_mem hd hat⟩) (by simp)
  have htake' : (shell.toList ++ '>' :: rest).takeWhile (fun c => decide (c ≠ '>')) = shell.toList :=
    takeWhile_append_cons (fun d hd => by simpa using ne_of_mem_of_not_mem hd hshell.open_end)
      (by simp)
  have hne := htext.ne_nil
  have hne' := hshell.ne_nil
  have hlength : (angled (text.toList ++ '@' :: shell.toList)).length =
      text.toList.length + shell.toList.length + 3 := by
    simp only [angled, List.length_cons, List.length_append, List.length_nil]
    omega
  rw [angled_append, List.append_assoc, List.cons_append, nameForShell, htake, List.drop_left, hlength]
  split
  · next ds hds =>
    cases hds
    rw [htake']
    simpa using And.intro hne hne'
  · next hno => exact (hno _ rfl).elim

/-- A name without a shell is not read as one with a shell. -/
theorem nameForShell_of_no_shell {text : String} (htext : NameText text) (hat : '@' ∉ text.toList)
    (rest : List Char) : nameForShell (angled text.toList ++ rest) = none := by
  have htake : (text.toList ++ '>' :: rest).takeWhile
      (fun c => decide (c ≠ '>') && decide (c ≠ '@')) = text.toList :=
    takeWhile_append_cons (fun d hd => by
      simpa using ⟨ne_of_mem_of_not_mem hd htext.open_end, ne_of_mem_of_not_mem hd hat⟩) (by simp)
  rw [angled_append, nameForShell, htake, List.drop_left]
  simp

/-- Braces close a command where it ends if they do not close it before. -/
theorem beforeClosing_print {text : List Char} (h : ¬ "\x7d\x7d\x7d".toList <:+: text)
    (rest : List Char) :
    beforeClosing (text ++ ' ' :: ("\x7d\x7d\x7d".toList ++ rest)) = some (text ++ [' ']) := by
  induction text with
  | nil => rfl
  | cons c text ih =>
    have htail : ¬ "\x7d\x7d\x7d".toList <:+: text := fun hin => h (List.infix_cons hin)
    have hfirst : "\x7d\x7d\x7d".toList.isPrefixOf
        (c :: (text ++ ' ' :: ("\x7d\x7d\x7d".toList ++ rest))) = false := by
      -- the space behind the text keeps braces in it apart from those that close the command
      rw [Bool.eq_false_iff]
      intro hfront
      match text with
      | [] => simp at hfront
      | [d] => simp at hfront
      | d :: e :: text =>
        have hbraces : '\x7d' = c ∧ '\x7d' = d ∧ '\x7d' = e := by simpa using hfront
        obtain ⟨rfl, rfl, rfl⟩ := hbraces
        exact h ⟨[], text, rfl⟩
    rw [List.cons_append, beforeClosing, hfirst, if_neg Bool.false_ne_true, ih htail]
    rfl

/-- Trimming takes away the spaces that printing puts in. -/
theorem trim_print {text : List Char} (h : Text.trim text = text) :
    Text.trim (' ' :: (text ++ [' '])) = text := by
  have hspace : Text.isWhitespace ' ' = true := by decide
  nth_rewrite 2 [← h]
  rw [Text.trim, Text.trim, List.dropWhile_cons_of_pos hspace, List.dropWhile_append]
  split
  · next hempty =>
    rw [List.isEmpty_iff] at hempty
    simp [hempty, hspace]
  · rw [List.reverse_append, List.reverse_singleton, List.singleton_append,
      List.dropWhile_cons_of_pos hspace]

/-- A command in braces is read back. -/
theorem command_print {text : String} (h : CommandText text) (rest : List Char) :
    command (brace text.toList ++ rest) = some (text, (brace text.toList).length) := by
  have hbrace : brace text.toList ++ rest =
      '\x7b' :: '\x7b' :: '\x7b' :: (' ' :: text.toList ++ ' ' :: ("\x7d\x7d\x7d".toList ++ rest)) := by
    simp [brace]
  have hspace : ¬ "\x7d\x7d\x7d".toList <:+: ' ' :: text.toList := by
    rw [List.infix_cons_iff]
    rintro (hfront | hin)
    · simp at hfront
    · exact h.open_end hin
  rw [hbrace, command, if_pos (by simp)]
  rw [List.drop_succ_cons, List.drop_succ_cons, List.drop_succ_cons, List.drop_zero,
    beforeClosing_print hspace]
  simp [trim_print h.trimmed, brace]

end Lexeme

/-! ### Printed grammars -/

/-- The texts for the shells that a grammar can name, with their shells. -/
def ShellTexts.entries (texts : ShellTexts) : List (Shell × String) :=
  [Shell.bash, .fish, .zsh].filterMap fun shell => (texts.get? shell).map fun text => (shell, text)

/-- Texts for the shells that a grammar can name are those that their entries set. -/
theorem ShellTexts.foldl_entries {texts : ShellTexts} (h : texts.pwsh = none) :
    texts.entries.foldl (fun texts entry => texts.set entry.1 entry.2) {} = texts := by
  obtain ⟨bash, fish, zsh, pwsh⟩ := texts
  cases h
  cases bash <;> cases fish <;> cases zsh <;> rfl

/-- The printed form of a pattern for one shell. -/
def printPattern (entry : Shell × String) : List Char :=
  '@' :: (entry.1.name.toList ++ Lexeme.quote entry.2.toList)

/-- Texts for at least one of the shells that a grammar can name, and for no other shell. -/
structure ShellTexts.Printable (texts : ShellTexts) : Prop where
  ne_nil : texts.entries ≠ []
  no_other : texts.pwsh = none

/-- What stands where blanks are free in a printed grammar. -/
structure Spacing where
  /-- The white space on both sides of bars. -/
  bar : List Char
  /-- The white space behind statements. -/
  behind : List Char
  bar_space : ∀ c ∈ bar, Lexeme.isSpace c = true
  behind_space : ∀ c ∈ behind, Lexeme.isSpace c = true

/-- One space around bars, and each statement on a line of its own. -/
def Spacing.usual : Spacing := ⟨[' '], ['\n'], by simp [Lexeme.isSpace], by simp [Lexeme.isSpace]⟩

/-- A text in round brackets. -/
def bracketed (content : List Char) : List Char := '(' :: (content ++ [')'])

mutual

/-- The printed form of an expression. A subword is printed as its factors, with nothing between
them. -/
def Expr.print (spacing : Spacing) : Expr → List Char
  | .literal text none _ _ => bracketed (Lexeme.escape text.toList)
  | .literal text (some description) _ _ =>
    bracketed (Lexeme.escape text.toList ++ ' ' :: Lexeme.quote description.toList)
  | .reference name _ _ => Lexeme.angled name.toList
  | .command text patterns _ _ =>
    Lexeme.brace text.toList ++ (patterns.elim [] ShellTexts.entries).flatMap printPattern
  | .sequence items => bracketed ([' '].intercalate (Expr.printAll spacing items))
  | .alternative branches =>
    bracketed ((spacing.bar ++ '|' :: spacing.bar).intercalate (Expr.printAll spacing branches))
  | .fallback branches =>
    bracketed ((spacing.bar ++ '|' :: '|' :: spacing.bar).intercalate
      (Expr.printAll spacing branches))
  | .optional item => '[' :: (item.print spacing ++ [']'])
  | .repeated item => bracketed (item.print spacing ++ "...".toList)
  | .described item description =>
    bracketed (item.print spacing ++ ' ' :: Lexeme.quote description.toList)
  | .subword (.sequence factors) _ _ => bracketed (Expr.printAll spacing factors).flatten
  | .subword body _ _ => bracketed (body.print spacing)

/-- The printed forms of the expressions of a list. -/
def Expr.printAll (spacing : Spacing) : List Expr → List (List Char)
  | [] => []
  | e :: es => e.print spacing :: Expr.printAll spacing es

end

example : (Expr.alternative [.repeated (.literal "-v" none 0 none),
    .subword (.sequence [.literal "a|b" (some "pair") 0 none, .reference "FILE" 0 none]) 0 none]).print
      .usual = "(((-v)...) | ((a\\|b \"pair\")<FILE>))".toList := by
  decide

namespace Statement

/-- The printed form of a statement. -/
def print (spacing : Spacing) : Statement → List Char
  | .call head body => Lexeme.escape head.toList ++ ' ' :: (body.print spacing ++ [';'])
  | .definition name shell body =>
    Lexeme.angled (name.toList ++ shell.elim [] fun shell => '@' :: shell.toList) ++
      (" ::= ".toList ++ (body.print spacing ++ [';']))

/-- A statement with its expression changed. -/
def mapBody (f : Expr → Expr) : Statement → Statement
  | .call head body => .call head (f body)
  | .definition name shell body => .definition name shell (f body)

end Statement

namespace Grammar

/-- The printed form of a grammar: its statements, one after the other. -/
def print (spacing : Spacing) (g : Grammar) : String :=
  String.ofList (g.statements.flatMap fun s => s.print spacing ++ spacing.behind)

/-- A grammar with all its expressions changed. -/
def mapBodies (f : Expr → Expr) (g : Grammar) : Grammar := ⟨g.statements.map (Statement.mapBody f)⟩

end Grammar

/-! ### What can be printed -/

/-- An expression that can be read from its printed form: its texts are texts of lexemes, its lists and
subwords have several parts, and no levels are assigned. -/
inductive Expr.Printable : Expr → Prop
  | literal {text : String} (htext : Lexeme.LiteralText text) (description : Option String)
    (span : Option Span) : Printable (.literal text description 0 span)
  | reference {name : String} (hname : Lexeme.NameText name) (span : Option Span) :
    Printable (.reference name 0 span)
  | command {text : String} (htext : Lexeme.CommandText text) {patterns : Option ShellTexts}
    (hpatterns : ∀ texts ∈ patterns, texts.Printable) (span : Option Span) :
    Printable (.command text patterns 0 span)
  | sequence {items : List Expr} (hseveral : 2 ≤ items.length) (hitems : ∀ e ∈ items, Printable e) :
    Printable (.sequence items)
  | alternative {branches : List Expr} (hseveral : 2 ≤ branches.length)
    (hbranches : ∀ e ∈ branches, Printable e) : Printable (.alternative branches)
  | fallback {branches : List Expr} (hseveral : 2 ≤ branches.length)
    (hbranches : ∀ e ∈ branches, Printable e) : Printable (.fallback branches)
  | optional {item : Expr} (hitem : Printable item) : Printable (.optional item)
  | repeated {item : Expr} (hitem : Printable item) : Printable (.repeated item)
  | described {item : Expr} (hitem : Printable item) (description : String) :
    Printable (.described item description)
  | subword {factors : List Expr} (hseveral : 2 ≤ factors.length)
    (hfactors : ∀ e ∈ factors, Printable e) (span : Option Span) :
    Printable (.subword (.sequence factors) 0 span)

/-- A statement that can be read from its printed form. -/
inductive Statement.Printable : Statement → Prop
  | call {head : String} (hhead : Lexeme.LiteralText head) {body : Expr} (hbody : body.Printable) :
    Printable (.call head body)
  | definition {name : String} (hname : Lexeme.NameText name) (hat : '@' ∉ name.toList)
    {shell : Option String} (hshell : ∀ s ∈ shell, Lexeme.NameText s) {body : Expr}
    (hbody : body.Printable) : Printable (.definition name shell body)

namespace Expr

theorem printAll_eq_map (spacing : Spacing) (es : List Expr) :
    printAll spacing es = es.map (print spacing) := by
  induction es with
  | nil => rfl
  | cons e es ih => rw [printAll, ih, List.map_cons]

theorem print_mem_printAll (spacing : Spacing) {e : Expr} {es : List Expr} (he : e ∈ es) :
    e.print spacing ∈ printAll spacing es := by
  rw [printAll_eq_map]
  exact List.mem_map_of_mem he

/-- A printed expression begins with an opening bracket. -/
theorem print_eq_cons (spacing : Spacing) (e : Expr) :
    ∃ c cs, e.print spacing = c :: cs ∧ c ∈ Lexeme.openings := by
  cases e with
  | literal text description level span =>
    cases description with
    | none => exact ⟨'(', _, rfl, by decide⟩
    | some description => exact ⟨'(', _, rfl, by decide⟩
  | reference name level span => exact ⟨'<', _, rfl, by decide⟩
  | command text patterns level span => exact ⟨'\x7b', _, rfl, by decide⟩
  | sequence items => exact ⟨'(', _, rfl, by decide⟩
  | alternative branches => exact ⟨'(', _, rfl, by decide⟩
  | fallback branches => exact ⟨'(', _, rfl, by decide⟩
  | optional item => exact ⟨'[', _, rfl, by decide⟩
  | repeated item => exact ⟨'(', _, rfl, by decide⟩
  | described item description => exact ⟨'(', _, rfl, by decide⟩
  | subword body level span => cases body <;> exact ⟨'(', _, rfl, by decide⟩

/-! ### Expressions without places -/

mutual

/-- An expression without the places where its parts were written. -/
def withoutSpans : Expr → Expr
  | .literal text description level _ => .literal text description level none
  | .reference name level _ => .reference name level none
  | .command text patterns level _ => .command text patterns level none
  | .sequence items => .sequence (withoutSpansAll items)
  | .alternative branches => .alternative (withoutSpansAll branches)
  | .fallback branches => .fallback (withoutSpansAll branches)
  | .optional item => .optional item.withoutSpans
  | .repeated item => .repeated item.withoutSpans
  | .described item description => .described item.withoutSpans description
  | .subword body level _ => .subword body.withoutSpans level none

/-- The expressions of a list without places. -/
def withoutSpansAll : List Expr → List Expr
  | [] => []
  | e :: es => e.withoutSpans :: withoutSpansAll es

end

theorem withoutSpansAll_eq_map (es : List Expr) : withoutSpansAll es = es.map withoutSpans := by
  induction es with
  | nil => rfl
  | cons e es ih => rw [withoutSpansAll, ih, List.map_cons]

/-- Flattening a word and removing spans can be exchanged. -/
theorem withoutSpans_flatten (e : Expr) : e.flatten.withoutSpans = e.withoutSpans.flatten := by
  have hall : ∀ es : List Expr, (∀ e ∈ es, e.flatten.withoutSpans = e.withoutSpans.flatten) →
      withoutSpansAll (flattenAll es) = flattenAll (withoutSpansAll es) := by
    intro es hes
    simp only [withoutSpansAll_eq_map, flattenAll_eq_map, List.map_map]
    exact List.map_congr_left hes
  induction e with
  | literal => rfl
  | reference => rfl
  | command => rfl
  | sequence items ih => exact congrArg Expr.sequence (hall items ih)
  | alternative branches ih => exact congrArg Expr.alternative (hall branches ih)
  | fallback branches ih => exact congrArg Expr.fallback (hall branches ih)
  | optional item ih => exact congrArg Expr.optional ih
  | repeated item ih => exact congrArg Expr.repeated ih
  | described item description ih => exact congrArg (Expr.described · description) ih
  | subword body level span ih => exact ih

/-- An expression without subwords is flat. -/
theorem flatten_eq_self {e : Expr} (h : e.subwordBodies = []) : e.flatten = e := by
  have hall : ∀ es : List Expr, (∀ e ∈ es, e.subwordBodies = [] → e.flatten = e) →
      subwordBodiesAll es = [] → flattenAll es = es := by
    intro es hes hnone
    rw [subwordBodiesAll_eq_flatMap, List.flatMap_eq_nil_iff] at hnone
    rw [flattenAll_eq_map]
    exact (List.map_congr_left fun e he => hes e he (hnone e he)).trans (List.map_id es)
  induction e with
  | literal => rfl
  | reference => rfl
  | command => rfl
  | sequence items ih => exact congrArg Expr.sequence (hall items ih h)
  | alternative branches ih => exact congrArg Expr.alternative (hall branches ih h)
  | fallback branches ih => exact congrArg Expr.fallback (hall branches ih h)
  | optional item ih => exact congrArg Expr.optional (ih h)
  | repeated item ih => exact congrArg Expr.repeated (ih h)
  | described item description ih => exact congrArg (Expr.described · description) (ih h)
  | subword body level span ih => cases h

/-- Flattening the subwords changes nothing if none of them has another one inside. -/
theorem flattenSubwords_eq_self {e : Expr} (h : ∀ body ∈ e.subwordBodies, body.subwordBodies = []) :
    e.flattenSubwords = e := by
  have hall : ∀ es : List Expr,
      (∀ e ∈ es, (∀ body ∈ e.subwordBodies, body.subwordBodies = []) → e.flattenSubwords = e) →
      (∀ body ∈ subwordBodiesAll es, body.subwordBodies = []) → flattenSubwordsAll es = es := by
    intro es hes hflat
    rw [flattenSubwordsAll_eq_map]
    refine (List.map_congr_left fun e he => hes e he fun body hbody => ?_).trans (List.map_id es)
    exact hflat body (mem_subwordBodiesAll.mpr ⟨e, he, hbody⟩)
  induction e with
  | literal => rfl
  | reference => rfl
  | command => rfl
  | sequence items ih => exact congrArg Expr.sequence (hall items ih h)
  | alternative branches ih => exact congrArg Expr.alternative (hall branches ih h)
  | fallback branches ih => exact congrArg Expr.fallback (hall branches ih h)
  | optional item ih => exact congrArg Expr.optional (ih h)
  | repeated item ih => exact congrArg Expr.repeated (ih h)
  | described item description ih => exact congrArg (Expr.described · description) (ih h)
  | subword body level span ih =>
    rw [flattenSubwords, flatten_eq_self (h body (List.mem_singleton_self body))]

/-- Flattening the subwords inside a word first makes no difference. -/
theorem flatten_flattenSubwords (e : Expr) : e.flattenSubwords.flatten = e.flatten := by
  have hall : ∀ es : List Expr, (∀ e ∈ es, e.flattenSubwords.flatten = e.flatten) →
      flattenAll (flattenSubwordsAll es) = flattenAll es := by
    intro es hes
    simp only [flattenAll_eq_map, flattenSubwordsAll_eq_map, List.map_map]
    exact List.map_congr_left hes
  induction e with
  | literal => rfl
  | reference => rfl
  | command => rfl
  | sequence items ih => exact congrArg Expr.sequence (hall items ih)
  | alternative branches ih => exact congrArg Expr.alternative (hall branches ih)
  | fallback branches ih => exact congrArg Expr.fallback (hall branches ih)
  | optional item ih => exact congrArg Expr.optional ih
  | repeated item ih => exact congrArg Expr.repeated ih
  | described item description ih => exact congrArg (Expr.described · description) ih
  | subword body level span ih => exact flatten_eq_self body.subwordBodies_flatten

end Expr

end ShellCompletion
