import ShellCompletion.Proofs.HelpEntries
import ShellCompletion.Proofs.RoundTrip

/-!
# Grammars from help texts

The branches for the options of a help text hold names and descriptions as they are in that text. If each
of them fits the lexeme that it stands for, the branches can be read as part of a grammar. More generally
they can be read if every quoted text that a quote in a description opens is closed again, and they cannot
if one is left open or if some text is refused. Only where a mark with a meaning of its own stands outside
of quotes, in a name or behind a quote that ended a description early, it is not said what happens.
-/

namespace ShellCompletion

namespace Parser

open Lexeme (ahead blankLength angled openings literalFit quotedFit NameText EndsLiteral)
open Help (Named Spelling Entry argumentText)

variable {body : Parser Expr} {rest : List Char}

/-! ### Reading names and arguments -/

/-- The name of an argument in angles is read as a reference. -/
theorem reads_atom_angled {name : List Char} (h : NameText (String.ofList name)) (rest : List Char) :
    Reads (atom body) (angled name) rest fun _ => True := by
  have hreference : Reads (atom body) (angled (String.ofList name).toList) rest fun _ => True :=
    (reads_atom_reference h rest).mono fun _ _ => trivial
  rwa [String.toList_ofList] at hreference

/-- The name of an optional argument in angles is read as an optional reference. -/
theorem reads_atom_optional_angled {name : List Char} (h : NameText (String.ofList name))
    (rest : List Char) :
    Reads (atom expr) ('[' :: (angled name ++ [']'])) rest fun _ => True := by
  have hcontent : Reads expr (angled name) (']' :: rest) fun _ => True := by
    rw [expr_eq_fallback]
    exact reads_fallback_of_atom (reads_atom_angled h _) (stopsFallback_of_closing (by decide) rest)
  exact (reads_atom_optional (Lexeme.blankLength_of_inked rfl _) hcontent).mono fun _ _ => trivial

/-- A text that begins with neither a blank nor a bracket and fits a literal is read as one before an
angle bracket or a square one. -/
theorem reads_unit_literal {text : List Char} (h : literalFit text = .whole) {c : Char}
    (hhead : text.head? = some c) (hc : c ∉ openings) {d : Char} (hd : d ∈ ['<', '['])
    (rest : List Char) : Reads (unit body) text (d :: rest) fun _ => True := by
  have hne : text ≠ [] := by
    rintro rfl
    cases hhead
  have hmark : Lexeme.isInked d = true ∧ d ≠ '.' ∧ d ≠ '"' ∧ d ≠ '\\' ∧ Lexeme.isPlain d = false := by
    simp only [List.mem_cons, List.not_mem_nil, or_false] at hd
    rcases hd with rfl | rfl <;> decide
  obtain ⟨hink, hdot, hquote, hends⟩ := hmark
  have hahead : ahead (d :: rest) = d :: rest :=
    Lexeme.ahead_eq_self (Lexeme.blankLength_of_inked hink rest)
  refine reads_unit (reads_atom_of_literal ?_ ?_) (by simpa [hahead] using hdot)
  · intro b hb hhead'
    rw [List.head?_append, hhead] at hhead'
    cases hhead'
    exact hc hb
  · refine reads_literal_of_whole h hne (Lexeme.endsLiteral_cons hends _) (refuses_description ?_)
    simpa [hahead] using hquote

/-- An option and the argument that is joined to it are read as a subword. -/
theorem reads_juxtaposition_joined {text name : List Char} (htext : literalFit text = .whole) {c : Char}
    (hhead : text.head? = some c) (hc : c ∉ openings) (h : NameText (String.ofList name))
    (hrest : EndsUnit rest) (hdots : (ahead rest).head? ≠ some '.') :
    Reads (juxtaposition body) (text ++ angled name) rest fun _ => True := by
  have hfirst : Reads (unit body) text (angled name ++ rest) fun _ => True :=
    reads_unit_literal htext hhead hc (by decide) _
  have hsecond : Reads (unit body) (angled name) rest fun _ => True :=
    reads_unit (reads_atom_angled h rest) hdots
  exact (reads_juxtaposition_two hfirst hsecond (List.cons_ne_nil _ _) hrest).mono fun _ _ => trivial

/-- An option and the optional argument that is joined to it are read as a subword. -/
theorem reads_juxtaposition_optionalJoined {text name : List Char} (htext : literalFit text = .whole)
    {c : Char} (hhead : text.head? = some c) (hc : c ∉ openings) (h : NameText (String.ofList name))
    (hrest : EndsUnit rest) (hdots : (ahead rest).head? ≠ some '.') :
    Reads (juxtaposition expr) (text ++ '[' :: '=' :: (angled name ++ [']'])) rest fun _ => True := by
  have hclosing : StopsFallback (']' :: rest) := stopsFallback_of_closing (by decide) rest
  have hcontent : Reads expr (['='] ++ angled name) (']' :: rest) fun _ => True := by
    rw [expr_eq_fallback]
    exact reads_fallback_of_item (reads_item
      (reads_juxtaposition_joined (by decide) rfl (by decide) h hclosing.unit hclosing.dots)
      hclosing.quote) hclosing
  have hsecond : Reads (unit expr) ('[' :: '=' :: (angled name ++ [']'])) rest fun _ => True :=
    reads_unit ((reads_atom_optional (Lexeme.blankLength_of_inked rfl _) hcontent).mono
      fun _ _ => trivial) hdots
  have hfirst : Reads (unit expr) text ('[' :: '=' :: (angled name ++ [']']) ++ rest) fun _ => True :=
    reads_unit_literal htext hhead hc (by decide) _
  exact (reads_juxtaposition_two hfirst hsecond (List.cons_ne_nil _ _) hrest).mono fun _ _ => trivial

/-! ### Reading names -/

section

variable {s : Spelling}

/-- The name of an option begins with no opening mark. -/
theorem head_name_ne (s : Spelling) (tail : List Char) :
    ∀ d ∈ openings, (s.name ++ tail).head? ≠ some d := by
  intro d hd hhead
  rw [List.head?_append, s.dashed] at hhead
  cases hhead
  revert hd
  decide

theorem blankLength_name (s : Spelling) (tail : List Char) : blankLength false (s.name ++ tail) = 0 := by
  obtain ⟨cs, hcs⟩ := List.head?_eq_some_iff.mp s.dashed
  rw [hcs]
  exact Lexeme.blankLength_of_inked rfl _

theorem blankLength_spelling (s : Spelling) (tail : List Char) :
    blankLength false (s.text ++ tail) = 0 := by
  rw [Spelling.text, List.append_assoc]
  exact blankLength_name s _

theorem name_ne_nil (s : Spelling) : s.name ≠ [] := by
  intro hnil
  have hdashed := s.dashed
  rw [hnil] at hdashed
  cases hdashed

/-- The name of an option is read as a literal if it fits one. -/
theorem reads_atom_name (h : literalFit s.name = .whole) (hends : EndsLiteral rest)
    (hrefuses : Refuses description rest) : Reads (atom body) s.name rest fun _ => True :=
  reads_atom_of_literal (head_name_ne s rest) (reads_literal_of_whole h (name_ne_nil s) hends hrefuses)

/-- A name is read with the word behind it, if that is in brackets. -/
theorem reads_sequence_name {word : List Char} (h : literalFit s.name = .whole)
    (hword : ∃ c ∈ openings, word.head? = some c) (hread : Reads (atom body) word rest fun _ => True)
    (hrest : StopsSequence rest) :
    Reads (sequence body) (s.name ++ ' ' :: word) rest fun _ => True := by
  obtain ⟨c, hc, hhead⟩ := hword
  obtain ⟨cs, rfl⟩ := List.head?_eq_some_iff.mp hhead
  have hstops : StopsItem ([' '] ++ c :: cs ++ rest) := stopsItem_of_opening hc _
  have hname : Reads (item body) s.name ([' '] ++ c :: cs ++ rest) fun _ => True :=
    reads_item_of_atom (reads_atom_name h hstops.unit.literal (refuses_description hstops.quote)) hstops
  have hblank : Reads blanks [' '] (c :: cs ++ rest) fun _ => True :=
    reads_blanks [' '] Lexeme.isSpace_of_mem_singleton (by decide)
      (Lexeme.blankLength_of_inked (Lexeme.isInked_of_opening hc) _)
  exact (reads_joined_two hname hblank (reads_item_of_atom hread hrest.toStopsItem)
    (List.cons_ne_nil _ _) (refuses_further_item hrest.item)).mono fun _ _ => trivial

/-- A name is read with the argument that is joined to it. -/
theorem reads_juxtaposition_spelling (h : literalFit s.name = .whole) (hnamed : Named s.argument)
    {name : List Char}
    (hjoined : s.argument = some (.joined, name) ∨ s.argument = some (.optionalJoined, name))
    (hrest : EndsUnit rest) (hdots : (ahead rest).head? ≠ some '.') :
    Reads (juxtaposition expr) s.text rest fun _ => True := by
  rw [Spelling.text]
  rcases hjoined with hjoined | hjoined
  · have hname : NameText (String.ofList name) := hnamed (.joined, name) hjoined
    have hfit : literalFit (s.name ++ ['=']) = .whole := by
      rw [Lexeme.literalFit_append h]
      decide
    have hhead : (s.name ++ ['=']).head? = some '-' := by rw [List.head?_append, s.dashed]; rfl
    have hread : Reads (juxtaposition expr) (s.name ++ ['='] ++ angled name) rest fun _ => True :=
      reads_juxtaposition_joined hfit hhead (by decide) hname hrest hdots
    rw [hjoined, argumentText]
    rwa [List.append_assoc] at hread
  · have hname : NameText (String.ofList name) := hnamed (.optionalJoined, name) hjoined
    rw [hjoined]
    exact reads_juxtaposition_optionalJoined h s.dashed (by decide) hname hrest hdots

/-- A spelling of an option is read as a whole if the name fits a literal. -/
theorem readsWhole_spelling (h : literalFit s.name = .whole) (hnamed : Named s.argument) :
    ReadsWhole expr s.text where
  inked := blankLength_spelling s
  reads tail htail := by
    have hjoined : ∀ name, s.argument = some (.joined, name) ∨ s.argument = some (.optionalJoined, name) →
        Reads (sequence expr) s.text tail fun _ => True := by
      intro name hname
      exact reads_sequence_one (reads_item
        (reads_juxtaposition_spelling h hnamed hname htail.unit htail.dots) htail.quote) htail
    match hargument : s.argument with
    | none =>
      rw [Spelling.text, hargument, argumentText, List.append_nil]
      have hatom : Reads (atom expr) s.name tail fun _ => True :=
        reads_atom_name h htail.unit.literal (refuses_description htail.quote)
      exact reads_sequence_one (reads_item_of_atom hatom htail.toStopsItem) htail
    | some (.word, name) =>
      rw [Spelling.text, hargument]
      exact reads_sequence_name h ⟨'<', by decide, rfl⟩
        (reads_atom_angled (hnamed (.word, name) hargument) tail) htail
    | some (.optionalWord, name) =>
      rw [Spelling.text, hargument]
      exact reads_sequence_name h ⟨'[', by decide, rfl⟩
        (reads_atom_optional_angled (hnamed (.optionalWord, name) hargument) tail) htail
    | some (.joined, name) => exact hjoined name (.inl hargument)
    | some (.optionalJoined, name) => exact hjoined name (.inr hargument)

end

/-! ### Reading branches -/

/-- Joined texts begin with no blank if none of them does. -/
theorem blankLength_intercalate_texts (separator : List Char) {texts : List (List Char)}
    (hne : texts ≠ []) (h : ∀ t ∈ texts, ∀ tail, blankLength false (t ++ tail) = 0) (tail : List Char) :
    blankLength false (separator.intercalate texts ++ tail) = 0 := by
  cases texts with
  | nil => exact (hne rfl).elim
  | cons t ts =>
    rw [intercalate_cons, List.append_assoc]
    exact h t (by simp) _

theorem blankLength_spellings (e : Entry) (tail : List Char) :
    blankLength false ([' ', '|', ' '].intercalate (e.spellings.map Spelling.text) ++ tail) = 0 := by
  refine blankLength_intercalate_texts _ (by simpa using e.spellings_ne_nil) ?_ tail
  intro t ht tail
  obtain ⟨s, -, rfl⟩ := List.mem_map.mp ht
  exact blankLength_spelling s tail

/-- An option whose names fit is read up to the blank behind it, unless it is nothing but a name. -/
theorem reads_expression {e : Entry} (hnamed : Named e.argument)
    (h : ∀ s ∈ e.spellings, literalFit s.name = .whole) :
    (e.subject = .item ∧ ∀ rest, EndsUnit rest → (ahead rest).head? ≠ some '.' →
      Reads (juxtaposition expr) e.expression.toList rest fun _ => True) ∨
    (e.subject = .literal ∧ ∃ s, e.spellings = [s] ∧ e.expression.toList = s.name) := by
  rcases e.expression_cases with ⟨hitem, hgroup⟩ | ⟨s, hs, htext, ⟨hliteral, hnone⟩ | ⟨hitem, name, hjoined⟩⟩
  · refine .inl ⟨hitem, fun rest hrest hdots => ?_⟩
    have hwhole : ∀ t ∈ e.spellings.map Spelling.text, ReadsWhole expr t := by
      intro t ht
      obtain ⟨s, hs, rfl⟩ := List.mem_map.mp ht
      exact readsWhole_spelling (h s hs) (Entry.named_of_mem_spellings hnamed hs)
    have hcontent := reads_fallback_texts [' '] Lexeme.isSpace_of_mem_singleton
      (by simpa using e.spellings_ne_nil) hwhole (stopsFallback_of_closing (c := ')') (by decide) rest)
    rw [← expr_eq_fallback] at hcontent
    rw [hgroup]
    exact reads_juxtaposition_one
      (reads_unit (reads_atom_bracketed (blankLength_spellings e _) hcontent) hdots) hrest
  · refine .inr ⟨hliteral, s, hs, ?_⟩
    rw [htext, Spelling.text, hnone, argumentText, List.append_nil]
  · refine .inl ⟨hitem, fun rest hrest hdots => ?_⟩
    have hin : s ∈ e.spellings := by simp [hs]
    rw [htext]
    exact reads_juxtaposition_spelling (h s hin) (Entry.named_of_mem_spellings hnamed hin) hjoined
      hrest hdots

theorem blankLength_opening (e : Entry) (tail : List Char) :
    blankLength false (e.opening ++ tail) = 0 := by
  rw [Entry.opening, List.append_assoc]
  rcases e.expression_cases with ⟨-, hgroup⟩ | ⟨s, -, htext, -⟩
  · rw [hgroup]
    exact Lexeme.blankLength_of_inked rfl _
  · rw [htext]
    exact blankLength_spelling s _

/-- Behind names that fit, the sequence goes on with the description. -/
theorem sequence_of_opening {e : Entry} (hnamed : Named e.argument)
    (hnames : ∀ s ∈ e.spellings, literalFit s.name = .whole) {cursor : Cursor} {more : List Char}
    (hcursor : cursor.rest = e.opening ++ more) :
    ∃ x next, next.rest = [' '] ++ '"' :: more ∧
      sequence expr cursor = some (x, finish expr e.subject next) := by
  have hdots : (ahead (' ' :: '"' :: more)).head? ≠ some '.' := by simp [Lexeme.ahead_quotation]
  have hcursor' : cursor.rest = e.expression.toList ++ ' ' :: '"' :: more := by
    simpa [Entry.opening] using hcursor
  rcases reads_expression hnamed hnames with ⟨hsubject, hread⟩ | ⟨hsubject, s, hs, hname⟩
  · obtain ⟨x, next, hx, hnext, -⟩ := hread _ (endsUnit_of_space rfl _) hdots cursor hcursor'
    obtain ⟨y, hy⟩ := item_of_juxtaposition hx
    obtain ⟨z, hz⟩ := sequence_of_item hy
    refine ⟨z, next, hnext, ?_⟩
    rw [hz, hsubject, finish, afterUnit_of_refuses]
    · exact refuses_dots (hnext ▸ hdots)
    · rw [hnext]
      exact refuses_atom (endsUnit_of_space rfl _)
  · rw [hname] at hcursor'
    obtain ⟨read, hread⟩ := Lexeme.literal_of_whole (hnames s (by simp [hs])) (name_ne_nil s)
      (Lexeme.endsLiteral_cons (c := ' ') (by decide) ('"' :: more))
    obtain ⟨x, hx⟩ : ∃ x, sequence expr cursor =
        some (x, finish expr .literal (cursor.advance s.name.length)) :=
      sequence_of_literal (hcursor' ▸ head_name_ne s _) (hcursor' ▸ hread)
    refine ⟨x, cursor.advance s.name.length, ?_, by rw [hx, hsubject]⟩
    rw [Cursor.rest_advance, hcursor', List.drop_left]
    rfl

section

variable {e : Entry} (hnamed : Named e.argument)
  (hnames : ∀ s ∈ e.spellings, literalFit s.name = .whole)

include hnamed hnames

/-- What a sequence leaves that begins with names that fit is told by the place that the text behind them
leads to. -/
theorem sequence_settles {S : List Char → Prop} {text : List Char}
    (h : Settles S ((Place.quoted e.subject.next).run text) rest) {cursor : Cursor}
    (hcursor : cursor.rest = e.opening ++ (text ++ rest)) :
    ∃ x last, sequence expr cursor = some (x, last) ∧ S last.rest := by
  obtain ⟨x, next, hnext, hx⟩ := sequence_of_opening hnamed hnames hcursor
  have hsubject : e.subject ≠ .nothing := by
    rcases reads_expression hnamed hnames with ⟨hitem, -⟩ | ⟨hliteral, -⟩
    · simp [hitem]
    · simp [hliteral]
  refine ⟨x, _, hx, finish_of_quote hsubject Lexeme.isSpace_of_mem_singleton ?_ h hnext⟩
  intro later _ hlater last hlast
  refine finish_settles consumes_expr (fun hliteral => ?_) ?_ hlast
  · cases hsubject' : e.subject <;> rw [hsubject'] at hliteral <;> cases hliteral
  · rwa [Subject.place_next]

/-- A text that ends between quotes is read with the quote that closes it. -/
theorem readsWhole_of_quoted {text : List Char} {subject : Subject}
    (h : (Place.quoted e.subject.next).run text = .quoted subject) :
    ReadsWhole expr (e.opening ++ (text ++ ['"'])) where
  inked tail := by
    rw [List.append_assoc]
    exact blankLength_opening e _
  reads tail htail := by
    intro cursor hcursor
    have hclosed : Settles (· = tail) ((Place.quoted e.subject.next).run text) ('"' :: tail) := by
      rw [h]
      exact .closed htail rfl
    obtain ⟨x, last, hx, hlast⟩ := sequence_settles hnamed hnames hclosed (by simpa using hcursor)
    exact ⟨x, last, hx, hlast, trivial⟩

/-- If the reading of a description settles where it is halted, so does that of the branch. -/
theorem leaves_of_settles {text : List Char}
    (h : Settles Halted ((Place.quoted e.subject.next).run text) rest) :
    Leaves (sequence expr) (e.opening ++ (text ++ rest)) Halted := by
  intro cursor hcursor a last hread
  obtain ⟨x, last', hx, hlast⟩ := sequence_settles hnamed hnames h hcursor
  rw [hread] at hx
  cases hx
  exact hlast

end

/-- A sequence gets no further than to a refused name, and brackets around it are never closed. -/
theorem leaves_of_refused_name {e : Entry} (hnamed : Named e.argument)
    {earlier later : List Spelling} {s : Spelling} (hspellings : e.spellings = earlier ++ s :: later)
    (hearlier : ∀ s' ∈ earlier, literalFit s'.name = .whole) (h : literalFit s.name = .refused)
    (tail : List Char) : Leaves (sequence expr) (e.opening ++ tail) Halted := by
  have hname : ∀ more, Leaves (sequence expr) (s.text ++ more) Halted := by
    intro more
    rw [Spelling.text, List.append_assoc]
    exact leaves_sequence_of_refused (head_name_ne s _) h
  rw [Entry.opening, List.append_assoc]
  rcases e.expression_cases with ⟨-, hgroup⟩ | ⟨s', hs', htext, -⟩
  · have hwhole : ∀ t ∈ earlier.map Spelling.text, ReadsWhole expr t := by
      intro t ht
      obtain ⟨s', hs', rfl⟩ := List.mem_map.mp ht
      exact readsWhole_spelling (hearlier s' hs')
        (Entry.named_of_mem_spellings hnamed (by simp [hspellings, hs']))
    have hbody : ∀ more, Leaves expr
        ([' ', '|', ' '].intercalate (e.spellings.map Spelling.text) ++ more) Blocked := by
      intro more
      rw [hspellings, List.map_append, List.map_cons, intercalate_append_cons, expr_eq_fallback]
      exact leaves_fallback_texts [' '] Lexeme.isSpace_of_mem_singleton (blankLength_spelling s _)
        (hname _) hwhole
    rw [hgroup, bracketed, List.cons_append, List.append_assoc]
    exact (refuses_atom_of_blocked (blankLength_spellings e _) (hbody _)).sequence.leaves Halted
  · obtain rfl : s' = s := by
      rw [hs'] at hspellings
      cases earlier with
      | nil => cases hspellings; rfl
      | cons _ earlier => simp at hspellings
    rw [htext]
    exact hname _

/-! ### Reading the grammar -/

theorem readsWhole_x : ReadsWhole body ['x'] where
  inked _ := Lexeme.blankLength_of_inked rfl _
  reads tail htail := by
    have hliteral : Reads literal ['x'] tail fun _ => True :=
      reads_literal_of_whole (by decide) (by decide) htail.unit.literal (refuses_description htail.quote)
    have hatom : Reads (atom body) ['x'] tail fun _ => True := by
      refine reads_atom_of_literal ?_ hliteral
      rintro d hd ⟨⟩
      revert hd
      decide
    exact reads_sequence_one (reads_item_of_atom hatom htail.toStopsItem) htail

section

variable {content : List Char}

/-- The call of a command with the given text behind the command. -/
def callText (content : List Char) : List Char := ['c', 'm', 'd', ' '] ++ content

/-- The expression of a call is what stands behind its head. -/
theorem call_eq (hink : blankLength false content = 0) {cursor : Cursor}
    (hcursor : cursor.rest = callText content) :
    ∃ head start, start.rest = content ∧
      call cursor = (expr start).bind fun x =>
        (terminator x.2).bind fun y => some (.call head x.1, y.2) := by
  have hfit : literalFit ['c', 'm', 'd'] = .whole := by decide
  obtain ⟨head, hhead⟩ := Lexeme.literal_of_whole hfit (by decide)
    (Lexeme.endsLiteral_cons (c := ' ') (by decide) content)
  obtain ⟨found, c₁, h₁, hc₁, hfound⟩ := reads_ofScan hhead cursor hcursor
  obtain ⟨⟨⟩, c₂, h₂, hc₂, -⟩ :=
    reads_blanks [' '] Lexeme.isSpace_of_mem_singleton (by decide) hink c₁ hc₁
  refine ⟨found, c₂, hc₂, ?_⟩
  simp [call, h₁, h₂]

theorem isSpace_of_mem_indentation : ∀ c ∈ ['\n', ' '], Lexeme.isSpace c = true := by
  simp [Lexeme.isSpace]

/-- The end of the statement stops the expression. -/
theorem stopsFallback_of_end : StopsFallback ['\n', ';'] := by
  have hgap : ∀ c ∈ ['\n'], Lexeme.isSpace c = true := by simp [Lexeme.isSpace]
  exact ⟨stopsSequence_of_mark hgap (by decide) [], by decide⟩

/-- A call is read as a statement if its expression is read up to the end. -/
theorem reads_statement_call (hink : blankLength false (content ++ ['\n', ';']) = 0)
    (h : Reads expr content ['\n', ';'] fun _ => True) :
    Reads statement (callText (content ++ ['\n', ';'])) [] fun _ => True := by
  intro cursor hcursor
  rw [List.append_nil] at hcursor
  obtain ⟨head, start, hstart, hcall⟩ := call_eq hink hcursor
  obtain ⟨e, next, he, hnext, -⟩ := h start hstart
  obtain ⟨⟨⟩, last, hlast, hrest, -⟩ : ∃ u last, terminator next = some (u, last) ∧ last.rest = [] ∧ True :=
    reads_after_blanks ['\n'] (by simp [Lexeme.isSpace]) (Lexeme.blankLength_of_inked rfl _)
      (reads_exactly ";" []) next hnext
  refine ⟨.call head e, skipBlanks last, ?_, ?_, trivial⟩
  · rw [he, Option.bind_some, hlast, Option.bind_some] at hcall
    simp [statement, hcall]
  · rw [rest_skipBlanks, hrest]
    rfl

/-- Only an opening angle begins a definition. -/
theorem refuses_definition {text : List Char} (h : text.head? ≠ some '<') : Refuses definition text := by
  have hshell : Lexeme.nameForShell text = none := by
    rw [Lexeme.nameForShell.eq_def]
    split
    · exact (h rfl).elim
    · rfl
  have hname : Lexeme.name text = none := by
    rw [Lexeme.name.eq_def]
    split
    · exact (h rfl).elim
    · rfl
  have hdefined : Refuses definedName text :=
    Refuses.orElse (refuses_ofScan hshell).bind (refuses_ofScan hname).bind
  exact hdefined.bind

/-- A call is refused if the reading of its expression is blocked. -/
theorem refuses_statement_call (hink : blankLength false content = 0)
    (h : Leaves expr content Blocked) : Refuses statement (callText content) := by
  intro cursor hcursor
  obtain ⟨head, start, hstart, hcall⟩ := call_eq hink hcursor
  have hnone : call cursor = none := by
    rw [hcall]
    cases hread : expr start with
    | none => rfl
    | some found =>
      have hblocked := h start hstart found.1 found.2 hread
      have hend : terminator found.2 = none :=
        refuses_exactly_of_head rfl (fun hhead => hblocked.closing ';' hhead (by decide)) _
          (rest_skipBlanks found.2)
      rw [Option.bind_some, hend, Option.bind_none]
  have hhead : (callText content).head? ≠ some '<' := by
    change some 'c' ≠ some '<'
    decide
  have hdefinition : definition cursor = none := refuses_definition hhead cursor hcursor
  simp [statement, hnone, hdefinition]

/-- The text of a call begins with no blank. -/
theorem rest_callText : (skipBlanks ⟨(String.ofList (callText content)).toList, 0, 0⟩).rest =
    callText content := by
  rw [rest_skipBlanks, String.toList_ofList]
  exact Lexeme.ahead_eq_self (Lexeme.blankLength_of_inked rfl _)

/-- The text of a call is parsed if its expression is read up to the end. -/
theorem parse_callText (last : Text.LastReturn) (hink : blankLength false (content ++ ['\n', ';']) = 0)
    (h : Reads expr content ['\n', ';'] fun _ => True) :
    ∃ g, Grammar.parse (String.ofList (callText (content ++ ['\n', ';']))) last = .ok g := by
  obtain ⟨x, stop, hmany, hstop, -⟩ := many_of_reads (reads_statement_call hink h)
    (List.cons_ne_nil _ _) refuses_statement (rest_callText.trans (List.append_nil _).symm)
  refine ⟨⟨[x]⟩, ?_⟩
  rw [Grammar.parse, statements, hmany]
  simp [hstop]

/-- The text of a call is not parsed if the reading of its expression is blocked. -/
theorem parse_callText_ne (last : Text.LastReturn) (hink : blankLength false content = 0)
    (h : Leaves expr content Blocked) (g : Grammar) :
    Grammar.parse (String.ofList (callText content)) last ≠ .ok g := by
  have hmany := many_of_refuses (rest_callText ▸ refuses_statement_call hink h)
  have hleft : ¬ (callText content).isEmpty = true := Bool.false_ne_true
  rw [Grammar.parse, statements, hmany]
  dsimp only
  rw [rest_callText, if_neg hleft]
  rintro ⟨⟩

end

end Parser

namespace Help

open Lexeme (Fit literalFit quotedFit)
open ShellCompletion.Parser (Place ReadsWhole Leaves Halted)

/-- The first branch can be read, maybe together with others that a quoted text goes on in, or it makes
the sequence halt that it is part of. -/
theorem branch_cases {e : Entry} {es : List Entry} (hnamed : Named e.argument)
    (h : fit (e :: es) ≠ .leaking) :
    (∃ text later, ReadsWhole Parser.expr text ∧
      branches (e :: es) = ['\n', ' ', '|', ' '] ++ text ++ branches later ∧
      (∃ closed, e :: es = closed ++ later ∧ closed ≠ []) ∧ fit (e :: es) = fit later) ∨
    (fit (e :: es) = .refused ∧ ∃ bad, Lexeme.blankLength false bad = 0 ∧
      Leaves (Parser.sequence Parser.expr) bad Halted ∧
      branches (e :: es) ++ ['\n', ';'] = ['\n', ' ', '|', ' '] ++ bad) := by
  have hfit : fit (e :: es) = fitOf (afterAll (e.after none) es) := rfl
  rw [hfit] at h ⊢
  rw [branches_cons]
  cases hfirst : Fit.first (e.spellings.map fun s => literalFit s.name) with
  | leaking =>
    have hafter : e.after none = some .leaking := by rw [Entry.after, hfirst]
    rw [hafter, afterAll_of_run_eq Place.run_leaking rfl] at h
    exact (h rfl).elim
  | refused =>
    have hafter : e.after none = some .refused := by rw [Entry.after, hfirst]
    obtain ⟨earlier, s, later, hspellings, hearlier, hrefused⟩ := Fit.exists_of_first hfirst (by decide)
    rw [hafter, afterAll_of_run_eq Place.run_refused rfl]
    refine .inr ⟨rfl, e.opening ++ (e.description ++ '"' :: (branches es ++ ['\n', ';'])),
      Parser.blankLength_opening e _, ?_, by simp⟩
    exact Parser.leaves_of_refused_name hnamed hspellings hearlier hrefused _
  | whole =>
    have hnames : ∀ s ∈ e.spellings, literalFit s.name = .whole := by
      simpa using Fit.first_eq_whole_iff.mp hfirst
    have hafter : e.after none = ((Place.quoted e.subject.next).run e.description).close := by
      rw [Entry.after, hfirst]
    rw [hafter] at h ⊢
    rcases ((Place.quoted e.subject.next).run e.description).close_cases with
      ⟨subject, hquoted, hclose⟩ | hclose
    · rw [hclose] at h ⊢
      exact .inl ⟨_, es, Parser.readsWhole_of_quoted hnamed hnames hquoted, by simp, ⟨[e], rfl, by simp⟩, rfl⟩
    · rw [hclose] at h ⊢
      have hrun : ∀ text, (((Place.quoted e.subject.next).run e.description).step '"').run text =
          (Place.quoted e.subject.next).run (e.description ++ '"' :: text) :=
        fun text => by rw [Place.run_append, Place.run_cons]
      rcases open_cases _ es h with ⟨text, later, subject, htext, hquoted, ⟨closed, hes, -⟩, hfit⟩ |
        ⟨hfit, text, rest, htext, hsettles⟩
      · exact .inl ⟨_, later, Parser.readsWhole_of_quoted hnamed hnames (hrun text ▸ hquoted),
          by simp [htext], ⟨e :: closed, by rw [hes]; rfl, by simp⟩, hfit⟩
      · refine .inr ⟨hfit, _, Parser.blankLength_opening e _,
          Parser.leaves_of_settles hnamed hnames (hrun text ▸ hsettles), ?_⟩
        simp [htext]

/-- Branches can be read one after the other, up to one that makes the sequence halt that it is part of. -/
theorem branches_cases (es : List Entry) (hnamed : ∀ e ∈ es, Named e.argument) (h : fit es ≠ .leaking) :
    ∃ texts, (∀ t ∈ texts, ReadsWhole Parser.expr t) ∧
      ((fit es = .whole ∧ branches es = texts.flatMap (['\n', ' ', '|', ' '] ++ ·)) ∨
        (fit es = .refused ∧ ∃ bad, Lexeme.blankLength false bad = 0 ∧
          Leaves (Parser.sequence Parser.expr) bad Halted ∧
          branches es ++ ['\n', ';'] = (texts ++ [bad]).flatMap (['\n', ' ', '|', ' '] ++ ·))) := by
  induction hlength : es.length using Nat.strongRecOn generalizing es with
  | ind length ih =>
    cases es with
    | nil => exact ⟨[], by simp, .inl ⟨rfl, rfl⟩⟩
    | cons e es =>
      rcases branch_cases (hnamed e (by simp)) h with
        ⟨text, later, hwhole, hbranches, ⟨closed, hes, hne⟩, hfit⟩ | ⟨hfit, bad, hink, hbad, hbranches⟩
      · have hless : later.length < length := by
          rw [← hlength, hes, List.length_append]
          have hpos := List.length_pos_of_ne_nil hne
          omega
        have hlater : ∀ e' ∈ later, Named e'.argument := fun e' he' => hnamed e' (by simp [hes, he'])
        obtain ⟨texts, htexts, hcases⟩ := ih _ hless later hlater (hfit ▸ h) rfl
        refine ⟨text :: texts, List.forall_mem_cons.mpr ⟨hwhole, htexts⟩, ?_⟩
        rw [hfit, hbranches]
        rcases hcases with ⟨hfit', hrest⟩ | ⟨hfit', bad, hink, hbad, hrest⟩
        · exact .inl ⟨hfit', by rw [hrest, List.flatMap_cons]⟩
        · refine .inr ⟨hfit', bad, hink, hbad, ?_⟩
          rw [List.append_assoc, hrest]
          simp
      · exact ⟨[], by simp, .inr ⟨hfit, bad, hink, hbad, by simpa using hbranches⟩⟩

/-- Each branch ends its line, so a line feed stands before every bar. -/
theorem flatMap_branch (es : List Entry) :
    '\n' :: es.flatMap (fun e => e.branch.toList) = branches es ++ ['\n'] := by
  induction es with
  | nil => rfl
  | cons e es ih =>
    rw [List.flatMap_cons, Entry.toList_branch, branches_cons]
    simp [Entry.text, ih]

/-- The outline of a help text is made of the branches of its entries. -/
theorem toList_outline (text : String) (last : Text.LastReturn) :
    (outline text last).toList =
      (entries (Text.lines last text.toList)).flatMap fun e => e.branch.toList := by
  rw [outline]
  induction entries (Text.lines last text.toList) with
  | nil => rfl
  | cons e es ih => rw [List.map_cons, String.join_cons, String.toList_append, ih, List.flatMap_cons]

/-- The outline behind a call is the text of the call with all branches. -/
theorem callText_outline (text : String) (last : Text.LastReturn) :
    "cmd x\n" ++ outline text last ++ ";" = String.ofList (Parser.callText
      ('x' :: (branches (entries (Text.lines last text.toList)) ++ ['\n', ';']))) := by
  have hlines := flatMap_branch (entries (Text.lines last text.toList))
  have hstart : "cmd x\n".toList = ['c', 'm', 'd', ' '] ++ ['x'] ++ ['\n'] := by decide
  have hend : ";".toList = [';'] := by decide
  refine String.ofList_toList.symm.trans (congrArg String.ofList ?_)
  rw [String.toList_append, String.toList_append, toList_outline, hstart, hend,
    List.append_assoc (['c', 'm', 'd', ' '] ++ ['x']), List.singleton_append, hlines, Parser.callText]
  simp

section

variable {text : String} {last : Text.LastReturn}

/-- Branches that fit can be read. -/
theorem exists_parse_of_fit (h : fit (entries (Text.lines last text.toList)) = .whole) :
    ∃ g, Grammar.parse ("cmd x\n" ++ outline text last ++ ";") last = .ok g := by
  have hclosed : fit (entries (Text.lines last text.toList)) ≠ .leaking := by
    rw [h]
    decide
  obtain ⟨texts, htexts, ⟨-, hbranches⟩ | ⟨hrefused, -⟩⟩ :=
    branches_cases _ (fun e he => named_of_mem_entries he) hclosed
  · have hcontent : 'x' :: (branches (entries (Text.lines last text.toList)) ++ ['\n', ';']) =
        ['\n', ' ', '|', ' '].intercalate (['x'] :: texts) ++ ['\n', ';'] := by
      rw [hbranches, Parser.intercalate_cons]
      rfl
    have hreads := Parser.reads_fallback_texts ['\n', ' '] Parser.isSpace_of_mem_indentation
      (List.cons_ne_nil _ _) (List.forall_mem_cons.mpr ⟨Parser.readsWhole_x, htexts⟩)
      Parser.stopsFallback_of_end
    rw [← Parser.expr_eq_fallback] at hreads
    rw [callText_outline, hcontent]
    exact Parser.parse_callText last (hcontent ▸ Lexeme.blankLength_of_inked rfl _) hreads
  · rw [h] at hrefused
    cases hrefused

/-- Branches of which one is refused cannot be read. -/
theorem parse_ne_of_fit (h : fit (entries (Text.lines last text.toList)) = .refused) (g : Grammar) :
    Grammar.parse ("cmd x\n" ++ outline text last ++ ";") last ≠ .ok g := by
  have hclosed : fit (entries (Text.lines last text.toList)) ≠ .leaking := by
    rw [h]
    decide
  obtain ⟨texts, htexts, ⟨hwhole, -⟩ | ⟨-, bad, hink, hbad, hbranches⟩⟩ :=
    branches_cases _ (fun e he => named_of_mem_entries he) hclosed
  · rw [h] at hwhole
    cases hwhole
  · have hcontent : 'x' :: (branches (entries (Text.lines last text.toList)) ++ ['\n', ';']) =
        ['\n', ' ', '|', ' '].intercalate ((['x'] :: texts) ++ [bad]) := by
      rw [hbranches, List.cons_append, Parser.intercalate_cons]
      rfl
    have hleaves := Parser.leaves_fallback_texts ['\n', ' '] Parser.isSpace_of_mem_indentation hink hbad
      (List.forall_mem_cons.mpr ⟨Parser.readsWhole_x, htexts⟩)
    rw [← Parser.expr_eq_fallback] at hleaves
    rw [callText_outline, hcontent]
    exact Parser.parse_callText_ne last (hcontent ▸ Lexeme.blankLength_of_inked rfl _) hleaves g

example : fit [⟨.short 'f', none, "say \"hi".toList⟩] = .refused := by decide

/-- Names and descriptions that each fit the lexeme that they stand for fit together. -/
theorem fit_of_fits {es : List Entry} (h : ∀ e ∈ es, ∀ fit ∈ e.fits, fit = .whole) : fit es = .whole := by
  induction es with
  | nil => rfl
  | cons e es ih =>
    obtain ⟨hshown, hnames⟩ : quotedFit e.description = .whole ∧
        ∀ s ∈ e.spellings, literalFit s.name = .whole := by simpa [Entry.fits] using h e (by simp)
    have hfirst : Fit.first (e.spellings.map fun s => literalFit s.name) = .whole :=
      Fit.first_eq_whole_iff.mpr (by simpa using hnames)
    have hafter : e.after none = none := by
      rw [Entry.after, hfirst, Place.run_quoted_of_whole hshown]
      rfl
    have hfit : fit (e :: es) = fitOf (afterAll (e.after none) es) := rfl
    rw [hfit, hafter]
    exact ih fun e' he' => h e' (by simp [he'])

/-- A grammar whose call may be any option of a help text can be read if all names and descriptions of
the options fit the lexemes that they stand for. -/
theorem exists_parse_of_fits
    (h : ∀ e ∈ entries (Text.lines last text.toList), ∀ fit ∈ e.fits, fit = .whole) :
    ∃ g, Grammar.parse ("cmd x\n" ++ outline text last ++ ";") last = .ok g :=
  exists_parse_of_fit (fit_of_fits h)

end

/-- A grammar whose call may be any option of a help text can be read exactly if the names and
descriptions of the options fit together, as long as none of them leaks. -/
theorem outline_parses_iff (text : String) (last : Text.LastReturn)
    (hclosed : fit (entries (Text.lines last text.toList)) ≠ .leaking) :
    (∃ g, Grammar.parse ("cmd x\n" ++ outline text last ++ ";") last = .ok g) ↔
      fit (entries (Text.lines last text.toList)) = .whole := by
  refine ⟨?_, exists_parse_of_fit⟩
  rintro ⟨g, hg⟩
  cases hfit : fit (entries (Text.lines last text.toList)) with
  | whole => rfl
  | refused => exact (parse_ne_of_fit hfit g hg).elim
  | leaking => exact (hclosed hfit).elim

/-- A help text with three options. The second one has escapes in its name and in its description, which
goes on in a line of its own. Quotes in the description of the third one end the quoted text and open it
again, so that the word between them is read as a literal. -/
def quotingHelp : String :=
  "  -c, --color=WHEN  use colors\n  --a\\|b  say\n          \\\"no\\\"\n  --say  the \"word\" again"

/-- What is found in it are three options. -/
theorem entries_quotingHelp : entries (Text.lines .kept quotingHelp.toList) =
    [⟨.both 'c' "color".toList, some (.joined, "WHEN".toList), "use colors".toList⟩,
      ⟨.long "a\\|b".toList, none, "say \\\"no\\\"".toList⟩,
      ⟨.long "say".toList, none, "the \"word\" again".toList⟩] := by
  have hlines : Text.lines .kept quotingHelp.toList = ["  -c, --color=WHEN  use colors".toList,
      "  --a\\|b  say".toList, "          \\\"no\\\"".toList, "  --say  the \"word\" again".toList] := by
    decide +kernel
  have hcolor : Entry.ofLine? "  -c, --color=WHEN  use colors".toList =
      some ⟨.both 'c' "color".toList, some (.joined, "WHEN".toList), "use colors".toList⟩ := by
    decide +kernel
  have hsay : Entry.ofLine? "  --a\\|b  say".toList =
      some ⟨.long "a\\|b".toList, none, "say".toList⟩ := by decide +kernel
  have hextended : (Entry.mk (.long "a\\|b".toList) none "say".toList).extend "  --a\\|b  say".toList
      ["          \\\"no\\\"".toList, "  --say  the \"word\" again".toList] =
        (⟨.long "a\\|b".toList, none, "say \\\"no\\\"".toList⟩, 1) := by decide +kernel
  have hword : Entry.ofLine? "  --say  the \"word\" again".toList =
      some ⟨.long "say".toList, none, "the \"word\" again".toList⟩ := by decide +kernel
  have halone : (Entry.mk (.long "say".toList) none "the \"word\" again".toList).extend
      "  --say  the \"word\" again".toList [] =
        (⟨.long "say".toList, none, "the \"word\" again".toList⟩, 0) := by decide +kernel
  rw [hlines, entries_of_line hcolor rfl, List.drop_zero, entries_of_line hsay hextended,
    List.drop_one, List.tail_cons, entries_of_line hword halone, List.drop_zero, entries]

/-- The grammar made from it can be read. -/
theorem outline_parses_iff_quotingHelp :
    fit (entries (Text.lines .kept quotingHelp.toList)) ≠ .leaking ∧
      ∃ g, Grammar.parse ("cmd x\n" ++ outline quotingHelp ++ ";") = .ok g := by
  have hwhole : fit (entries (Text.lines .kept quotingHelp.toList)) = .whole := by
    rw [entries_quotingHelp]
    decide +kernel
  have hclosed : fit (entries (Text.lines .kept quotingHelp.toList)) ≠ .leaking := by
    rw [hwhole]
    decide
  exact ⟨hclosed, (outline_parses_iff quotingHelp .kept hclosed).mpr hwhole⟩

/-- The quote in a description ends it, and what is left of the line cannot be read. -/
theorem outline_unreadable_quote :
    ¬ ∃ g, Grammar.parse ("cmd x\n" ++ outline "-f  say \"hi" ++ ";") = .ok g := by
  have hlines : Text.lines .kept "-f  say \"hi".toList = ["-f  say \"hi".toList] := by decide +kernel
  have hline : Entry.ofLine? "-f  say \"hi".toList = some ⟨.short 'f', none, "say \"hi".toList⟩ := by
    decide +kernel
  have hentries : entries (Text.lines .kept "-f  say \"hi".toList) =
      [⟨.short 'f', none, "say \"hi".toList⟩] := by
    rw [hlines, entries_of_line hline rfl, List.drop_zero, entries]
  have hparse : Grammar.parse ("cmd x\n" ++ String.join [" | -f \"say \"hi\"\n"] ++ ";") =
      .error ⟨0, 0, "cmd x"⟩ := by decide +kernel
  have hbranch : (Entry.mk (.short 'f') none "say \"hi".toList).branch = " | -f \"say \"hi\"\n" := by
    decide +kernel
  rw [outline, hentries, List.map_singleton, hbranch, hparse]
  rintro ⟨g, ⟨⟩⟩

end Help

end ShellCompletion
