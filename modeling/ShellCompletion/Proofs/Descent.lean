import ShellCompletion.Proofs.Reading

/-!
# Where the descent stops

Each parser of the recursive descent reads what the parser below it reads, if nothing follows with which
it goes on itself: dots behind a unit, another unit behind units, a quoted text behind an item, an item
behind blanks, or a bar. What follows decides this by its first character and by the first one behind
blanks.
-/

namespace ShellCompletion

namespace Parser

open Lexeme (ahead blankLength isInked isSpace openings EndsLiteral)

variable {body : Parser Expr} {text rest : List Char} {P : Expr → Prop}

/-! ### Single units -/

/-- One unit, without the dots that may follow it. -/
def atom (body : Parser Expr) : Parser Expr := fun cursor =>
  reference cursor <|> optional body cursor <|> between "(" ")" body cursor <|> command cursor <|>
    literal cursor

/-- Only an opening angle begins a reference. -/
theorem refuses_reference (h : text.head? ≠ some '<') : Refuses reference text := by
  have hname : Lexeme.name text = none := by
    rw [Lexeme.name.eq_def]
    split
    · exact (h rfl).elim
    · rfl
  exact (refuses_ofScan hname).bind

/-- Only the opening mark begins what stands between two marks. -/
theorem refuses_between {opening closing : String} {c : Char} (hopening : opening.toList = [c])
    (h : text.head? ≠ some c) : Refuses (between opening closing body) text :=
  (refuses_exactly_of_head hopening h).bind

/-- Only an opening bracket begins an optional item. -/
theorem refuses_optional (h : text.head? ≠ some '[') : Refuses (optional body) text :=
  (refuses_between rfl h).bind

/-- Only an opening brace begins a command. -/
theorem refuses_command (h : text.head? ≠ some '\x7b') : Refuses command text := by
  have hcommand : Lexeme.command text = none := by
    rw [Lexeme.command, if_neg]
    cases text with
    | nil => decide
    | cons c cs =>
      intro hfront
      obtain ⟨rfl, -⟩ : '\x7b' = c ∧ _ := by simpa using hfront
      exact h rfl
  exact (refuses_ofScan hcommand).bind

theorem refuses_scanLiteral (h : EndsLiteral text) : Refuses (ofScan Lexeme.literal) text := by
  refine refuses_ofScan ?_
  rw [Lexeme.literal, Lexeme.plainRun_of_ends h]
  rfl

/-- No literal begins where one ends. -/
theorem refuses_literal (h : EndsLiteral text) : Refuses literal text :=
  (refuses_scanLiteral h).bind

/-- Text in brackets is read by the parser for what stands between them. -/
theorem reads_between (opening closing : String) {content : List Char}
    (hopening : blankLength false (content ++ (closing.toList ++ rest)) = 0)
    (hclosing : blankLength false (closing.toList ++ rest) = 0)
    (h : Reads body content (closing.toList ++ rest) P) :
    Reads (between opening closing body) (opening.toList ++ (content ++ closing.toList)) rest P := by
  intro cursor hcursor
  rw [List.append_assoc, List.append_assoc] at hcursor
  obtain ⟨⟨⟩, start, hstart, hrest, -⟩ := reads_exactly opening _ cursor hcursor
  obtain ⟨e, stop, he, hstop, hP⟩ := h (skipBlanks start) (by
    rw [rest_skipBlanks, hrest, Lexeme.ahead_eq_self hopening])
  obtain ⟨⟨⟩, last, hlast, hrest, -⟩ := reads_exactly closing rest (skipBlanks stop) (by
    rw [rest_skipBlanks, hstop, Lexeme.ahead_eq_self hclosing])
  refine ⟨e, last, ?_, hrest, hP⟩
  simp [between, hstart, he, hlast]

/-- A name in angles is read as a reference to it. -/
theorem reads_atom_reference {name : String} (hname : Lexeme.NameText name) (rest : List Char) :
    Reads (atom body) (Lexeme.angled name.toList) rest
      fun x => x.withoutSpans = .reference name 0 none := by
  refine Reads.orElse_left ?_
  intro cursor hcursor
  obtain ⟨found, last, hread, hlast, hfound⟩ :=
    reads_ofScan (Lexeme.name_print hname rest) cursor hcursor
  refine ⟨.reference name 0 (some (cursor.spanTo last)), last, ?_, hlast, rfl⟩
  rw [reference, hread, hfound]
  rfl

/-- An expression in brackets is read as an optional item. -/
theorem reads_atom_optional {content : List Char} (hink : blankLength false (content ++ ']' :: rest) = 0)
    (h : Reads body content (']' :: rest) P) :
    Reads (atom body) ('[' :: (content ++ [']'])) rest fun x => ∃ e, x = .optional e ∧ P e := by
  refine Reads.orElse (refuses_reference (by simp)) (Reads.orElse_left ?_)
  intro cursor hcursor
  obtain ⟨e, last, he, hlast, hP⟩ :=
    reads_between "[" "]" hink (Lexeme.blankLength_of_inked rfl _) h cursor hcursor
  exact ⟨.optional e, last, by simp [optional, he], hlast, e, rfl, hP⟩

/-- An expression in parentheses is read as itself. -/
theorem reads_atom_bracketed {content : List Char} (hink : blankLength false (content ++ ')' :: rest) = 0)
    (h : Reads body content (')' :: rest) P) : Reads (atom body) (bracketed content) rest P := by
  refine Reads.orElse (refuses_reference (by simp [bracketed])) ?_
  refine Reads.orElse (refuses_optional (by simp [bracketed])) (Reads.orElse_left ?_)
  exact reads_between "(" ")" hink (Lexeme.blankLength_of_inked rfl _) h

/-- A literal without a description behind it has none. -/
theorem reads_literal_of_scan {source : List Char} {text : String}
    (hscan : Lexeme.literal (source ++ rest) = some (text, source.length))
    (hrefuses : Refuses description rest) :
    Reads literal source rest fun x => x.withoutSpans = .literal text none 0 none := by
  intro cursor hcursor
  obtain ⟨found, last, hread, hlast, hfound⟩ := reads_ofScan hscan cursor hcursor
  have hnone : description last = none := hrefuses last hlast
  refine ⟨.literal text none 0 (some (cursor.spanTo last)), last, ?_, hlast, rfl⟩
  simp [literal, hread, hfound, maybe, hnone]

/-- The written form of a text is read as a literal with this text. -/
theorem reads_literal {text : String} (htext : Lexeme.LiteralText text) (hends : EndsLiteral rest)
    (hquote : (ahead rest).head? ≠ some '"') :
    Reads literal (Lexeme.escape text.toList) rest
      fun x => x.withoutSpans = .literal text none 0 none :=
  reads_literal_of_scan (Lexeme.literal_escape htext hends) (refuses_description hquote)

/-- A description behind a literal is read as that of the literal. -/
theorem reads_literal_described_of_scan {source quotation : List Char} {text shown : String}
    (hscan : Lexeme.literal (source ++ (quotation ++ rest)) = some (text, source.length))
    (hshown : Reads description quotation rest (· = shown)) :
    Reads literal (source ++ quotation) rest
      fun x => x.withoutSpans = .literal text (some shown) 0 none := by
  intro cursor hcursor
  rw [List.append_assoc] at hcursor
  obtain ⟨found, next, hread, hnext, hfound⟩ := reads_ofScan hscan cursor hcursor
  obtain ⟨found', last, hread', hlast, hfound'⟩ := hshown next hnext
  refine ⟨.literal text (some shown) 0 (some (cursor.spanTo last)), last, ?_, hlast, rfl⟩
  simp [literal, hread, hfound, maybe, hread', hfound']

/-- A literal is read together with the description that is written behind it. -/
theorem reads_literal_described {text : String} (htext : Lexeme.LiteralText text)
    (shown : String) (rest : List Char) :
    Reads literal (Lexeme.escape text.toList ++ ' ' :: Lexeme.quote shown.toList) rest
      fun x => x.withoutSpans = .literal text (some shown) 0 none :=
  reads_literal_described_of_scan
    (Lexeme.literal_escape htext (Lexeme.endsLiteral_cons (by decide) _))
    (reads_description [' '] Lexeme.isSpace_of_mem_singleton shown rest)

/-- No unit of another kind begins like a literal. -/
theorem reads_atom_of_literal (hhead : ∀ d ∈ openings, (text ++ rest).head? ≠ some d)
    (h : Reads literal text rest P) : Reads (atom body) text rest P := by
  refine Reads.orElse (refuses_reference (hhead '<' (by decide))) ?_
  refine Reads.orElse (refuses_optional (hhead '[' (by decide))) ?_
  refine Reads.orElse (refuses_between (c := '(') rfl (hhead '(' (by decide))) ?_
  exact Reads.orElse (refuses_command (hhead '\x7b' (by decide))) h

/-- A written literal begins like no other atom, so it is read as one. -/
theorem reads_atom_literal {text : String} (htext : Lexeme.LiteralText text) {shown : List Char}
    (h : Reads literal (Lexeme.escape text.toList ++ shown) rest P) :
    Reads (atom body) (Lexeme.escape text.toList ++ shown) rest P := by
  obtain ⟨c, cs, hc, -, hopening⟩ := Lexeme.escape_eq_cons htext
  refine reads_atom_of_literal ?_ h
  intro d hd heq
  rw [hc] at heq
  cases heq
  exact hopening hd

/-- A pattern of a command is read with its shell. -/
theorem reads_pattern {texts : ShellTexts} {entry : Shell × String} (hentry : entry ∈ texts.entries)
    (rest : List Char) : Reads pattern (printPattern entry) rest (entry = ·) := by
  obtain ⟨shell, text⟩ := entry
  have hshell : shell ∈ [Shell.bash, .fish, .zsh] := by
    obtain ⟨other, hother, htext⟩ := List.mem_filterMap.mp hentry
    obtain ⟨_, -, heq⟩ := Option.map_eq_some_iff.mp htext
    cases heq
    exact hother
  have hname : Lexeme.LiteralText shell.name ∧ Lexeme.escape shell.name.toList = shell.name.toList ∧
      Shell.ofGrammarName? shell.name = some shell := by
    simp only [List.mem_cons, List.not_mem_nil, or_false] at hshell
    rcases hshell with rfl | rfl | rfl <;> exact ⟨by decide, by decide, by decide⟩
  obtain ⟨hliteral, hescape, hknown⟩ := hname
  have hends : EndsLiteral (Lexeme.quote text.toList ++ rest) :=
    Lexeme.endsLiteral_cons (by decide) _
  intro cursor hcursor
  rw [printPattern, ← hescape, ← List.singleton_append, List.append_assoc, List.append_assoc] at hcursor
  obtain ⟨⟨⟩, c₁, h₁, hc₁, -⟩ := reads_exactly "@" _ cursor hcursor
  obtain ⟨found, c₂, h₂, hc₂, hfound⟩ := reads_ofScan (Lexeme.literal_escape hliteral hends) c₁ hc₁
  obtain ⟨found', last, h₃, hlast, hfound'⟩ := reads_ofScan (Lexeme.quoted_quote text rest) c₂ hc₂
  refine ⟨(shell, text), last, ?_, hlast, rfl⟩
  simp [pattern, h₁, h₂, hfound, hknown, h₃, hfound']

/-- Only an at sign begins a pattern. -/
theorem refuses_pattern (h : rest.head? ≠ some '@') : Refuses pattern rest :=
  (refuses_exactly_of_head rfl h).bind

/-- The written form of a command is read as the command with its patterns. -/
theorem reads_command {text : String} (htext : Lexeme.CommandText text) {patterns : Option ShellTexts}
    (hpatterns : ∀ texts ∈ patterns, texts.Printable) (hrest : rest.head? ≠ some '@') :
    Reads command (Lexeme.brace text.toList ++
      (patterns.elim [] ShellTexts.entries).flatMap printPattern) rest
      fun x => x.withoutSpans = .command text patterns 0 none := by
  intro cursor hcursor
  rw [List.append_assoc] at hcursor
  obtain ⟨found, next, hread, hnext, hfound⟩ :=
    reads_ofScan (Lexeme.command_print htext _) cursor hcursor
  have hread' : ∀ entry ∈ patterns.elim [] ShellTexts.entries, ∀ tail, True →
      Reads pattern (printPattern entry) tail (entry = ·) := by
    intro entry hentry tail _
    cases patterns with
    | none => cases hentry
    | some texts => exact reads_pattern hentry tail
  obtain ⟨entries, last, hmany, hlast, hentries⟩ :=
    many_eq (F := fun _ => True) hread' (fun _ _ _ => trivial) trivial (refuses_pattern hrest)
      (fun _ _ => List.cons_ne_nil _ _) next hnext
  rw [List.forall₂_eq_eq_eq] at hentries
  subst hentries
  refine ⟨.command text patterns 0 (some (cursor.spanTo next)), last, ?_, hlast, rfl⟩
  cases patterns with
  | none => simp [command, hread, hfound, hmany]
  | some texts =>
    have hprintable := hpatterns texts rfl
    simp [command, hread, hfound, hmany, hprintable.ne_nil, ShellTexts.foldl_entries hprintable.no_other]

/-- A written command begins like no other atom, so it is read as one. -/
theorem reads_atom_command {printed : List Char} (h : Reads command (Lexeme.brace printed ++ text) rest P) :
    Reads (atom body) (Lexeme.brace printed ++ text) rest P := by
  refine Reads.orElse (refuses_reference (by simp [Lexeme.brace])) ?_
  refine Reads.orElse (refuses_optional (by simp [Lexeme.brace])) ?_
  exact Reads.orElse (refuses_between (c := '(') rfl (by simp [Lexeme.brace])) (Reads.orElse_left h)

/-! ### Units and their lists -/

/-- Whether no unit begins with what follows. -/
structure EndsUnit (rest : List Char) : Prop where
  literal : EndsLiteral rest
  opening : ∀ c ∈ rest.head?, c ∉ openings

/-- What ends a unit begins with no character that begins one. -/
theorem EndsUnit.head_ne {rest : List Char} (h : EndsUnit rest) {c : Char}
    (hc : c ∈ openings ∨ Lexeme.isPlain c = true) : rest.head? ≠ some c := by
  intro hhead
  rcases hc with hc | hc
  · exact h.opening c hhead hc
  · rw [(h.literal c hhead).2] at hc
    cases hc

/-- A character that is neither plain nor an opening mark ends a unit. -/
theorem endsUnit_cons {c : Char}
    (hc : (c ≠ '\\' ∧ Lexeme.isPlain c = false) ∧ c ∉ openings) (cs : List Char) :
    EndsUnit (c :: cs) where
  literal := Lexeme.endsLiteral_cons hc.1 cs
  opening := by
    rintro _ ⟨⟩
    exact hc.2

/-- No unit begins with white space. -/
theorem endsUnit_of_space {c : Char} (hc : isSpace c = true) (cs : List Char) : EndsUnit (c :: cs) := by
  simp only [isSpace, Bool.or_eq_true, decide_eq_true_eq] at hc
  rcases hc with ((rfl | rfl) | rfl) | rfl <;> exact endsUnit_cons (by decide) cs

/-- What an item stops before: no unit follows, nor dots or a quoted text behind blanks. -/
structure StopsItem (rest : List Char) : Prop where
  unit : EndsUnit rest
  dots : (ahead rest).head? ≠ some '.'
  quote : (ahead rest).head? ≠ some '"'

/-- What a sequence stops before: no item follows behind blanks. -/
structure StopsSequence (rest : List Char) : Prop extends StopsItem rest where
  item : EndsUnit (ahead rest)

/-- What an alternative stops before: a bar that follows is the first one of two. -/
structure StopsAlternative (rest : List Char) : Prop extends StopsSequence rest where
  bar : ∀ cs, ahead rest = '|' :: cs → cs.head? = some '|'

/-- What a fallback stops before: no bar follows. -/
structure StopsFallback (rest : List Char) : Prop extends StopsSequence rest where
  bar : (ahead rest).head? ≠ some '|'

theorem StopsFallback.alternative (h : StopsFallback rest) : StopsAlternative rest where
  toStopsSequence := h.toStopsSequence
  bar cs hcs := (h.bar (by rw [hcs]; rfl)).elim

/-- An opening mark behind a space stops an item. -/
theorem stopsItem_of_opening {c : Char} (hc : c ∈ openings) (cs : List Char) :
    StopsItem (' ' :: c :: cs) := by
  have hahead : ahead (' ' :: c :: cs) = c :: cs :=
    Lexeme.ahead_gap [' '] Lexeme.isSpace_of_mem_singleton (Lexeme.isInked_of_opening hc) cs
  constructor
  · exact endsUnit_of_space rfl _
  · rw [hahead]
    rintro ⟨⟩
    revert hc
    decide
  · rw [hahead]
    rintro ⟨⟩
    revert hc
    decide

/-- A closing mark, a semicolon or a bar stops a sequence, also behind blanks. -/
theorem stopsSequence_of_mark {gap : List Char} (hgap : ∀ c ∈ gap, isSpace c = true) {c : Char}
    (hc : c ∈ [')', ']', ';', '|']) (cs : List Char) : StopsSequence (gap ++ c :: cs) := by
  have hmark : isInked c = true ∧ c ≠ '.' ∧ c ≠ '"' ∧
      (c ≠ '\\' ∧ Lexeme.isPlain c = false) ∧ c ∉ openings := by
    simp only [List.mem_cons, List.not_mem_nil, or_false] at hc
    rcases hc with rfl | rfl | rfl | rfl <;> decide
  obtain ⟨hink, hdot, hquote, hends⟩ := hmark
  have hahead := Lexeme.ahead_gap gap hgap hink cs
  constructor
  · constructor
    · cases gap with
      | nil => exact endsUnit_cons hends cs
      | cons d gap => exact endsUnit_of_space (hgap d (by simp)) _
    · simpa [hahead] using hdot
    · simpa [hahead] using hquote
  · rw [hahead]
    exact endsUnit_cons hends cs

/-- Two bars stop an alternative, also behind blanks. -/
theorem stopsAlternative_of_bars {gap : List Char} (hgap : ∀ c ∈ gap, isSpace c = true)
    (cs : List Char) : StopsAlternative (gap ++ '|' :: '|' :: cs) where
  toStopsSequence := stopsSequence_of_mark hgap (by decide) _
  bar ds hds := by
    rw [Lexeme.ahead_gap gap hgap rfl] at hds
    cases hds
    rfl

/-- A closing mark or a semicolon stops a whole expression. -/
theorem stopsFallback_of_closing {c : Char} (hc : c ∈ [')', ']', ';']) (cs : List Char) :
    StopsFallback (c :: cs) := by
  have hmark : isInked c = true ∧ c ≠ '|' ∧ c ∈ [')', ']', ';', '|'] := by
    simp only [List.mem_cons, List.not_mem_nil, or_false] at hc
    rcases hc with rfl | rfl | rfl <;> decide
  obtain ⟨hink, hbar, hmark⟩ := hmark
  have hnone : ∀ c ∈ ([] : List Char), isSpace c = true := by simp
  refine ⟨stopsSequence_of_mark hnone hmark cs, ?_⟩
  rw [Lexeme.ahead_eq_self (Lexeme.blankLength_of_inked hink cs)]
  simpa using hbar

/-- No atom begins where a unit ends. -/
theorem refuses_atom (h : EndsUnit rest) : Refuses (atom body) rest :=
  Refuses.orElse (refuses_reference (h.head_ne (by decide))) <|
    Refuses.orElse (refuses_optional (h.head_ne (by decide))) <|
    Refuses.orElse (refuses_between (c := '(') rfl (h.head_ne (by decide))) <|
    Refuses.orElse (refuses_command (h.head_ne (by decide))) (refuses_literal h.literal)

theorem refuses_unit (h : EndsUnit rest) : Refuses (unit body) rest := (refuses_atom h).bind

/-- An atom without dots behind it is a unit. -/
theorem reads_unit (h : Reads (atom body) text rest P) (hdots : (ahead rest).head? ≠ some '.') :
    Reads (unit body) text rest P := by
  intro cursor hcursor
  obtain ⟨e, last, he, hlast, hP⟩ := h cursor hcursor
  have hfront : ¬ "...".toList <+: ahead rest := by
    rintro ⟨tail, htail⟩
    exact hdots (by rw [← htail]; rfl)
  have hnone : dots last = none :=
    refuses_after_blanks (refuses_exactly hfront) last hlast
  refine ⟨e, last, ?_, hlast, hP⟩
  simp only [atom] at he
  rw [unit, he]
  simp [hnone]

/-- An atom with dots behind it is a repeated unit. -/
theorem reads_unit_repeated (h : Reads (atom body) text ("...".toList ++ rest) P) :
    Reads (unit body) (text ++ "...".toList) rest fun x => ∃ e, x = .repeated e ∧ P e := by
  intro cursor hcursor
  rw [List.append_assoc] at hcursor
  obtain ⟨e, next, he, hnext, hP⟩ := h cursor hcursor
  obtain ⟨⟨⟩, last, hdots, hlast, -⟩ : ∃ u last, dots next = some (u, last) ∧ last.rest = rest ∧ True :=
    reads_after_blanks [] (by simp) (Lexeme.blankLength_of_inked rfl _)
      (reads_exactly "..." rest) next hnext
  refine ⟨.repeated e, last, ?_, hlast, e, rfl, hP⟩
  simp only [atom] at he
  rw [unit, he]
  simp [hdots]

theorem refuses_juxtaposition (h : EndsUnit rest) : Refuses (juxtaposition body) rest :=
  (refuses_unit h).bind

/-- A single unit stays what it is. -/
theorem reads_juxtaposition_one (h : Reads (unit body) text rest P) (hrest : EndsUnit rest) :
    Reads (juxtaposition body) text rest P := by
  intro cursor hcursor
  obtain ⟨e, last, he, hlast, hP⟩ := h cursor hcursor
  have hmany : many (unit body) last = ([], last) :=
    many_of_refuses (hlast ▸ refuses_unit hrest)
  exact ⟨e, last, by simp [juxtaposition, he, hmany], hlast, hP⟩

/-- Two units that touch are a subword. -/
theorem reads_juxtaposition_two {first second : List Char} {Q : Expr → Prop}
    (hfirst : Reads (unit body) first (second ++ rest) P) (hsecond : Reads (unit body) second rest Q)
    (hne : second ≠ []) (hrest : EndsUnit rest) :
    Reads (juxtaposition body) (first ++ second) rest fun x => ∃ e e' span,
      x = .subword (.sequence [e.flatten, e'.flatten]) 0 span ∧ P e ∧ Q e' := by
  intro cursor hcursor
  rw [List.append_assoc] at hcursor
  obtain ⟨e, next, he, hnext, hP⟩ := hfirst cursor hcursor
  obtain ⟨e', last, hmany, hlast, hQ⟩ := many_of_reads hsecond hne (refuses_unit hrest) hnext
  refine ⟨_, last, ?_, hlast, e, e', some (cursor.spanTo last), rfl, hP, hQ⟩
  simp [juxtaposition, he, hmany]

/-- Several units with nothing between them make up a subword with flat factors. -/
theorem reads_juxtaposition_several {ι : Type} {print : ι → List Char} {F : List Char → Prop}
    {P : ι → Expr → Prop} {es : List ι} (hseveral : 2 ≤ es.length)
    (hunit : ∀ e ∈ es, ∀ tail, F tail → Reads (unit body) (print e) tail (P e))
    (hF : ∀ e ∈ es, ∀ tail, F (print e ++ tail)) (hrest : F rest) (hends : EndsUnit rest)
    (hne : ∀ e ∈ es, print e ≠ []) :
    Reads (juxtaposition body) (es.flatMap print) rest fun x => ∃ xs span,
      x = .subword (.sequence (xs.map Expr.flatten)) 0 span ∧ List.Forall₂ P es xs := by
  match es, hseveral with
  | e :: e' :: es, _ =>
    intro cursor hcursor
    rw [List.flatMap_cons, List.append_assoc] at hcursor
    have hfollow : ∀ a ∈ e' :: es, ∀ tail, F (print a ++ tail) :=
      fun a ha => hF a (List.mem_cons_of_mem e ha)
    obtain ⟨x, next, hx, hnext, hPx⟩ :=
      hunit e (by simp) _ (follow_flatMap hfollow hrest) cursor hcursor
    obtain ⟨xs, last, hxs, hlast, hPxs⟩ :=
      many_eq (fun a ha => hunit a (List.mem_cons_of_mem e ha)) hfollow hrest (refuses_unit hends)
        (fun a ha => hne a (List.mem_cons_of_mem e ha)) next hnext
    refine ⟨_, last, ?_, hlast, x :: xs, some (cursor.spanTo last), rfl, .cons hPx hPxs⟩
    cases hPxs with
    | cons h hs => simp [juxtaposition, hx, hxs]

theorem refuses_item (h : EndsUnit rest) : Refuses (item body) rest :=
  (refuses_juxtaposition h).bind

/-- Units without a description behind them are an item. -/
theorem reads_item (h : Reads (juxtaposition body) text rest P)
    (hquote : (ahead rest).head? ≠ some '"') : Reads (item body) text rest P := by
  intro cursor hcursor
  obtain ⟨e, last, he, hlast, hP⟩ := h cursor hcursor
  have hnone : description last = none := refuses_description hquote last hlast
  exact ⟨e, last, by simp [item, he, hnone], hlast, hP⟩

/-- A description behind units makes them a described group. -/
theorem reads_item_described_of_reads {quotation : List Char} {shown : String}
    (h : Reads (juxtaposition body) text (quotation ++ rest) P)
    (hshown : Reads description quotation rest (· = shown)) :
    Reads (item body) (text ++ quotation) rest fun x => ∃ e, x = .described e shown ∧ P e := by
  intro cursor hcursor
  rw [List.append_assoc] at hcursor
  obtain ⟨e, next, he, hnext, hP⟩ := h cursor hcursor
  obtain ⟨found, last, hread, hlast, hfound⟩ := hshown next hnext
  exact ⟨.described e shown, last, by simp [item, he, hread, hfound], hlast, e, rfl, hP⟩

/-- A written description behind units makes them a described group. -/
theorem reads_item_described {shown : String}
    (h : Reads (juxtaposition body) text (' ' :: Lexeme.quote shown.toList ++ rest) P) :
    Reads (item body) (text ++ ' ' :: Lexeme.quote shown.toList) rest
      fun x => ∃ e, x = .described e shown ∧ P e :=
  reads_item_described_of_reads h
    (reads_description [' '] Lexeme.isSpace_of_mem_singleton shown rest)

/-! ### Items and their lists -/

/-- No further item is read if none begins behind the blanks. -/
theorem Refuses.further_item (h : Refuses (item body) (ahead rest)) :
    Refuses (further blanks (item body)) rest := by
  intro cursor hcursor
  rw [further, blanks]
  split
  · rfl
  · refine h _ ?_
    rw [Cursor.rest_advance, hcursor, ahead]

/-- No item follows if there is none behind the blanks. -/
theorem refuses_further_item (h : EndsUnit (ahead rest)) : Refuses (further blanks (item body)) rest :=
  (refuses_item h).further_item

/-- A single item is a sequence if none follows. -/
theorem reads_sequence_one (h : Reads (item body) text rest P) (hrest : StopsSequence rest) :
    Reads (sequence body) text rest P :=
  reads_joined_one h (refuses_further_item hrest.item)

theorem refuses_sequence (h : EndsUnit rest) : Refuses (sequence body) rest :=
  (refuses_item h).bind

/-- A single bar is not read before another one. -/
theorem refuses_further_sequence (hbar : ∀ cs, ahead rest = '|' :: cs → cs.head? = some '|') :
    Refuses (further (operator "|") (sequence body)) rest := by
  intro cursor hcursor
  have hrest : (skipBlanks cursor).rest = ahead rest := by rw [rest_skipBlanks, hcursor]
  rw [further, operator]
  by_cases hhead : (ahead rest).head? = some '|'
  · obtain ⟨cs, hcs⟩ := List.head?_eq_some_iff.mp hhead
    obtain ⟨cs', rfl⟩ := List.head?_eq_some_iff.mp (hbar cs hcs)
    obtain ⟨⟨⟩, next, hread, hnext, -⟩ :=
      reads_exactly "|" ('|' :: cs') (skipBlanks cursor) (hrest.trans hcs)
    have hstop : (skipBlanks next).rest = '|' :: cs' := by
      rw [rest_skipBlanks, hnext, Lexeme.ahead_eq_self (Lexeme.blankLength_of_inked rfl _)]
    have hnone : sequence body (skipBlanks next) = none :=
      refuses_sequence (endsUnit_cons (by decide) cs') _ hstop
    simp [hread, hnone]
  · rw [refuses_exactly_of_head rfl hhead (skipBlanks cursor) hrest]
    rfl

/-- A single sequence is an alternative if no bar follows. -/
theorem reads_alternative_one (h : Reads (sequence body) text rest P) (hrest : StopsAlternative rest) :
    Reads (alternative body) text rest P :=
  reads_joined_one h (refuses_further_sequence hrest.bar)

/-- No operand follows if its operator is not there. -/
theorem refuses_further_operator {operation : String} {operand : Parser Expr}
    (h : ¬ operation.toList <+: ahead rest) : Refuses (further (operator operation) operand) rest := by
  intro cursor hcursor
  have hrest : (skipBlanks cursor).rest = ahead rest := by rw [rest_skipBlanks, hcursor]
  rw [further, operator, refuses_exactly h (skipBlanks cursor) hrest]
  rfl

/-- No fallback branch follows without a bar. -/
theorem refuses_further_alternative (hbar : (ahead rest).head? ≠ some '|') :
    Refuses (further (operator "||") (alternative body)) rest := by
  refine refuses_further_operator ?_
  rintro ⟨tail, htail⟩
  exact hbar (by rw [← htail]; rfl)

/-- A single alternative is an expression if no bars follow. -/
theorem reads_fallback_one (h : Reads (alternative body) text rest P) (hrest : StopsFallback rest) :
    Reads (fallback body) text rest P :=
  reads_joined_one h (refuses_further_alternative hrest.bar)

/-- An atom is an item if nothing belongs to it that follows. -/
theorem reads_item_of_atom (h : Reads (atom body) text rest P) (hrest : StopsItem rest) :
    Reads (item body) text rest P :=
  reads_item (reads_juxtaposition_one (reads_unit h hrest.dots) hrest.unit) hrest.quote

/-- A sequence is an expression if the expression stops behind it. -/
theorem reads_fallback_of_sequence (h : Reads (sequence body) text rest P)
    (hrest : StopsFallback rest) : Reads (fallback body) text rest P :=
  reads_fallback_one (reads_alternative_one h hrest.alternative) hrest

/-- An item is an expression if the expression stops behind it. -/
theorem reads_fallback_of_item (h : Reads (item body) text rest P) (hrest : StopsFallback rest) :
    Reads (fallback body) text rest P :=
  reads_fallback_of_sequence (reads_sequence_one h hrest.toStopsSequence) hrest

/-- An atom is an expression if the expression stops behind it. -/
theorem reads_fallback_of_atom (h : Reads (atom body) text rest P) (hrest : StopsFallback rest) :
    Reads (fallback body) text rest P :=
  reads_fallback_of_item (reads_item_of_atom h hrest.toStopsItem) hrest

/-- Blanks are read up to the first character that is none. -/
theorem reads_blanks (gap : List Char) (hgap : ∀ c ∈ gap, isSpace c = true) (hne : gap ≠ [])
    (hink : blankLength false rest = 0) : Reads blanks gap rest fun _ => True := by
  intro cursor hcursor
  have hcount : blankLength false cursor.rest = gap.length := by
    rw [hcursor, Lexeme.blankLength_append hgap, hink, Nat.add_zero]
  have hpos : gap.length ≠ 0 := by simpa using hne
  refine ⟨(), cursor.advance gap.length, ?_, ?_, trivial⟩
  · rw [blanks, hcount, if_neg hpos]
  · rw [Cursor.rest_advance, hcursor, List.drop_left]

/-- An operator is read with the blanks around it. -/
theorem reads_operator (operation : String) {gap gap' : List Char}
    (hgap : ∀ c ∈ gap, isSpace c = true) (hgap' : ∀ c ∈ gap', isSpace c = true)
    (hoperation : ∀ cs, blankLength false (operation.toList ++ cs) = 0)
    (hink : blankLength false rest = 0) :
    Reads (operator operation) (gap ++ (operation.toList ++ gap')) rest fun _ => True := by
  intro cursor hcursor
  rw [List.append_assoc, List.append_assoc] at hcursor
  obtain ⟨⟨⟩, next, hread, hnext, -⟩ := reads_exactly operation (gap' ++ rest) (skipBlanks cursor) (by
    rw [rest_skipBlanks, hcursor, Lexeme.ahead_append hgap, Lexeme.ahead_eq_self (hoperation _)])
  refine ⟨(), skipBlanks next, ?_, ?_, trivial⟩
  · simp [operator, hread]
  · rw [rest_skipBlanks, hnext, Lexeme.ahead_append hgap', Lexeme.ahead_eq_self hink]

end Parser

end ShellCompletion
