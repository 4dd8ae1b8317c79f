import ShellCompletion.Proofs.CopiedTexts

/-!
# Quoted texts that end early

A quote inside of a text that is copied between quotes ends the quoted text early. What is behind it is
read as if it had been written there: words are literals, white space separates items, and the next quote
opens a quoted text again, which describes the literal or the item in front of it. The places that reading
comes to that way are followed character by character. Reading gets to the end of a sequence if the text
ends between quotes that are closed behind it, and it halts if the text is refused on the way or if the
last quote is never closed. Only at marks and comments outside of quotes it is left open what follows.
-/

namespace ShellCompletion

namespace Lexeme

theorem ordinary_of_isPlain {c : Char} (h : isPlain c = true) : c ≠ '"' ∧ isSpace c = false := by
  constructor
  · rintro rfl
    revert h
    decide
  · rw [isSpace, Bool.eq_false_iff]
    intro hspace
    simp only [Bool.or_eq_true, decide_eq_true_eq] at hspace
    rcases hspace with ((rfl | rfl) | rfl) | rfl <;> revert h <;> decide

end Lexeme

namespace Parser

open Lexeme (ahead blankLength isInked isMark isPlain isReserved isSpace openings EndsLiteral Foreign
  literalFit quotedFit)

/-! ### Places -/

/-- The place of a character in a text that is copied between quotes. -/
inductive Place where
  /-- Between quotes. The subject is the one of another quoted text behind the closing quote. -/
  | quoted (subject : Subject)
  /-- Between quotes and behind a backslash. -/
  | escaped (subject : Subject)
  /-- Inside of a literal. -/
  | word
  /-- Inside of a literal and behind a backslash. -/
  | wordEscaped
  /-- Behind a quoted text or behind white space. The subject is the one of a quoted text here. -/
  | behind (subject : Subject) (spaced : Bool)
  /-- Behind a character with which nothing goes on. -/
  | refused
  /-- Behind a mark, dots or a comment outside of quotes. -/
  | leaking
deriving DecidableEq, Repr

namespace Place

/-- The place behind a character of a literal, or of what stands in its place. -/
def inWord (c : Char) : Place :=
  if c = '\\' then .wordEscaped
  else if isPlain c then .word
  else if isMark c || !isInked c then .leaking
  else .refused

/-- The place behind a character. -/
def step : Place → Char → Place
  | .quoted subject, c =>
    if c = '"' then .behind subject false
    else if c = '\\' then .escaped subject
    else .quoted subject
  | .escaped subject, c =>
    if c = '\\' || c = '"' || isSpace c then .quoted subject else .refused
  | .word, c =>
    if c = '"' then .quoted .item
    else if isSpace c then .behind .literal true
    else inWord c
  | .wordEscaped, c => if isReserved c then .word else .refused
  | .behind subject spaced, c =>
    if c = '"' then if subject = .nothing then .refused else .quoted subject.next
    else if isSpace c then .behind subject true
    else if subject = .nothing && !spaced then
      if !isInked c || c ∈ ['|', ';', ')', ']'] then .leaking else .refused
    else if c = '.' || !isInked c || isMark c then .leaking
    else inWord c
  | .refused, _ => .refused
  | .leaking, _ => .leaking

/-- The place behind a text. -/
def run (place : Place) (text : List Char) : Place := text.foldl step place

/-- The place behind the closing quote of a copied text, if a text is left open there. -/
def close : Place → Option Place
  | .quoted _ => none
  | place => some (place.step '"')

/-- A closing quote closes a quoted text, and elsewhere it is read like any other quote. -/
theorem close_cases (place : Place) :
    (∃ subject, place = .quoted subject ∧ place.close = none) ∨ place.close = some (place.step '"') := by
  cases place with
  | quoted subject => exact .inl ⟨subject, rfl, rfl⟩
  | escaped | word | wordEscaped | behind | refused | leaking => exact .inr rfl

theorem run_cons (place : Place) (c : Char) (text : List Char) :
    place.run (c :: text) = (place.step c).run text :=
  rfl

/-- A text is followed part by part. -/
theorem run_append (place : Place) (text more : List Char) :
    place.run (text ++ more) = (place.run text).run more :=
  List.foldl_append

@[simp]
theorem run_refused (text : List Char) : Place.refused.run text = .refused := by
  induction text with
  | nil => rfl
  | cons c cs ih => exact ih

@[simp]
theorem run_leaking (text : List Char) : Place.leaking.run text = .leaking := by
  induction text with
  | nil => rfl
  | cons c cs ih => exact ih

/-- An escaped character between quotes changes nothing. -/
theorem run_quoted_escape {d : Char} (hd : (d = '\\' || d = '"' || isSpace d) = true)
    (subject : Subject) (cs : List Char) :
    (quoted subject).run ('\\' :: d :: cs) = (quoted subject).run cs := by
  simp [run, step, hd]

/-- An ordinary character between quotes changes nothing. -/
theorem run_quoted_ordinary {c : Char} (hquote : c ≠ '"') (hslash : c ≠ '\\') (subject : Subject)
    (cs : List Char) : (quoted subject).run (c :: cs) = (quoted subject).run cs := by
  simp [run, step, hquote, hslash]

/-- What becomes of a text behind an opening quote: the quoted text takes it, refuses it, goes on with an
escape behind it, or is ended by a quote in it. -/
inductive InQuotes (subject : Subject) : List Char → Place → Prop
  | whole {text : List Char} : quotedFit text = .whole → InQuotes subject text (.quoted subject)
  | refused {text : List Char} : quotedFit text = .refused → InQuotes subject text .refused
  | escaped {text : List Char} : InQuotes subject text (.escaped subject)
  | ended {shown later : List Char} : quotedFit shown = .whole →
    InQuotes subject (shown ++ '"' :: later) ((behind subject false).run later)

/-- What fits between quotes may stand before a text that is followed there. -/
theorem InQuotes.append_left {subject : Subject} {text : List Char} {place : Place}
    (h : InQuotes subject text place) (front : List Char)
    (hfront : ∀ more, quotedFit (front ++ more) = quotedFit more) :
    InQuotes subject (front ++ text) place := by
  cases h with
  | whole h => exact .whole (by rw [hfront, h])
  | refused h => exact .refused (by rw [hfront, h])
  | escaped => exact .escaped
  | ended h =>
    rw [← List.append_assoc]
    exact .ended (by rw [hfront, h])

/-- A text that begins between quotes is followed as the quoted text is read. -/
theorem inQuotes_run (subject : Subject) (text : List Char) :
    InQuotes subject text ((quoted subject).run text) := by
  fun_induction quotedFit text with
  | case1 => exact .whole rfl
  | case2 cs => exact (InQuotes.ended rfl : InQuotes subject ([] ++ '"' :: cs) _)
  | case3 => exact .escaped
  | case4 d ds hescaped _ ih =>
    rw [run_quoted_escape hescaped]
    refine ih.append_left ['\\', d] fun more => ?_
    simp [quotedFit, hescaped]
  | case5 d ds hescaped _ =>
    have hrun : (quoted subject).run ('\\' :: d :: ds) = .refused := by
      simp [run, step, hescaped]
      exact run_refused ds
    rw [hrun]
    exact .refused (by simp [quotedFit, hescaped])
  | case6 c cs hquote hslash ih =>
    rw [run_quoted_ordinary hquote hslash]
    refine ih.append_left [c] fun more => ?_
    rw [List.singleton_append, quotedFit.eq_def]
    simp [hquote, hslash]

/-- A text that fits between quotes ends between them. -/
theorem run_quoted_of_whole {text : List Char} (h : quotedFit text = .whole) (subject : Subject) :
    (quoted subject).run text = .quoted subject := by
  fun_induction quotedFit text with
  | case1 => rfl
  | case2 => cases h
  | case3 => cases h
  | case4 d ds hescaped _ ih =>
    rw [run_quoted_escape hescaped, ih h]
  | case5 => cases h
  | case6 c cs hquote hslash ih =>
    rw [run_quoted_ordinary hquote hslash, ih h]

/-- What becomes of a text inside of a literal: it belongs to the literal, with an escape behind it or
not, the literal is refused because of it, or a character in it ends the literal. -/
inductive InLiteral : List Char → Place → Prop
  | inside {text : List Char} : InLiteral text .word
  | escaped {text : List Char} : InLiteral text .wordEscaped
  | refused {text : List Char} : (∀ rest, Lexeme.plainRun (text ++ rest) = none) →
    InLiteral text .refused
  | ended {taken later : List Char} {c : Char} : literalFit taken = .whole →
    c ≠ '\\' ∧ isPlain c = false → InLiteral (taken ++ c :: later) (word.run (c :: later))

/-- What fits a literal may stand before a text that is followed in one. -/
theorem InLiteral.append_left {text : List Char} {place : Place} (h : InLiteral text place)
    (front : List Char) (hfit : ∀ more, literalFit (front ++ more) = literalFit more)
    (hrun : ∀ more, Lexeme.plainRun more = none → Lexeme.plainRun (front ++ more) = none) :
    InLiteral (front ++ text) place := by
  cases h with
  | inside => exact .inside
  | escaped => exact .escaped
  | refused h =>
    refine .refused fun rest => ?_
    rw [List.append_assoc]
    exact hrun _ (h rest)
  | ended h hc =>
    rw [← List.append_assoc]
    exact .ended (by rw [hfit, h]) hc

/-- A character with which no literal goes on ends it at once. -/
theorem inLiteral_cons {c : Char} (hc : c ≠ '\\' ∧ isPlain c = false) (cs : List Char) :
    InLiteral (c :: cs) (word.run (c :: cs)) := by
  have hended : InLiteral ([] ++ c :: cs) (word.run (c :: cs)) := .ended rfl hc
  exact hended

/-- A text that begins in a word is followed as the literal is read. -/
theorem inLiteral_run (text : List Char) : InLiteral text (word.run text) := by
  fun_induction literalFit text with
  | case1 => exact .inside
  | case2 => exact .escaped
  | case3 d ds hreserved ih =>
    have hrun : word.run ('\\' :: d :: ds) = word.run ds := by
      have hspace : isSpace '\\' = false := by decide
      simp [run, step, inWord, hspace, hreserved]
    rw [hrun]
    refine ih.append_left ['\\', d] ?_ ?_
    · intro more
      simp [literalFit, hreserved]
    · intro more hmore
      simp [Lexeme.plainRun, hreserved, hmore]
  | case4 d ds hreserved =>
    have hrun : word.run ('\\' :: d :: ds) = .refused := by
      have hspace : isSpace '\\' = false := by decide
      simp [run, step, inWord, hspace, hreserved]
      exact run_refused ds
    rw [hrun]
    refine .refused fun rest => ?_
    simp [Lexeme.plainRun, hreserved]
  | case5 c cs hc hplain ih =>
    have hrun : word.run (c :: cs) = word.run cs := by
      obtain ⟨hquote, hspace⟩ := Lexeme.ordinary_of_isPlain hplain
      simp [run, step, inWord, hquote, hspace, hc, hplain]
    rw [hrun]
    refine ih.append_left [c] ?_ ?_
    · intro more
      rw [List.singleton_append, literalFit.eq_def]
      simp [hc, hplain]
    · intro more hmore
      rw [List.singleton_append, Lexeme.plainRun.eq_def]
      simp [hc, hplain, hmore]
  | case6 c cs hc hplain => exact inLiteral_cons ⟨hc, by simpa using hplain⟩ cs
  | case7 c cs hc hplain => exact inLiteral_cons ⟨hc, by simpa using hplain⟩ cs

end Place

/-! ### From place to place -/

variable {body : Parser Expr} {gap text rest : List Char} {subject : Subject} {cursor : Cursor}

section

variable (hgap : ∀ c ∈ gap, isSpace c = true)

include hgap

/-- A quote that nothing closes goes on with no sequence. -/
theorem still_of_unclosed (h : Lexeme.quoted ('"' :: text) = none) : Still body (gap ++ '"' :: text) :=
  still_of_refuses hgap (Lexeme.blankLength_of_inked rfl _) h (by simp)
    (refuses_atom (endsUnit_cons (by decide) _))

/-- A quote halts the reading. -/
theorem halted_of_quote (text : List Char) : Halted (gap ++ '"' :: text) :=
  halted_of_inked hgap rfl (by decide) text

/-- A word that is no literal goes on with no sequence. -/
theorem still_of_no_literal {c : Char} {cs : List Char}
    (hc : isInked c = true ∧ c ≠ '"' ∧ c ≠ '.' ∧ c ∉ openings)
    (h : Lexeme.literal (c :: cs) = none) : Still body (gap ++ c :: cs) := by
  obtain ⟨hink, hquote, hdot, hopening⟩ := hc
  refine still_of_refuses hgap (Lexeme.blankLength_of_inked hink _)
    (Lexeme.quoted_eq_none (by simpa using hquote)) (by simpa using hdot)
    (refuses_atom_of_literal ?_ h)
  rintro d hd ⟨⟩
  exact hopening hd

/-- A quoted text is taken, and the next one describes the next subject. -/
theorem finish_of_quoted (hsubject : subject ≠ .nothing) {shown : List Char}
    (hshown : quotedFit shown = .whole) (hcursor : cursor.rest = gap ++ '"' :: (shown ++ '"' :: rest)) :
    ∃ next, next.rest = rest ∧ finish body subject cursor = finish body subject.next next := by
  obtain ⟨read, hread⟩ := Lexeme.quoted_of_whole hshown rest
  have hdescription : Reads description (gap ++ '"' :: (shown ++ ['"'])) rest (· = read) :=
    reads_after_blanks gap hgap (Lexeme.blankLength_of_inked rfl _) (reads_ofScan (by simpa using hread))
  obtain ⟨found, next, hfound, hnext, -⟩ := hdescription cursor (by simpa using hcursor)
  have hmaybe : (maybe description cursor).2 = next := by rw [maybe, hfound]
  have hahead : ahead cursor.rest = '"' :: (shown ++ '"' :: rest) := by
    rw [hcursor, Lexeme.ahead_gap gap hgap rfl]
  refine ⟨next, hnext, ?_⟩
  cases subject with
  | literal => rw [finish, hmaybe, Subject.next, finish]
  | item =>
    have hdots : Refuses dots cursor.rest := refuses_dots (by simp [hahead])
    have hatom : Refuses (atom body) cursor.rest := by
      rw [hcursor]
      cases gap with
      | nil => exact refuses_atom (endsUnit_cons (by decide) _)
      | cons c gap => exact refuses_atom (endsUnit_of_space (hgap c (by simp)) _)
    rw [finish, afterUnit_of_refuses hdots hatom, hmaybe, Subject.next, finish]
  | nothing => exact (hsubject rfl).elim

/-- A word is taken that is the next unit, or the next item behind white space. -/
theorem finish_of_word (hbody : Consumes body) (hplace : gap = [] → subject = .item) {c : Char}
    {cs : List Char} (hc : isInked c = true ∧ c ≠ '"' ∧ c ≠ '.' ∧ c ∉ openings)
    (hfit : literalFit (c :: cs) = .whole) (hends : EndsLiteral rest)
    (hcursor : cursor.rest = gap ++ (c :: cs ++ rest)) :
    ∃ next, next.rest = rest ∧ finish body subject cursor = finish body .literal next := by
  obtain ⟨hink, hquote, hdot, hopening⟩ := hc
  obtain ⟨read, hread⟩ := Lexeme.literal_of_whole hfit (List.cons_ne_nil c cs) hends
  have hword : ∀ start : Cursor, start.rest = c :: cs ++ rest →
      ∃ e next, next.rest = rest ∧ atom body start = some (e, (maybe description next).2) := by
    intro start hstart
    have hhead : ∀ d ∈ openings, start.rest.head? ≠ some d := by
      rintro d hd hhead
      rw [hstart] at hhead
      cases hhead
      exact hopening hd
    obtain ⟨e, he⟩ := atom_of_literal hhead (hstart ▸ hread)
    refine ⟨e, _, ?_, he⟩
    rw [Cursor.rest_advance, hstart, List.drop_left]
  have hahead : ahead cursor.rest = c :: (cs ++ rest) := by
    rw [hcursor]
    exact Lexeme.ahead_gap gap hgap hink _
  have hdots : Refuses dots cursor.rest := refuses_dots (by simpa [hahead] using hdot)
  by_cases hne : gap = []
  · rw [hne, List.nil_append] at hcursor
    obtain ⟨e, next, hnext, he⟩ := hword cursor hcursor
    refine ⟨next, hnext, ?_⟩
    rw [hplace hne, finish, finish, afterUnit_of_atom hbody hdots he]
  · have hdescription : Refuses description cursor.rest :=
      refuses_description (by simpa [hahead] using hquote)
    have hatom : Refuses (atom body) cursor.rest := by
      obtain ⟨d, gap, rfl⟩ := List.exists_cons_of_ne_nil hne
      rw [hcursor]
      exact refuses_atom (endsUnit_of_space (hgap d (by simp)) _)
    obtain ⟨⟨⟩, start, hblanks, hstart, -⟩ :=
      reads_blanks gap hgap hne (Lexeme.blankLength_of_inked hink _) cursor hcursor
    obtain ⟨e, next, hnext, he⟩ := hword start hstart
    refine ⟨next, hnext, ?_⟩
    rw [finish_eq_afterItem hdescription hdots hatom, afterItem_of_atom hbody hblanks he, finish]

end

/-! ### To the end of a sequence -/

/-- The place that reading comes to with a subject: a literal may go on, or something ends before it. -/
def Subject.place : Subject → Place
  | .literal => .word
  | .item => .behind .item false
  | .nothing => .behind .nothing false

/-- Whether a property holds of what a sequence leaves that comes to a place before some rest. -/
inductive Settles (S : List Char → Prop) : Place → List Char → Prop
  /-- A refused text makes the sequence halt. -/
  | refused {rest : List Char} : (∀ r, Halted r → S r) → Settles S .refused rest
  /-- Behind a closing quote the sequence stops. -/
  | closed {subject : Subject} {rest : List Char} : StopsSequence rest → S rest →
    Settles S (.quoted subject) ('"' :: rest)
  /-- A quoted text that is never closed makes the sequence halt. -/
  | unclosed {subject : Subject} : (∀ r, Halted r → S r) → Settles S (.quoted subject) []

variable {S : List Char → Prop}

/-- Where nothing goes on with a sequence, its end is where the reading is halted. -/
theorem finish_halts (h : ∀ r, Halted r → S r) (hstill : Still body cursor.rest)
    (hhalted : Halted cursor.rest) : S (finish body subject cursor).rest := by
  rw [finish_of_still hstill]
  exact h _ hhalted

/-- A quote opens a quoted text, from which reading goes on as its outcome says. -/
theorem finish_of_quote (hsubject : subject ≠ .nothing) (hgap : ∀ c ∈ gap, isSpace c = true)
    (hlater : ∀ later, later.length < text.length →
      Settles S ((Place.behind subject.next false).run later) rest →
      ∀ next : Cursor, next.rest = later ++ rest → S (finish body subject.next next).rest)
    (h : Settles S ((Place.quoted subject.next).run text) rest)
    (hcursor : cursor.rest = gap ++ '"' :: (text ++ rest)) : S (finish body subject cursor).rest := by
  have hhalts : (∀ r, Halted r → S r) → Lexeme.quoted ('"' :: (text ++ rest)) = none →
      S (finish body subject cursor).rest := fun hS hnone =>
    finish_halts hS (hcursor ▸ still_of_unclosed hgap hnone) (hcursor ▸ halted_of_quote hgap _)
  generalize hplace : (Place.quoted subject.next).run text = place at h
  have houtcome := Place.inQuotes_run subject.next text
  rw [hplace] at houtcome
  cases houtcome with
  | whole hfit =>
    cases h with
    | closed hstops hS =>
      obtain ⟨next, hnext, hfinish⟩ := finish_of_quoted hgap hsubject hfit hcursor
      rw [hfinish, finish_of_still (hnext ▸ still_of_stops hstops), hnext]
      exact hS
    | unclosed hS => exact hhalts hS (by rw [List.append_nil, Lexeme.quoted_of_unclosed hfit])
  | refused hfit =>
    cases h with
    | refused hS => exact hhalts hS (Lexeme.quoted_of_refused hfit rest)
  | escaped => cases h
  | ended hfit =>
    rename_i shown later
    rw [List.append_assoc, List.cons_append] at hcursor
    obtain ⟨next, hnext, hfinish⟩ := finish_of_quoted hgap hsubject hfit hcursor
    rw [hfinish]
    exact hlater later (by simp; omega) h next hnext

/-- A word goes on up to a character that ends it, unless it is refused. -/
theorem finish_of_started (hbody : Consumes body) (hgap : ∀ c ∈ gap, isSpace c = true)
    (hplace : gap = [] → subject = .item) {c : Char} {cs : List Char}
    (hc : (isInked c = true ∧ isMark c = false) ∧ c ≠ '.') (hstart : c = '\\' ∨ isPlain c = true)
    (hlater : ∀ later, later.length < (c :: cs).length → EndsLiteral later →
      Settles S (Place.word.run later) rest →
      ∀ next : Cursor, next.rest = later ++ rest → S (finish body .literal next).rest)
    (h : Settles S (Place.word.run (c :: cs)) rest) (hcursor : cursor.rest = gap ++ (c :: cs ++ rest)) :
    S (finish body subject cursor).rest := by
  obtain ⟨⟨hink, hunmarked⟩, hdot⟩ := hc
  have hbegins : isInked c = true ∧ c ≠ '"' ∧ c ≠ '.' ∧ c ∉ openings :=
    ⟨hink, Lexeme.ne_of_isMark hunmarked rfl, hdot, Lexeme.not_mem_openings hunmarked⟩
  generalize hword : c :: cs = word at h hlater hcursor
  generalize hend : Place.word.run word = place at h
  have houtcome := Place.inLiteral_run word
  rw [hend] at houtcome
  cases houtcome with
  | inside => cases h
  | escaped => cases h
  | refused hnone =>
    cases h with
    | refused hS =>
      have hliteral : Lexeme.literal (c :: cs ++ rest) = none := by
        rw [Lexeme.literal, hword, hnone]
        rfl
      rw [← hword] at hcursor
      exact finish_halts hS (hcursor ▸ still_of_no_literal hgap hbegins hliteral)
        (hcursor ▸ halted_of_unmarked hgap hink hunmarked _)
  | ended hfit hd =>
    rename_i taken later d
    -- the character that ends the word is not its first one
    cases taken with
    | nil =>
      cases hword
      rcases hstart with rfl | hplain
      · exact (hd.1 rfl).elim
      · rw [hd.2] at hplain
        cases hplain
    | cons c' taken =>
      cases hword
      have hends : EndsLiteral (d :: later ++ rest) := Lexeme.endsLiteral_cons hd _
      rw [List.append_assoc] at hcursor
      obtain ⟨next, hnext, hfinish⟩ :=
        finish_of_word hgap hbody hplace hbegins hfit hends hcursor
      rw [hfinish]
      exact hlater (d :: later) (by simp) (Lexeme.endsLiteral_cons hd later) h next hnext

/-- A character that begins no word is refused or leaves open what follows. -/
theorem finish_of_other (hgap : ∀ c ∈ gap, isSpace c = true) {c : Char} {cs : List Char}
    (hc : c ≠ '\\' ∧ isPlain c = false) (hmark : c ≠ '"' ∧ isSpace c = false)
    (h : Settles S (Place.word.run (c :: cs)) rest) (hcursor : cursor.rest = gap ++ (c :: cs ++ rest)) :
    S (finish body subject cursor).rest := by
  by_cases hleaks : (isMark c || !isInked c) = true
  · have hrun : Place.word.run (c :: cs) = .leaking := by
      rw [Place.run_cons, ← Place.run_leaking cs]
      simp [Place.step, Place.inWord, hc, hmark, hleaks]
    rw [hrun] at h
    cases h
  · have hrun : Place.word.run (c :: cs) = .refused := by
      rw [Place.run_cons, ← Place.run_refused cs]
      simp [Place.step, Place.inWord, hc, hmark, hleaks]
    obtain ⟨hunmarked, hink⟩ : isMark c = false ∧ isInked c = true := by simpa using hleaks
    rw [hrun] at h
    cases h with
    | refused hS =>
      exact finish_halts hS (hcursor ▸ still_of_foreign hgap ⟨hc, hunmarked, hink⟩ _)
        (hcursor ▸ halted_of_unmarked hgap hink hunmarked _)

/-- A space separates what stood before it from what follows. -/
theorem step_space {c : Char} (hc : isSpace c = true) :
    subject.place.step c = .behind subject true ∧
      (Place.behind subject true).step c = .behind subject true := by
  have hquote : c ≠ '"' := by
    rintro rfl
    exact Bool.false_ne_true hc
  refine ⟨?_, by simp [Place.step, hquote, hc]⟩
  cases subject <;> simp [Subject.place, Place.step, hquote, hc]

/-- Several spaces separate as one does. -/
theorem run_spaces (hgap : ∀ c ∈ gap, isSpace c = true) (hne : gap ≠ []) :
    subject.place.run gap = .behind subject true := by
  obtain ⟨c, gap, rfl⟩ := List.exists_cons_of_ne_nil hne
  rw [Place.run_cons, (step_space (hgap c (by simp))).1]
  have hothers : ∀ d ∈ gap, isSpace d = true := fun d hd => hgap d (by simp [hd])
  clear hgap hne
  induction gap with
  | nil => rfl
  | cons d gap ih =>
    rw [Place.run_cons, (step_space (hothers d (by simp))).2, ih fun e he => hothers e (by simp [he])]

/-- Behind anything but a literal, and behind white space, it is only open whether there is white space. -/
theorem exists_run_gap (hgap : ∀ c ∈ gap, isSpace c = true) (h : gap = [] → subject ≠ .literal) :
    ∃ spaced, subject.place.run gap = .behind subject spaced ∧ (spaced = false ↔ gap = []) := by
  by_cases hne : gap = []
  · refine ⟨false, ?_, by simp [hne]⟩
    rw [hne]
    cases subject with
    | literal => exact (h hne rfl).elim
    | item => rfl
    | nothing => rfl
  · exact ⟨true, run_spaces hgap hne, by simp [hne]⟩

theorem Subject.place_next (subject : Subject) : subject.next.place = .behind subject.next false := by
  cases subject <;> rfl

/-- White space and a quote: either they open a quoted text or nothing goes on. -/
theorem finish_of_front_quote (hgap : ∀ c ∈ gap, isSpace c = true)
    (hlater : ∀ later, later.length < text.length →
      Settles S ((Place.behind subject.next false).run later) rest →
      ∀ next : Cursor, next.rest = later ++ rest → S (finish body subject.next next).rest)
    (h : Settles S (subject.place.run (gap ++ '"' :: text)) rest)
    (hcursor : cursor.rest = gap ++ '"' :: (text ++ rest)) : S (finish body subject cursor).rest := by
  have hstep : (subject.place.run gap).step '"' =
      if subject = .nothing then .refused else .quoted subject.next := by
    by_cases hne : gap = []
    · rw [hne]
      cases subject <;> rfl
    · rw [run_spaces hgap hne]
      cases subject <;> rfl
  rw [Place.run_append, Place.run_cons, hstep] at h
  by_cases hnothing : subject = .nothing
  · rw [if_pos hnothing, Place.run_refused] at h
    cases h with
    | refused hS =>
      have hahead : ahead cursor.rest = '"' :: (text ++ rest) := by
        rw [hcursor, Lexeme.ahead_gap gap hgap rfl]
      have hfurther : Refuses (further blanks (item body)) cursor.rest :=
        refuses_further_item (hahead ▸ endsUnit_cons (by decide) _)
      rw [hnothing, finish, afterItem_of_refuses hfurther, hcursor]
      exact hS _ (halted_of_quote hgap _)
  · rw [if_neg hnothing] at h
    exact finish_of_quote hnothing hgap hlater h hcursor

/-- Directly behind the description of an item, nothing but a mark goes on. -/
theorem finish_of_touching {c : Char} {cs : List Char} (hmark : c ≠ '"' ∧ isSpace c = false)
    (h : Settles S ((Place.behind .nothing false).run (c :: cs)) rest)
    (hcursor : cursor.rest = c :: cs ++ rest) : S (finish body .nothing cursor).rest := by
  have hstep : (Place.behind .nothing false).step c =
      if !isInked c || c ∈ ['|', ';', ')', ']'] then .leaking else .refused := by
    simp [Place.step, hmark]
  rw [Place.run_cons, hstep] at h
  by_cases hleaks : (!isInked c || c ∈ ['|', ';', ')', ']']) = true
  · rw [if_pos hleaks, Place.run_leaking] at h
    cases h
  · rw [if_neg hleaks, Place.run_refused] at h
    obtain ⟨hink, hunmarked⟩ : isInked c = true ∧ c ∉ ['|', ';', ')', ']'] := by
      simpa only [Bool.or_eq_true, Bool.not_eq_true', decide_eq_true_eq, not_or,
        Bool.not_eq_false] using hleaks
    cases h with
    | refused hS =>
      have hfurther : Refuses (further blanks (item body)) cursor.rest := by
        rw [hcursor]
        exact refuses_further_of_inked (Lexeme.blankLength_of_inked hink _)
      rw [finish, afterItem_of_refuses hfurther, hcursor]
      have hnone : ∀ d ∈ ([] : List Char), isSpace d = true := by simp
      exact hS _ (halted_of_inked hnone hink hunmarked _)

/-- White space and any other character: a word begins, nothing goes on, or it is left open what
follows. -/
theorem finish_of_front_other (hbody : Consumes body) (hgap : ∀ c ∈ gap, isSpace c = true) {c : Char}
    {cs : List Char} (hmark : c ≠ '"' ∧ isSpace c = false)
    (hword : subject = .literal → EndsLiteral (gap ++ c :: cs))
    (hlater : ∀ later, later.length < (c :: cs).length → EndsLiteral later →
      Settles S (Place.word.run later) rest →
      ∀ next : Cursor, next.rest = later ++ rest → S (finish body .literal next).rest)
    (h : Settles S (subject.place.run (gap ++ c :: cs)) rest)
    (hcursor : cursor.rest = gap ++ (c :: cs ++ rest)) : S (finish body subject cursor).rest := by
  rw [Place.run_append] at h
  by_cases hfirst : gap = [] ∧ subject = .literal
  · obtain ⟨rfl, rfl⟩ := hfirst
    exact finish_of_other hgap (hword rfl c rfl) hmark h hcursor
  obtain ⟨spaced, hrun, hspaced⟩ := exists_run_gap hgap fun hne hliteral => hfirst ⟨hne, hliteral⟩
  rw [hrun] at h
  by_cases hjoined : (subject = .nothing && !spaced) = true
  · obtain ⟨rfl, rfl⟩ : subject = .nothing ∧ spaced = false := by simpa using hjoined
    rw [hspaced.mp rfl] at hcursor
    exact finish_of_touching hmark h hcursor
  by_cases hleaks : (c = '.' || !isInked c || isMark c) = true
  · have hstep : (Place.behind subject spaced).step c = .leaking := by
      simp only [Place.step, hmark, if_false, hjoined, hleaks, if_true, Bool.false_eq_true]
    rw [Place.run_cons, hstep, Place.run_leaking] at h
    cases h
  · obtain ⟨⟨hdot, hink⟩, hunmarked⟩ : (c ≠ '.' ∧ isInked c = true) ∧ isMark c = false := by
      simpa using hleaks
    have hstep : (Place.behind subject spaced).step c = Place.word.step c := by
      simp only [Place.step, hmark, if_false, hleaks, hjoined, Bool.false_eq_true]
    rw [Place.run_cons, hstep, ← Place.run_cons] at h
    by_cases hstart : c = '\\' ∨ isPlain c = true
    · refine finish_of_started hbody hgap ?_ ⟨⟨hink, hunmarked⟩, hdot⟩ hstart hlater h hcursor
      intro hne
      cases subject with
      | literal => exact (hfirst ⟨hne, rfl⟩).elim
      | item => rfl
      | nothing => exact (hjoined (by simp [hspaced.mpr hne])).elim
    · exact finish_of_other hgap (by simpa using hstart) hmark h hcursor

/-- What a sequence leaves that has come to a place outside of quotes is told by the place that the
rest of the text leads to. -/
theorem finish_settles (hbody : Consumes body) (hword : subject = .literal → EndsLiteral text)
    (h : Settles S (subject.place.run text) rest) (hcursor : cursor.rest = text ++ rest) :
    S (finish body subject cursor).rest := by
  induction hlength : text.length using Nat.strongRecOn generalizing subject text cursor with
  | ind length ih =>
    obtain ⟨gap, inked, rfl, hgap, hinked⟩ : ∃ gap inked, text = gap ++ inked ∧
        (∀ c ∈ gap, isSpace c = true) ∧ ∀ c ∈ inked.head?, isSpace c = false := by
      refine ⟨text.takeWhile isSpace, text.dropWhile isSpace, List.takeWhile_append_dropWhile.symm,
        fun c hc => List.all_eq_true.mp List.all_takeWhile c hc, fun c hc => ?_⟩
      have hhead := List.head?_dropWhile_not isSpace text
      rw [hc] at hhead
      simpa using hhead
    rw [List.append_assoc] at hcursor
    rw [List.length_append] at hlength
    cases inked with
    | nil =>
      rw [List.append_nil] at h
      by_cases hne : gap = []
      · rw [hne] at h
        cases subject <;> cases h
      · rw [run_spaces hgap hne] at h
        cases h
    | cons c cs =>
      rw [List.length_cons] at hlength
      by_cases hquote : c = '"'
      · subst hquote
        refine finish_of_front_quote hgap (fun later hless hsettles next hnext => ?_) h hcursor
        refine ih later.length (by omega) (fun hliteral => ?_) ?_ hnext rfl
        · cases subject <;> cases hliteral
        · rwa [Subject.place_next]
      · refine finish_of_front_other hbody hgap ⟨hquote, hinked c rfl⟩ hword
          (fun later hless hends hsettles next hnext => ?_) h hcursor
        rw [List.length_cons] at hless
        exact ih later.length (by omega) (fun _ => hends) hsettles hnext rfl

end Parser

end ShellCompletion
