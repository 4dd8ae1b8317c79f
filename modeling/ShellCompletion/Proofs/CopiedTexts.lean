import ShellCompletion.Proofs.Continuations

/-!
# Texts copied into a grammar

A text that is copied into a grammar without escapes need not be read as one lexeme. A literal or a
quoted text either takes all of it, or stops at a character with which nothing can begin, or comes to a
character with a meaning of its own. In the second case no parser gets any further: whatever stands
around the text, the expression that it is part of cannot be read to its end. Texts between bars can be
read if a sequence takes each of them, and they cannot if it halts in one behind others that it takes.
-/

namespace ShellCompletion

namespace Lexeme

/-- How a text that is copied into a grammar fits the lexeme that it stands for. -/
inductive Fit where
  /-- The lexeme takes the text. -/
  | whole
  /-- The lexeme stops inside of the text, at a character with which nothing begins. -/
  | refused
  /-- The text holds a character that ends the lexeme, or a backslash that escapes what is behind it. -/
  | leaking
deriving DecidableEq, Repr

/-- The first fit that is not whole, if there is one. -/
def Fit.first : List Fit → Fit
  | [] => .whole
  | .whole :: fits => first fits
  | fit :: _ => fit

/-- No fit is reported exactly if all are whole. -/
theorem Fit.first_eq_whole_iff {fits : List Fit} : first fits = .whole ↔ ∀ fit ∈ fits, fit = .whole := by
  induction fits with
  | nil => simp [first]
  | cons fit fits ih => cases fit <;> simp [first, ih]

/-- Texts in front of the first one that does not fit are whole. -/
theorem Fit.exists_of_first {ι : Type} {fit : ι → Fit} {texts : List ι} {misfit : Fit}
    (h : first (texts.map fit) = misfit) (hmisfit : misfit ≠ .whole) :
    ∃ earlier text later, texts = earlier ++ text :: later ∧ (∀ t ∈ earlier, fit t = .whole) ∧
      fit text = misfit := by
  induction texts with
  | nil => exact (hmisfit h.symm).elim
  | cons text texts ih =>
    cases hfit : fit text with
    | whole =>
      rw [List.map_cons, hfit] at h
      obtain ⟨earlier, found, later, rfl, hearlier, hfound⟩ := ih h
      exact ⟨text :: earlier, found, later, rfl, List.forall_mem_cons.mpr ⟨hfit, hearlier⟩, hfound⟩
    | refused =>
      rw [List.map_cons, hfit] at h
      exact ⟨[], text, texts, rfl, by simp, hfit.trans h⟩
    | leaking =>
      rw [List.map_cons, hfit] at h
      exact ⟨[], text, texts, rfl, by simp, hfit.trans h⟩

/-- The marks with which something may go on behind a literal. The two other reserved characters only
close names and commands. -/
def isMark (c : Char) : Bool := isReserved c && c ≠ '>' && c ≠ '\x7d'

/-- How a text fits a literal. -/
def literalFit : List Char → Fit
  | [] => .whole
  | c :: cs =>
    if c = '\\' then
      match cs with
      | [] => .leaking
      | d :: ds => if isReserved d then literalFit ds else .refused
    else if isPlain c then literalFit cs
    else if isMark c || !isInked c then .leaking
    else .refused

/-- How a text fits between quotes. -/
def quotedFit : List Char → Fit
  | [] => .whole
  | c :: cs =>
    if c = '"' then .leaking
    else if c = '\\' then
      match cs with
      | [] => .leaking
      | d :: ds => if d = '\\' || d = '"' || isSpace d then quotedFit ds else .refused
    else quotedFit cs

/-- A character with which nothing begins, and which ends nothing either. -/
structure Foreign (c : Char) : Prop where
  ends : c ≠ '\\' ∧ isPlain c = false
  mark : isMark c = false
  inked : isInked c = true

theorem ne_of_isMark {c d : Char} (hc : isMark c = false) (hd : isMark d = true) : c ≠ d := by
  rintro rfl
  rw [hc] at hd
  cases hd

/-- Only marks open something. -/
theorem not_mem_openings {c : Char} (hc : isMark c = false) : c ∉ openings := by
  intro hopening
  simp only [openings, List.mem_cons, List.not_mem_nil, or_false] at hopening
  rcases hopening with rfl | rfl | rfl | rfl <;> cases hc

/-- A text that fits a literal is read up to the end of the literal. -/
theorem plainRun_of_whole {text : List Char} (h : literalFit text = .whole) {rest : List Char}
    (hrest : EndsLiteral rest) : ∃ read, plainRun (text ++ rest) = some (read, text.length) ∧
      (text ≠ [] → read ≠ []) := by
  fun_induction literalFit text with
  | case1 => exact ⟨[], plainRun_of_ends hrest, fun hne => (hne rfl).elim⟩
  | case2 => cases h
  | case3 d ds hreserved ih =>
    obtain ⟨read, hread, -⟩ := ih h
    exact ⟨d :: read, by simp [plainRun, hreserved, hread], fun _ => List.cons_ne_nil _ _⟩
  | case4 => cases h
  | case5 c cs hc hplain ih =>
    obtain ⟨read, hread, -⟩ := ih h
    refine ⟨c :: read, ?_, fun _ => List.cons_ne_nil _ _⟩
    rw [List.cons_append, plainRun.eq_def]
    simp [hc, hplain, hread]
  | case6 => cases h
  | case7 => cases h

/-- A text that fits a literal is read as one. -/
theorem literal_of_whole {text : List Char} (h : literalFit text = .whole) (hne : text ≠ [])
    {rest : List Char} (hrest : EndsLiteral rest) :
    ∃ read, literal (text ++ rest) = some (read, text.length) := by
  obtain ⟨read, hread, hread'⟩ := plainRun_of_whole h hrest
  refine ⟨String.ofList read, ?_⟩
  rw [literal, hread]
  simpa using hread' hne

/-- How a text goes on decides how it fits, if its beginning does. -/
theorem literalFit_append {text : List Char} (h : literalFit text = .whole) (more : List Char) :
    literalFit (text ++ more) = literalFit more := by
  fun_induction literalFit text with
  | case1 => rfl
  | case2 => cases h
  | case3 d ds hreserved ih => simpa [literalFit, hreserved] using ih h
  | case4 => cases h
  | case5 c cs hc hplain ih =>
    rw [List.cons_append, literalFit.eq_def]
    simpa [hc, hplain] using ih h
  | case6 => cases h
  | case7 => cases h

/-- A refused text has no literal in front, or one that ends before a foreign character. -/
theorem plainRun_of_refused {text : List Char} (h : literalFit text = .refused) (rest : List Char)
    {read : List Char} {count : Nat} (hread : plainRun (text ++ rest) = some (read, count)) :
    ∃ c cs, (text ++ rest).drop count = c :: cs ∧ Foreign c := by
  fun_induction literalFit text generalizing read count with
  | case1 => cases h
  | case2 => cases h
  | case3 d ds hreserved ih =>
    simp only [List.cons_append, plainRun, if_true, hreserved, Option.map_eq_some_iff,
      Prod.mk.injEq, Prod.exists] at hread
    obtain ⟨read', count', hread', -, rfl⟩ := hread
    obtain ⟨c, cs, hdrop, hforeign⟩ := ih h hread'
    exact ⟨c, cs, by simpa using hdrop, hforeign⟩
  | case4 d ds hreserved => simp [plainRun, hreserved] at hread
  | case5 c cs hc hplain ih =>
    rw [List.cons_append, plainRun.eq_def] at hread
    simp only [hc, if_false, hplain, if_true, Option.map_eq_some_iff, Prod.mk.injEq,
      Prod.exists] at hread
    obtain ⟨read', count', hread', -, rfl⟩ := hread
    obtain ⟨c', cs', hdrop, hforeign⟩ := ih h hread'
    exact ⟨c', cs', by simpa using hdrop, hforeign⟩
  | case6 => cases h
  | case7 c cs hc hplain hmark =>
    have hends : c ≠ '\\' ∧ isPlain c = false := ⟨hc, by simpa using hplain⟩
    rw [List.cons_append, plainRun_of_ends (endsLiteral_cons hends _)] at hread
    cases hread
    simp only [Bool.or_eq_true, Bool.not_eq_true', not_or, Bool.not_eq_true, Bool.not_eq_false]
      at hmark
    exact ⟨c, cs ++ rest, rfl, hends, hmark.1, hmark.2⟩

/-- A literal that is read of a text that is refused ends before a character with which nothing
begins. -/
theorem literal_of_refused {text : List Char} (h : literalFit text = .refused) (rest : List Char)
    {read : String} {count : Nat} (hread : literal (text ++ rest) = some (read, count)) :
    ∃ c cs, (text ++ rest).drop count = c :: cs ∧ Foreign c := by
  obtain ⟨⟨run, length⟩, hrun, hread⟩ := Option.bind_eq_some_iff.mp hread
  dsimp only at hread
  split at hread
  · cases hread
  · cases hread
    exact plainRun_of_refused h rest hrun

/-- An escape is passed over, and at most what becomes of white space behind it changes. -/
theorem quotedRun_escaped {d : Char} (hd : (d = '\\' || d = '"' || isSpace d) = true)
    (vanishing : Bool) (cs : List Char) :
    ∃ later, (quotedRun vanishing ('\\' :: d :: cs)).2 = (quotedRun later cs).2 + 2 := by
  have hspace : isSpace '\\' = false := by decide
  have hquote : '\\' ≠ '"' := by decide
  rw [quotedRun.eq_def]
  simp only [hspace, Bool.and_false, Bool.false_eq_true, if_false, hquote, if_true]
  by_cases hmark : (d = '\\' || d = '"') = true
  · exact ⟨false, by rw [if_pos hmark]⟩
  · refine ⟨true, ?_⟩
    rw [if_neg hmark, if_pos]
    simpa [hmark] using hd

/-- An ordinary character between quotes is taken. -/
theorem quotedRun_ordinary {c : Char} (hquote : c ≠ '"') (hslash : c ≠ '\\') (vanishing : Bool)
    (cs : List Char) : ∃ later, (quotedRun vanishing (c :: cs)).2 = (quotedRun later cs).2 + 1 := by
  rw [quotedRun.eq_def]
  simp only [hquote, if_false, hslash]
  split
  · exact ⟨true, rfl⟩
  · exact ⟨false, rfl⟩

/-- White space that vanishes takes as much of the source as white space that stays. -/
theorem quotedRun_of_whole {text : List Char} (h : quotedFit text = .whole) {rest : List Char}
    (hrest : ∀ c ∈ rest.head?, c = '"') (vanishing : Bool) :
    (quotedRun vanishing (text ++ rest)).2 = text.length := by
  fun_induction quotedFit text generalizing vanishing with
  | case1 =>
    cases rest with
    | nil => rfl
    | cons c cs =>
      cases hrest c rfl
      rw [List.nil_append, quotedRun.eq_def]
      simp [isSpace]
  | case2 => cases h
  | case3 => cases h
  | case4 d ds hescaped _ ih =>
    obtain ⟨later, hlater⟩ := quotedRun_escaped hescaped vanishing (ds ++ rest)
    rw [List.cons_append, List.cons_append, hlater, ih h, List.length_cons, List.length_cons]
  | case5 => cases h
  | case6 c cs hquote hslash ih =>
    obtain ⟨later, hlater⟩ := quotedRun_ordinary hquote hslash vanishing (cs ++ rest)
    rw [List.cons_append, hlater, ih h, List.length_cons]

/-- A text that fits between quotes is read with them. -/
theorem quoted_of_whole {text : List Char} (h : quotedFit text = .whole) (rest : List Char) :
    ∃ read, quoted ('"' :: (text ++ '"' :: rest)) = some (read, text.length + 2) := by
  have hrun : (quotedRun false (text ++ '"' :: rest)).2 = text.length :=
    quotedRun_of_whole h (by simp) false
  refine ⟨String.ofList (quotedRun false (text ++ '"' :: rest)).1, ?_⟩
  simp [quoted, hrun]

/-- A quoted text needs a closing quote. -/
theorem quoted_of_unclosed {text : List Char} (h : quotedFit text = .whole) :
    quoted ('"' :: text) = none := by
  have hrun : (quotedRun false (text ++ [])).2 = text.length := quotedRun_of_whole h (by simp) false
  rw [List.append_nil] at hrun
  simp [quoted, hrun]

/-- Of a text that is refused between quotes, a backslash is left. -/
theorem quotedRun_of_refused {text : List Char} (h : quotedFit text = .refused) (rest : List Char)
    (vanishing : Bool) :
    ((text ++ rest).drop (quotedRun vanishing (text ++ rest)).2).head? = some '\\' := by
  fun_induction quotedFit text generalizing vanishing with
  | case1 => cases h
  | case2 => cases h
  | case3 => cases h
  | case4 d ds hescaped _ ih =>
    obtain ⟨later, hlater⟩ := quotedRun_escaped hescaped vanishing (ds ++ rest)
    rw [List.cons_append, List.cons_append, hlater]
    exact ih h later
  | case5 d ds hescaped _ =>
    have hspace : isSpace '\\' = false := by decide
    simp_all [quotedRun]
  | case6 c cs hquote hslash ih =>
    obtain ⟨later, hlater⟩ := quotedRun_ordinary hquote hslash vanishing (cs ++ rest)
    rw [List.cons_append, hlater]
    exact ih h later

/-- A text that is refused between quotes is no quoted text. -/
theorem quoted_of_refused {text : List Char} (h : quotedFit text = .refused) (rest : List Char) :
    quoted ('"' :: (text ++ rest)) = none := by
  have hend := quotedRun_of_refused h rest false
  simp [quoted, hend]

theorem ahead_quotation (cs : List Char) : ahead (' ' :: '"' :: cs) = '"' :: cs :=
  ahead_gap [' '] isSpace_of_mem_singleton rfl cs

end Lexeme

namespace Parser

open Lexeme (ahead blankLength isInked isSpace openings EndsLiteral Foreign literalFit quotedFit)

variable {α : Type} {body : Parser Expr} {text rest : List Char}

/-! ### Reading a copied text -/

/-- A text that fits a literal is read as one without description, if none follows. -/
theorem reads_literal_of_whole (h : literalFit text = .whole) (hne : text ≠ [])
    (hends : EndsLiteral rest) (hrefuses : Refuses description rest) :
    Reads literal text rest fun _ => True := by
  obtain ⟨read, hread⟩ := Lexeme.literal_of_whole h hne hends
  exact (reads_literal_of_scan hread hrefuses).mono fun _ _ => trivial

/-! ### Halting -/

/-- Whether what a parser leaves of a text has a property. The parser may refuse the text instead. -/
def Leaves (parser : Parser α) (text : List Char) (S : List Char → Prop) : Prop :=
  ∀ cursor, cursor.rest = text → ∀ a last, parser cursor = some (a, last) → S last.rest

/-- What begins with none of the marks that may follow a sequence: neither a bar nor a mark that closes
something. -/
def Halted (rest : List Char) : Prop := ∀ c ∈ (ahead rest).head?, c ∉ ['|', ';', ')', ']']

/-- What closes nothing and does not begin with two bars. -/
structure Blocked (rest : List Char) : Prop where
  bars : ¬ "||".toList <+: ahead rest
  closing : ∀ c ∈ (ahead rest).head?, c ∉ [';', ')', ']']

section

variable {parser : Parser α} {S : List Char → Prop}

/-- A parser that refuses a text leaves nothing to speak of. -/
theorem Refuses.leaves (h : Refuses parser text) (S : List Char → Prop) : Leaves parser text S := by
  intro cursor hcursor a last hread
  rw [h cursor hcursor] at hread
  cases hread

theorem Leaves.mono {S' : List Char → Prop} (h : Leaves parser text S) (hS : ∀ r, S r → S' r) :
    Leaves parser text S' :=
  fun cursor hcursor a last hread => hS _ (h cursor hcursor a last hread)

end

/-- A character halts the reading if it goes on with nothing and closes nothing. -/
theorem halted_of_inked {gap : List Char} (hgap : ∀ c ∈ gap, isSpace c = true) {c : Char}
    (hink : isInked c = true) (hc : c ∉ ['|', ';', ')', ']']) (cs : List Char) :
    Halted (gap ++ c :: cs) := by
  rw [Halted, Lexeme.ahead_gap gap hgap hink]
  rintro _ ⟨⟩
  exact hc

/-- A character that is no mark halts the reading. -/
theorem halted_of_unmarked {gap : List Char} (hgap : ∀ c ∈ gap, isSpace c = true) {c : Char}
    (hink : isInked c = true) (hc : Lexeme.isMark c = false) (cs : List Char) :
    Halted (gap ++ c :: cs) := by
  refine halted_of_inked hgap hink ?_ cs
  intro hmark
  simp only [List.mem_cons, List.not_mem_nil, or_false] at hmark
  rcases hmark with rfl | rfl | rfl | rfl <;> cases hc

/-- Where the reading is halted, no bar follows. -/
theorem Halted.head_ne_bar (h : Halted rest) : (ahead rest).head? ≠ some '|' :=
  fun hhead => h '|' hhead (by decide)

/-- Where the reading is halted, it is blocked. -/
theorem Halted.blocked (h : Halted rest) : Blocked rest where
  bars := by
    rintro ⟨tail, htail⟩
    exact h.head_ne_bar (by rw [← htail]; rfl)
  closing c hc hin := h c hc (List.mem_cons_of_mem _ hin)

/-- Where the reading is halted, no branch follows. -/
theorem Halted.refuses_further_sequence (h : Halted rest) :
    Refuses (further (operator "|") (sequence body)) rest :=
  Parser.refuses_further_sequence fun _ hcs => (h.head_ne_bar (by rw [hcs]; rfl)).elim

/-- A character with which nothing begins goes on with no sequence. -/
theorem still_of_foreign {gap : List Char} (hgap : ∀ c ∈ gap, isSpace c = true) {c : Char}
    (h : Foreign c) (cs : List Char) : Still body (gap ++ c :: cs) := by
  have hdot : c ≠ '.' := by
    rintro rfl
    cases h.ends.2
  refine still_of_refuses hgap (Lexeme.blankLength_of_inked h.inked cs)
    (Lexeme.quoted_eq_none ?_) (by simpa using hdot)
    (refuses_atom (endsUnit_cons ⟨h.ends, Lexeme.not_mem_openings h.mark⟩ cs))
  simpa using Lexeme.ne_of_isMark h.mark (d := '"') rfl

/-- A sequence does not get past a literal that is refused. -/
theorem leaves_sequence_of_refused (hhead : ∀ d ∈ openings, (text ++ rest).head? ≠ some d)
    (h : literalFit text = .refused) : Leaves (sequence body) (text ++ rest) Halted := by
  intro cursor hcursor a last hread
  cases hscan : Lexeme.literal (text ++ rest) with
  | none =>
    rw [(refuses_atom_of_literal hhead hscan).sequence cursor hcursor] at hread
    cases hread
  | some found =>
    obtain ⟨c, cs, hdrop, hforeign⟩ := Lexeme.literal_of_refused h rest hscan
    have hrest : (cursor.advance found.2).rest = [] ++ c :: cs := by
      rw [Cursor.rest_advance, hcursor, hdrop, List.nil_append]
    have hnone : ∀ d ∈ ([] : List Char), isSpace d = true := by simp
    obtain ⟨x, hx⟩ : ∃ x, sequence body cursor =
        some (x, finish body .literal (cursor.advance found.2)) :=
      sequence_of_literal (hcursor ▸ hhead) (hcursor ▸ hscan)
    rw [hx, finish_of_still (hrest ▸ still_of_foreign hnone hforeign cs)] at hread
    cases hread
    rw [hrest]
    exact halted_of_unmarked hnone hforeign.inked hforeign.mark cs

/-- Joined operands leave what the first one does, if none can follow that. -/
theorem leaves_joined {separator : Parser Unit} {operand : Parser Expr} {combine : List Expr → Expr}
    {S : List Char → Prop} (h : Leaves operand text S)
    (hS : ∀ r, S r → Refuses (further separator operand) r) :
    Leaves (joined separator operand combine) text S := by
  intro cursor hcursor a last hread
  obtain ⟨⟨e, next⟩, he, hread⟩ := Option.bind_eq_some_iff.mp hread
  have hnext := h cursor hcursor e next he
  have hmany : many (further separator operand) next = ([], next) := many_of_refuses (hS _ hnext)
  unfold further at hmany
  simp only [Option.bind_eq_bind, hmany, Option.pure_def, Option.some.injEq, Prod.mk.injEq] at hread
  rwa [← hread.2]

/-! ### Bars between copied texts -/

/-- A text that is read as a sequence before all that a sequence stops before. -/
structure ReadsWhole (body : Parser Expr) (text : List Char) : Prop where
  inked : ∀ tail, blankLength false (text ++ tail) = 0
  reads : ∀ tail, StopsSequence tail → Reads (sequence body) text tail fun _ => True

section

variable (gap : List Char) (hgap : ∀ c ∈ gap, isSpace c = true) {texts : List (List Char)}

include hgap

/-- A bar is read with the blanks around it. -/
theorem reads_bar (hink : blankLength false rest = 0) :
    Reads (operator "|") (gap ++ ['|', ' ']) rest fun _ => True :=
  reads_operator "|" hgap Lexeme.isSpace_of_mem_singleton
    (fun _ => Lexeme.blankLength_of_inked rfl _) hink

theorem stopsSequence_of_bar (tail : List Char) : StopsSequence (gap ++ ['|', ' '] ++ tail) := by
  rw [List.append_assoc]
  exact stopsSequence_of_mark hgap (by decide) _

/-- A single bar goes on with no fallback. -/
theorem blocked_of_bar (tail : List Char) : Blocked (gap ++ ['|', ' '] ++ tail) := by
  have hahead : ahead (gap ++ ['|', ' '] ++ tail) = '|' :: ' ' :: tail := by
    rw [List.append_assoc]
    exact Lexeme.ahead_gap gap hgap rfl _
  constructor
  · rw [hahead]
    simp
  · rw [hahead]
    rintro _ ⟨⟩
    decide

/-- Texts with bars between them are read together if each one is read as a whole. -/
theorem reads_fallback_texts (hne : texts ≠ []) (h : ∀ t ∈ texts, ReadsWhole body t)
    (hrest : StopsFallback rest) :
    Reads (fallback body) ((gap ++ ['|', ' ']).intercalate texts) rest fun _ => True := by
  refine reads_fallback_one ?_ hrest
  match texts with
  | [] => exact (hne rfl).elim
  | [t] =>
    have ht := (h t (by simp)).reads rest hrest.toStopsSequence
    simpa [List.intercalate] using reads_alternative_one ht hrest.alternative
  | t :: t' :: ts =>
    rw [← List.map_id (t :: t' :: ts)]
    refine (reads_joined_several (F := StopsSequence) (P := fun _ _ => True) (by simp) ?_ ?_ ?_
      hrest.toStopsSequence (by simp) (refuses_further_sequence hrest.alternative.bar)).mono
      fun _ _ => trivial
    · exact fun e he => (h e he).reads
    · exact fun e he tail => reads_bar gap hgap ((h e he).inked tail)
    · exact fun _ _ _ => stopsSequence_of_bar gap hgap _

/-- A sequence stops before further branches. -/
theorem stopsSequence_of_texts (hne : texts ≠ []) :
    StopsSequence (texts.flatMap (gap ++ ['|', ' '] ++ ·)) := by
  obtain ⟨t, ts, rfl⟩ := List.exists_cons_of_ne_nil hne
  rw [List.flatMap_cons, List.append_assoc]
  exact stopsSequence_of_bar gap hgap _

variable {bad : List Char} (hink : blankLength false bad = 0)
  (hbad : Leaves (sequence body) bad Halted)

include hink hbad

/-- Texts behind bars are read up to one in which a sequence halts. What is left then begins inside of
that text or with the bar in front of it. -/
theorem atMost_blocked (h : ∀ t ∈ texts, ReadsWhole body t) {count : Nat} (hcount : texts.length < count)
    (cursor : Cursor) (hcursor : cursor.rest = (texts ++ [bad]).flatMap (gap ++ ['|', ' '] ++ ·)) :
    Blocked (atMost (further (operator "|") (sequence body)) count cursor).2.rest := by
  induction texts generalizing count cursor with
  | nil =>
    obtain ⟨count, rfl⟩ : ∃ n, count = n + 1 := Nat.exists_eq_succ_of_ne_zero (by
      rw [List.length_nil] at hcount
      omega)
    rw [List.nil_append, List.flatMap_singleton] at hcursor
    obtain ⟨⟨⟩, start, hbar, hstart, -⟩ := reads_bar gap hgap hink cursor hcursor
    have hfurther : further (operator "|") (sequence body) cursor = sequence body start := by
      rw [further, hbar, Option.bind_some]
    rw [atMost, hfurther]
    cases hread : sequence body start with
    | none =>
      dsimp only
      rw [hcursor]
      exact blocked_of_bar gap hgap _
    | some found =>
      have hhalted := hbad start hstart found.1 found.2 hread
      dsimp only
      rw [atMost_of_refuses hhalted.refuses_further_sequence]
      exact hhalted.blocked
  | cons t ts ih =>
    obtain ⟨count, rfl⟩ : ∃ n, count = n + 1 := Nat.exists_eq_succ_of_ne_zero (by omega)
    have hwhole := h t (by simp)
    rw [List.cons_append, List.flatMap_cons, List.append_assoc] at hcursor
    obtain ⟨⟨⟩, start, hbar, hstart, -⟩ := reads_bar gap hgap (hwhole.inked _) cursor hcursor
    obtain ⟨x, next, hx, hnext, -⟩ := 
      hwhole.reads _ (stopsSequence_of_texts gap hgap (by simp)) start hstart
    have hfurther : further (operator "|") (sequence body) cursor = some (x, next) := by
      rw [further, hbar, Option.bind_some, hx]
    rw [atMost, hfurther]
    exact ih (fun t' ht' => h t' (by simp [ht'])) (Nat.lt_of_succ_lt_succ hcount) next hnext

/-- If the reading is blocked in the last one of the texts between bars, it is blocked in all of them. -/
theorem leaves_fallback_texts (h : ∀ t ∈ texts, ReadsWhole body t) :
    Leaves (fallback body) ((gap ++ ['|', ' ']).intercalate (texts ++ [bad])) Blocked := by
  refine leaves_joined ?_ fun _ hr => refuses_further_operator hr.bars
  cases texts with
  | nil =>
    rw [List.nil_append, List.intercalate_singleton]
    exact (leaves_joined hbad fun _ hr => hr.refuses_further_sequence).mono fun _ => Halted.blocked
  | cons t ts =>
    rw [List.cons_append, intercalate_cons]
    intro cursor hcursor a last hread
    obtain ⟨x, next, hx, hnext, -⟩ :=
      (h t (by simp)).reads _ (stopsSequence_of_texts gap hgap (by simp)) cursor hcursor
    have hcount : ts.length < next.rest.length := by
      rw [hnext]
      have hlength : (ts ++ [bad]).length ≤ ((ts ++ [bad]).flatMap (gap ++ ['|', ' '] ++ ·)).length :=
        length_le_length_flatMap (by simp)
      rw [List.length_append, List.length_singleton] at hlength
      omega
    have hblocked : Blocked (many (further (operator "|") (sequence body)) next).2.rest :=
      atMost_blocked gap hgap hink hbad (fun t' ht' => h t' (by simp [ht'])) hcount next hnext
    unfold further at hblocked
    simp only [alternative, joined, hx, Option.bind_eq_bind, Option.bind_some, Option.pure_def]
      at hread
    split at hread <;> next heq => cases hread; rwa [heq] at hblocked

end

/-- No unit is read from an opening bracket behind which nothing closes it. -/
theorem refuses_atom_of_blocked (hink : blankLength false text = 0) (h : Leaves body text Blocked) :
    Refuses (atom body) ('(' :: text) := by
  have hbetween : Refuses (between "(" ")" body) ('(' :: text) := by
    intro cursor hcursor
    obtain ⟨⟨⟩, start, hstart, hrest, -⟩ := reads_exactly "(" text cursor hcursor
    have hskip : (skipBlanks start).rest = text := by
      rw [rest_skipBlanks, hrest, Lexeme.ahead_eq_self hink]
    cases hread : body (skipBlanks start) with
    | none => simp [between, hstart, hread]
    | some found =>
      have hblocked := h _ hskip found.1 found.2 hread
      have hnone : exactly ")" (skipBlanks found.2) = none := by
        refine refuses_exactly_of_head rfl ?_ _ (rest_skipBlanks found.2)
        exact fun hhead => hblocked.closing ')' hhead (by decide)
      simp [between, hstart, hread, hnone]
  refine Refuses.orElse (refuses_reference (by simp)) ?_
  refine Refuses.orElse (refuses_optional (by simp)) (Refuses.orElse hbetween ?_)
  exact Refuses.orElse (refuses_command (by simp))
    (refuses_literal (Lexeme.endsLiteral_cons (by decide) _))

end Parser

end ShellCompletion
