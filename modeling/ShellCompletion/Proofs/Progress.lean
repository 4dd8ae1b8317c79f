import Mathlib.Data.Nat.Notation
import ShellCompletion.Proofs.Descent

/-!
# Reading makes progress

Every parser of the descent takes at least one character of what it reads. So a loop that repeats one ends
where the parser refuses, and never at the bound that is set for it, and brackets are never nested more
deeply than the bound for them allows. The bounds make no difference: loops and nested expressions are read
as if there were none.
-/

namespace ShellCompletion

namespace Cursor

/-- Whether one cursor is reached from another by moving on. -/
def Reaches (start stop : Cursor) : Prop := ∃ count, start.advance count = stop

/-- Whether one cursor is reached from another by taking characters. -/
def Passes (start stop : Cursor) : Prop :=
  start.Reaches stop ∧ stop.rest.length < start.rest.length

variable {start middle stop : Cursor}

/-- Two advances are one by the sum of their lengths. -/
theorem advance_advance (first second : ℕ) (cursor : Cursor) :
    advance second (advance first cursor) = advance (first + second) cursor := by
  induction first generalizing cursor with
  | zero => rw [Nat.zero_add, advance]
  | succ first ih =>
    rw [Nat.succ_add]
    cases hrest : cursor.rest with
    | nil =>
      cases second with
      | zero => simp [advance, hrest]
      | succ second => simp [advance, hrest]
    | cons c cs =>
      rw [advance, advance, hrest]
      dsimp only
      split <;> exact ih _

theorem Reaches.refl (cursor : Cursor) : cursor.Reaches cursor := ⟨0, rfl⟩

/-- Reading goes on from where reading has come to. -/
theorem Reaches.trans (h : start.Reaches middle) (h' : middle.Reaches stop) : start.Reaches stop := by
  obtain ⟨first, rfl⟩ := h
  obtain ⟨second, rfl⟩ := h'
  exact ⟨first + second, (advance_advance ..).symm⟩

/-- Reading leaves no more of a text than there was. -/
theorem Reaches.length_le (h : start.Reaches stop) : stop.rest.length ≤ start.rest.length := by
  obtain ⟨count, rfl⟩ := h
  rw [rest_advance, List.length_drop]
  omega

/-- Reading that passes a character still does so when it goes on. -/
theorem Passes.trans_reaches (h : start.Passes middle) (h' : middle.Reaches stop) : start.Passes stop :=
  ⟨h.1.trans h', h'.length_le.trans_lt h.2⟩

/-- Reading passes a character if its last part does. -/
theorem Reaches.trans_passes (h : start.Reaches middle) (h' : middle.Passes stop) : start.Passes stop :=
  ⟨h.trans h'.1, h'.2.trans_le h.length_le⟩

theorem Passes.trans (h : start.Passes middle) (h' : middle.Passes stop) : start.Passes stop :=
  h.trans_reaches h'.1

/-- An advance passes a character if there is one to pass. -/
theorem passes_advance {count : ℕ} {cursor : Cursor} (hcount : 0 < count) (hrest : cursor.rest ≠ []) :
    cursor.Passes (cursor.advance count) := by
  refine ⟨⟨count, rfl⟩, ?_⟩
  have hlength := List.length_pos_of_ne_nil hrest
  rw [rest_advance, List.length_drop]
  omega

end Cursor

namespace Lexeme

/-- Whether all that a scanner finds takes characters. -/
def Takes {α : Type} (scan : List Char → Option (α × ℕ)) : Prop :=
  ∀ cs item count, scan cs = some (item, count) → 0 < count ∧ cs ≠ []

/-- A run of plain characters that gives a text takes a part of the source. -/
theorem plainRun_takes {cs text : List Char} {count : ℕ} (h : plainRun cs = some (text, count))
    (hne : text ≠ []) : 0 < count ∧ cs ≠ [] := by
  cases cs with
  | nil =>
    cases h
    exact (hne rfl).elim
  | cons c cs =>
    refine ⟨Nat.pos_of_ne_zero ?_, List.cons_ne_nil c cs⟩
    rintro rfl
    unfold plainRun at h
    split at h
    · split at h
      · cases h
      · split at h
        · obtain ⟨_, -, heq⟩ := Option.map_eq_some_iff.mp h
          cases heq
        · cases h
    · split at h
      · obtain ⟨_, -, heq⟩ := Option.map_eq_some_iff.mp h
        cases heq
      · cases h
        exact hne rfl

/-- A literal takes at least one character. -/
theorem takes_literal : Takes literal := by
  intro cs item count h
  simp only [literal, Option.bind_eq_bind, Option.bind_eq_some_iff] at h
  obtain ⟨⟨text, taken⟩, hrun, h⟩ := h
  dsimp only at h
  split at h
  · cases h
  · next hne =>
    cases h
    exact plainRun_takes hrun (by simpa using hne)

theorem takes_quoted : Takes quoted := by
  intro cs item count h
  rw [quoted.eq_def] at h
  split at h
  · dsimp only at h
    split at h
    · cases h
      exact ⟨Nat.succ_pos _, List.cons_ne_nil _ _⟩
    · cases h
  · cases h

theorem takes_name : Takes name := by
  intro cs item count h
  rw [name.eq_def] at h
  split at h
  · dsimp only at h
    split at h
    · cases h
    · cases h
      exact ⟨Nat.succ_pos _, List.cons_ne_nil _ _⟩
  · cases h

theorem takes_nameForShell : Takes nameForShell := by
  intro cs item count h
  rw [nameForShell.eq_def] at h
  split at h
  · dsimp only at h
    split at h
    · split at h
      · cases h
      · cases h
        exact ⟨Nat.succ_pos _, List.cons_ne_nil _ _⟩
    · cases h
  · cases h

theorem takes_command : Takes command := by
  intro cs item count h
  rw [command] at h
  split at h
  · next hopening =>
    obtain ⟨text, -, heq⟩ := Option.map_eq_some_iff.mp h
    cases heq
    refine ⟨Nat.succ_pos _, ?_⟩
    rintro rfl
    revert hopening
    decide
  · cases h

end Lexeme

namespace Parser

open Cursor (Reaches Passes)

variable {α : Type}

/-- Whether a parser takes characters of all that it reads. -/
def Consumes (parser : Parser α) : Prop :=
  ∀ start item stop, parser start = some (item, stop) → start.Passes stop

/-- What consumes a part of a text finds nothing where none is left. -/
theorem Consumes.ne_nil {parser : Parser α} (h : Consumes parser) {cursor : Cursor} {found : α × Cursor}
    (hread : parser cursor = some found) : cursor.rest ≠ [] :=
  List.ne_nil_of_length_pos (Nat.zero_lt_of_lt (h cursor found.1 found.2 hread).2)

/-- Nothing is read at the end of the text. -/
theorem Consumes.eq_none {parser : Parser α} (h : Consumes parser) {cursor : Cursor}
    (hcursor : cursor.rest = []) : parser cursor = none :=
  Option.eq_none_iff_forall_ne_some.mpr fun _ hread => h.ne_nil hread hcursor

/-- A parser made of a scan consumes what the scan takes. -/
theorem consumes_ofScan {scan : List Char → Option (α × ℕ)} (h : Lexeme.Takes scan) :
    Consumes (ofScan scan) := by
  intro start item stop hread
  simp only [ofScan, Option.bind_eq_bind, Option.bind_eq_some_iff] at hread
  obtain ⟨⟨found, count⟩, hscan, heq⟩ := hread
  cases heq
  obtain ⟨hcount, hrest⟩ := h _ _ _ hscan
  exact Cursor.passes_advance hcount hrest

/-- Reading a given text consumes it, if it is not empty. -/
theorem consumes_exactly {text : String} (htext : text.toList ≠ []) : Consumes (exactly text) := by
  intro start item stop hread
  rw [exactly] at hread
  split at hread
  · next hfront =>
    cases hread
    refine Cursor.passes_advance ?_ ?_
    · rw [← String.length_toList]
      exact List.length_pos_of_ne_nil htext
    · rintro hnil
      rw [hnil, List.isPrefixOf_iff_prefix, List.prefix_nil] at hfront
      exact htext hfront
  · cases hread

theorem reaches_skipBlanks (cursor : Cursor) : cursor.Reaches (skipBlanks cursor) := ⟨_, rfl⟩

/-- The blanks between items take at least one character. -/
theorem consumes_blanks : Consumes blanks := by
  intro start item stop hread
  rw [blanks] at hread
  split at hread
  · cases hread
  · next hcount =>
    cases hread
    refine Cursor.passes_advance (Nat.pos_of_ne_zero hcount) ?_
    rintro hnil
    rw [hnil] at hcount
    exact hcount rfl

/-- A parser behind blanks takes characters if it does so without them. -/
theorem Consumes.after_blanks {parser : Parser α} (h : Consumes parser) :
    Consumes fun cursor => parser (skipBlanks cursor) := fun start item stop hread =>
  (reaches_skipBlanks start).trans_passes (h _ item stop hread)

/-- A choice of two parsers consumes a part of the text if both do. -/
theorem Consumes.orElse {first second : Parser α} (hfirst : Consumes first) (hsecond : Consumes second) :
    Consumes fun cursor => first cursor <|> second cursor := by
  intro start item stop hread
  dsimp only at hread
  cases hstart : first start with
  | none =>
    rw [hstart] at hread
    exact hsecond start item stop hread
  | some found =>
    rw [hstart] at hread
    cases hread
    exact hfirst start item stop hstart

/-! ### Loops -/

/-- Whether items are read one after the other between two cursors. -/
inductive Repeats (item : Parser α) : Cursor → List α → Cursor → Prop
  | done (cursor : Cursor) : Repeats item cursor [] cursor
  | more {start next stop : Cursor} {first : α} {others : List α} :
    item start = some (first, next) → Repeats item next others stop →
    Repeats item start (first :: others) stop

/-- Whether repeating a parser goes on for exactly as long as it reads, without any bound. -/
def Loops (item : Parser α) : Prop :=
  ∀ cursor, many item cursor =
    match item cursor with
    | none => ([], cursor)
    | some (first, next) => (first :: (many item next).1, (many item next).2)

section

variable {item : Parser α}

/-- One round more than there are characters makes no difference. -/
theorem atMost_succ (h : Consumes item) {count : ℕ} {cursor : Cursor}
    (hcount : cursor.rest.length ≤ count) : atMost item (count + 1) cursor = atMost item count cursor := by
  induction count generalizing cursor with
  | zero =>
    rw [atMost, atMost]
    cases hitem : item cursor with
    | none => rfl
    | some found =>
      have hless := (h cursor found.1 found.2 hitem).2
      omega
  | succ count ih =>
    rw [atMost]
    conv_rhs => rw [atMost]
    cases hitem : item cursor with
    | none => rfl
    | some found =>
      have hless := (h cursor found.1 found.2 hitem).2
      dsimp only
      rw [ih (by omega)]

/-- As many rounds as there are characters are enough. -/
theorem atMost_eq_many (h : Consumes item) {count : ℕ} {cursor : Cursor}
    (hcount : cursor.rest.length ≤ count) : atMost item count cursor = many item cursor := by
  induction hcount with
  | refl => rfl
  | step hle ih => rw [atMost_succ h hle, ih]

/-- A loop has no bound if the repeated parser takes characters. -/
theorem Consumes.loops (h : Consumes item) : Loops item := by
  intro cursor
  rw [← atMost_eq_many h (Nat.le_succ _), atMost]
  cases hitem : item cursor with
  | none => rfl
  | some found =>
    have hless := (h cursor found.1 found.2 hitem).2
    dsimp only
    rw [atMost_eq_many h hless.le]

/-- What a loop reads is read item by item, up to a place where no further item is read. -/
theorem Consumes.repeats_many (h : Consumes item) (cursor : Cursor) :
    Repeats item cursor (many item cursor).1 (many item cursor).2 ∧
      item (many item cursor).2 = none := by
  induction hlength : cursor.rest.length using Nat.strongRecOn generalizing cursor with
  | ind length ih =>
    rw [h.loops cursor]
    cases hitem : item cursor with
    | none => exact ⟨.done cursor, hitem⟩
    | some found =>
      have hless := (h cursor found.1 found.2 hitem).2
      obtain ⟨hothers, hnone⟩ := ih _ (hlength ▸ hless) found.2 rfl
      exact ⟨.more hitem hothers, hnone⟩

/-- A loop goes on from wherever some items end that are read one after the other. -/
theorem Repeats.many_eq (h : Consumes item) {start stop : Cursor} {items : List α}
    (hitems : Repeats item start items stop) :
    many item start = (items ++ (many item stop).1, (many item stop).2) := by
  induction hitems with
  | done => rfl
  | more hfirst _ ih =>
    rw [h.loops, hfirst]
    dsimp only
    rw [ih, List.cons_append]

/-- Reading items one after the other only goes forward. -/
theorem Repeats.reaches (h : Consumes item) {start stop : Cursor} {items : List α}
    (hitems : Repeats item start items stop) : start.Reaches stop := by
  induction hitems with
  | done => exact .refl _
  | more hfirst _ ih => exact (h _ _ _ hfirst).1.trans ih

/-- Reading as many items as there are only goes forward. -/
theorem reaches_many (h : Consumes item) (cursor : Cursor) :
    cursor.Reaches (many item cursor).2 := (h.repeats_many cursor).1.reaches h

end

/-! ### The parsers of the descent -/

theorem consumes_description : Consumes description :=
  (consumes_ofScan Lexeme.takes_quoted).after_blanks

/-- A literal with its description takes a part of the text. -/
theorem consumes_literal : Consumes literal := by
  intro start item stop hread
  simp only [literal, Option.bind_eq_bind, Option.bind_eq_some_iff] at hread
  obtain ⟨⟨text, next⟩, hscan, heq⟩ := hread
  cases heq
  refine (consumes_ofScan Lexeme.takes_literal _ _ _ hscan).trans_reaches ?_
  unfold maybe
  cases hdescription : description next with
  | none => exact .refl next
  | some found => exact (consumes_description _ _ _ hdescription).1

theorem consumes_reference : Consumes reference := by
  intro start item stop hread
  simp only [reference, Option.bind_eq_bind, Option.bind_eq_some_iff] at hread
  obtain ⟨⟨name, last⟩, hscan, heq⟩ := hread
  cases heq
  exact consumes_ofScan Lexeme.takes_name _ _ _ hscan

theorem consumes_pattern : Consumes pattern := by
  intro start item stop hread
  simp only [pattern, Option.bind_eq_bind, Option.bind_eq_some_iff] at hread
  obtain ⟨⟨⟨⟩, c⟩, hsign, ⟨name, c'⟩, hname, shell, -, ⟨text, c''⟩, htext, heq⟩ := hread
  cases heq
  exact (consumes_exactly (by decide) _ _ _ hsign).trans
    ((consumes_ofScan Lexeme.takes_literal _ _ _ hname).trans
      (consumes_ofScan Lexeme.takes_quoted _ _ _ htext))

theorem consumes_command : Consumes command := by
  intro start item stop hread
  simp only [command, Option.bind_eq_bind, Option.bind_eq_some_iff] at hread
  obtain ⟨⟨text, next⟩, hscan, heq⟩ := hread
  cases heq
  exact (consumes_ofScan Lexeme.takes_command _ _ _ hscan).trans_reaches
    (reaches_many consumes_pattern next)

theorem consumes_dots : Consumes dots := (consumes_exactly (by decide)).after_blanks

/-- An operator takes a part of the text, whatever blanks are around it. -/
theorem consumes_operator {text : String} (htext : text.toList ≠ []) : Consumes (operator text) := by
  intro start item stop hread
  simp only [operator, Option.bind_eq_bind, Option.bind_eq_some_iff] at hread
  obtain ⟨⟨⟨⟩, c⟩, htag, heq⟩ := hread
  cases heq
  exact ((consumes_exactly htext).after_blanks _ _ _ htag).trans_reaches (reaches_skipBlanks c)

section

variable {body : Parser Expr}

/-- What stands between two marks takes a part of the text. -/
theorem Consumes.between {opening closing : String} (hopening : opening.toList ≠ [])
    (hclosing : closing.toList ≠ []) (h : Consumes body) :
    Consumes (between opening closing body) := by
  intro start item stop hread
  simp only [Parser.between, Option.bind_eq_bind, Option.bind_eq_some_iff] at hread
  obtain ⟨⟨⟨⟩, c⟩, hopen, ⟨e, c'⟩, hbody, ⟨⟨⟩, c''⟩, hclose, heq⟩ := hread
  cases heq
  exact (consumes_exactly hopening _ _ _ hopen).trans
    ((h.after_blanks _ _ _ hbody).trans ((consumes_exactly hclosing).after_blanks _ _ _ hclose))

theorem Consumes.optional (h : Consumes body) : Consumes (optional body) := by
  intro start item stop hread
  simp only [Parser.optional, Option.bind_eq_bind, Option.bind_eq_some_iff] at hread
  obtain ⟨⟨e, c⟩, he, heq⟩ := hread
  cases heq
  exact h.between (by decide) (by decide) _ _ _ he

/-- An atom takes a part of the text, whatever form it has. -/
theorem Consumes.atom (h : Consumes body) : Consumes (atom body) :=
  consumes_reference.orElse <| h.optional.orElse <|
    (h.between (by decide) (by decide)).orElse <| consumes_command.orElse consumes_literal

/-- A unit takes a part of the text, with dots or without. -/
theorem Consumes.unit (h : Consumes body) : Consumes (unit body) := by
  intro start item stop hread
  simp only [Parser.unit, Option.bind_eq_bind, Option.bind_eq_some_iff] at hread
  obtain ⟨⟨e, c⟩, he, hread⟩ := hread
  have hpasses := h.atom start e c he
  dsimp only at hread
  split at hread
  · next hdots =>
    cases hread
    exact hpasses.trans (consumes_dots _ _ _ hdots)
  · cases hread
    exact hpasses

theorem Consumes.juxtaposition (h : Consumes body) : Consumes (juxtaposition body) := by
  intro start item stop hread
  simp only [Parser.juxtaposition, Option.bind_eq_bind, Option.bind_eq_some_iff] at hread
  obtain ⟨⟨first, next⟩, hfirst, hread⟩ := hread
  have hpasses := h.unit start first next hfirst
  have hothers := reaches_many h.unit next
  dsimp only at hread
  split at hread <;> next hmany =>
    rw [hmany] at hothers
    cases hread
    exact hpasses.trans_reaches hothers

theorem Consumes.item (h : Consumes body) : Consumes (item body) := by
  intro start found stop hread
  simp only [Parser.item, Option.bind_eq_bind, Option.bind_eq_some_iff] at hread
  obtain ⟨⟨e, next⟩, he, hread⟩ := hread
  have hpasses := h.juxtaposition start e next he
  dsimp only at hread
  split at hread
  · next hdescription =>
    cases hread
    exact hpasses.trans (consumes_description _ _ _ hdescription)
  · cases hread
    exact hpasses

/-- A separator and an operand behind it take a part of the text. -/
theorem Consumes.further {separator : Parser Unit} {operand : Parser Expr}
    (hseparator : Consumes separator) (hoperand : Consumes operand) :
    Consumes (further separator operand) := by
  intro start item stop hread
  obtain ⟨x, hx, hread⟩ := Option.bind_eq_some_iff.mp hread
  exact (hseparator _ _ _ hx).trans (hoperand _ _ _ hread)

/-- Operands with separators between them take a part of the text. -/
theorem Consumes.joined {separator : Parser Unit} {operand : Parser Expr}
    {combine : List Expr → Expr} (hseparator : Consumes separator) (hoperand : Consumes operand) :
    Consumes (joined separator operand combine) := by
  intro start item stop hread
  simp only [Parser.joined, Option.bind_eq_bind, Option.bind_eq_some_iff] at hread
  obtain ⟨⟨first, next⟩, hfirst, hread⟩ := hread
  have hpasses := hoperand start first next hfirst
  have hothers := reaches_many (hseparator.further hoperand) next
  unfold Parser.further at hothers
  dsimp only at hread
  split at hread <;> next hmany =>
    rw [hmany] at hothers
    cases hread
    exact hpasses.trans_reaches hothers

theorem Consumes.sequence (h : Consumes body) : Consumes (sequence body) :=
  consumes_blanks.joined h.item

theorem Consumes.alternative (h : Consumes body) : Consumes (alternative body) :=
  (consumes_operator (by decide)).joined h.sequence

theorem Consumes.fallback (h : Consumes body) : Consumes (fallback body) :=
  (consumes_operator (by decide)).joined h.alternative

end

/-- An expression takes a part of the text, however deep its brackets may be. -/
theorem consumes_exprWithin (depth : ℕ) : Consumes (exprWithin depth) := by
  induction depth with
  | zero =>
    intro start item stop hread
    cases hread
  | succ depth ih => exact ih.fallback

theorem consumes_expr : Consumes expr := fun start => consumes_exprWithin (start.rest.length + 1) start

/-- The end of a statement takes a part of the text. -/
theorem consumes_terminator : Consumes terminator := (consumes_exactly (by decide)).after_blanks

theorem consumes_call : Consumes call := by
  intro start item stop hread
  simp only [call, Option.bind_eq_bind, Option.bind_eq_some_iff] at hread
  obtain ⟨⟨head, c₁⟩, hhead, ⟨⟨⟩, c₂⟩, hblanks, ⟨body, c₃⟩, hbody, ⟨⟨⟩, c₄⟩, hend, heq⟩ := hread
  cases heq
  exact (consumes_ofScan Lexeme.takes_literal _ _ _ hhead).trans ((consumes_blanks _ _ _ hblanks).trans
    ((consumes_expr _ _ _ hbody).trans (consumes_terminator _ _ _ hend)))

theorem consumes_definedName : Consumes definedName := by
  refine Consumes.orElse ?_ ?_
  · intro start item stop hread
    simp only [Option.bind_eq_bind, Option.bind_eq_some_iff] at hread
    obtain ⟨⟨⟨name, shell⟩, c⟩, hscan, heq⟩ := hread
    cases heq
    exact consumes_ofScan Lexeme.takes_nameForShell _ _ _ hscan
  · intro start item stop hread
    simp only [Option.bind_eq_bind, Option.bind_eq_some_iff] at hread
    obtain ⟨⟨name, c⟩, hscan, heq⟩ := hread
    cases heq
    exact consumes_ofScan Lexeme.takes_name _ _ _ hscan

theorem consumes_definition : Consumes definition := by
  intro start item stop hread
  simp only [definition, Option.bind_eq_bind, Option.bind_eq_some_iff] at hread
  obtain ⟨⟨⟨name, shell⟩, c₁⟩, hname, ⟨⟨⟩, c₂⟩, hsign, ⟨body, c₃⟩, hbody, ⟨⟨⟩, c₄⟩, hend, heq⟩ := hread
  cases heq
  exact (consumes_definedName _ _ _ hname).trans ((consumes_operator (by decide) _ _ _ hsign).trans
    ((consumes_expr _ _ _ hbody).trans (consumes_terminator _ _ _ hend)))

/-- A statement takes a part of the text. -/
theorem consumes_statement : Consumes statement := by
  intro start item stop hread
  simp only [statement, Option.bind_eq_bind, Option.bind_eq_some_iff] at hread
  obtain ⟨⟨found, c⟩, hfound, heq⟩ := hread
  cases heq
  exact (consumes_call.orElse consumes_definition _ _ _ hfound).trans_reaches (reaches_skipBlanks c)

/-! ### Nested expressions -/

/-- Whether two parsers read alike where fewer than the given number of characters are left. -/
def AgreeBelow (length : ℕ) (first second : Parser α) : Prop :=
  ∀ cursor, cursor.rest.length < length → first cursor = second cursor

section

variable {length : ℕ} {body other : Parser Expr}

/-- Parsers that agree on short texts find the same items in them. -/
theorem AgreeBelow.many {item item' : Parser α} (hitem : Consumes item)
    (h : AgreeBelow length item item') (cursor : Cursor) (hcursor : cursor.rest.length < length) :
    many item cursor = many item' cursor := by
  have hatMost : ∀ count (cursor : Cursor), cursor.rest.length < length →
      atMost item count cursor = atMost item' count cursor := by
    intro count
    induction count with
    | zero => exact fun _ _ => rfl
    | succ count ih =>
      intro cursor hcursor
      rw [atMost, atMost, ← h cursor hcursor]
      cases hfound : item cursor with
      | none => rfl
      | some found =>
        have hless := (hitem cursor found.1 found.2 hfound).2
        dsimp only
        rw [ih found.2 (by omega)]
  exact hatMost _ cursor hcursor

/-- What stands in brackets is shorter than what the brackets stand in. -/
theorem AgreeBelow.between {opening : String} (closing : String) (hopening : opening.toList ≠ [])
    (h : AgreeBelow length body other) :
    AgreeBelow (length + 1) (between opening closing body) (between opening closing other) := by
  intro cursor hcursor
  rw [Parser.between, Parser.between]
  cases hopen : exactly opening cursor with
  | none => rfl
  | some found =>
    have hless := (consumes_exactly hopening cursor found.1 found.2 hopen).2
    have hblanks := (reaches_skipBlanks found.2).length_le
    simp only [Option.bind_eq_bind, Option.bind_some]
    rw [h (skipBlanks found.2) (by omega)]

/-- Units agree on texts that are longer by one character than those on which their bodies agree. -/
theorem AgreeBelow.unit (h : AgreeBelow length body other) :
    AgreeBelow (length + 1) (unit body) (unit other) := by
  intro cursor hcursor
  have hoptional := h.between "]" (show "[".toList ≠ [] by decide) cursor hcursor
  have hgroup := h.between ")" (show "(".toList ≠ [] by decide) cursor hcursor
  simp only [Parser.unit, Parser.optional, hoptional, hgroup]

theorem AgreeBelow.juxtaposition (hbody : Consumes body) (h : AgreeBelow length body other) :
    AgreeBelow (length + 1) (juxtaposition body) (juxtaposition other) := by
  intro cursor hcursor
  rw [Parser.juxtaposition, Parser.juxtaposition, ← h.unit cursor hcursor]
  cases hfirst : Parser.unit body cursor with
  | none => rfl
  | some found =>
    have hless := (hbody.unit cursor found.1 found.2 hfirst).2
    simp only [Option.bind_eq_bind, Option.bind_some]
    rw [h.unit.many hbody.unit found.2 (by omega)]

theorem AgreeBelow.item (hbody : Consumes body) (h : AgreeBelow length body other) :
    AgreeBelow (length + 1) (item body) (item other) := by
  intro cursor hcursor
  rw [Parser.item, Parser.item, h.juxtaposition hbody cursor hcursor]

/-- Operands that agree on short texts also do when they are joined. -/
theorem AgreeBelow.joined {separator : Parser Unit} {operand operand' : Parser Expr}
    {combine : List Expr → Expr} (hseparator : Consumes separator) (hoperand : Consumes operand)
    (h : AgreeBelow length operand operand') :
    AgreeBelow length (joined separator operand combine) (joined separator operand' combine) := by
  have hfurther : AgreeBelow length (further separator operand) (further separator operand') := by
    intro cursor hcursor
    rw [Parser.further, Parser.further]
    cases hfound : separator cursor with
    | none => rfl
    | some found =>
      have hless := (hseparator cursor found.1 found.2 hfound).2
      rw [Option.bind_some, Option.bind_some, h found.2 (by omega)]
  intro cursor hcursor
  rw [Parser.joined, Parser.joined, ← h cursor hcursor]
  cases hfirst : operand cursor with
  | none => rfl
  | some found =>
    have hless := (hoperand cursor found.1 found.2 hfirst).2
    have hmany := hfurther.many (hseparator.further hoperand) found.2 (by omega)
    unfold Parser.further at hmany
    simp only [Option.bind_eq_bind, Option.bind_some, hmany]

/-- Expressions agree on texts that are longer by one character than those on which the ones in their
brackets agree. -/
theorem AgreeBelow.fallback (hbody : Consumes body) (h : AgreeBelow length body other) :
    AgreeBelow (length + 1) (fallback body) (fallback other) := by
  have hsequence : AgreeBelow (length + 1) (sequence body) (sequence other) :=
    (h.item hbody).joined consumes_blanks hbody.item
  have halternative : AgreeBelow (length + 1) (alternative body) (alternative other) :=
    hsequence.joined (consumes_operator (by decide)) hbody.sequence
  exact halternative.joined (consumes_operator (by decide)) hbody.alternative

end

/-- Any depth above the number of characters is enough. -/
theorem exprWithin_eq_expr {depth : ℕ} {cursor : Cursor} (h : cursor.rest.length < depth) :
    exprWithin depth cursor = expr cursor := by
  induction depth using Nat.strongRecOn generalizing cursor with
  | ind depth ih =>
    obtain ⟨depth, rfl⟩ : ∃ n, depth = n + 1 := Nat.exists_eq_succ_of_ne_zero (by omega)
    have hbody : AgreeBelow cursor.rest.length (exprWithin depth) (exprWithin cursor.rest.length) := by
      intro inner hinner
      rw [ih depth (Nat.lt_succ_self depth) (by omega), ih _ h hinner]
    exact hbody.fallback (consumes_exprWithin depth) cursor (Nat.lt_succ_self _)

/-- Expressions are nested without a bound: what stands in brackets is an expression again. -/
theorem expr_eq_fallback : expr = fallback expr := by
  funext cursor
  have hbody : AgreeBelow cursor.rest.length (exprWithin cursor.rest.length) expr :=
    fun _ hinner => exprWithin_eq_expr hinner
  exact hbody.fallback (consumes_exprWithin _) cursor (Nat.lt_succ_self _)

end Parser

end ShellCompletion
