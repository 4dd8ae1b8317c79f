import ShellCompletion.Proofs.TrailingDots

/-!
# Units that dots repeat

Dots behind a unit repeat it: a name, a command, a literal with its description and anything in brackets is
read with dots behind it as the same unit, repeated. Only a literal without a description is not, because
dots are plain characters: they are read as a part of the literal.
-/

namespace ShellCompletion

namespace Parser

variable {α β : Type} {body : Parser Expr} {cursor : Cursor}

/-! ### The parsers as what they make of a first reading -/

/-- What is made of a reading by a mark that may follow it. -/
def marked (mark : Parser β) (wrap : Expr → β → Expr) (x : Expr × Cursor) : Expr × Cursor :=
  match mark x.2 with
  | some (found, last) => (wrap x.1 found, last)
  | none => x

/-- What is made of a reading by the further ones that may follow it. -/
def gathered (further : Parser Expr) (combine : List Expr → Cursor → Expr) (x : Expr × Cursor) :
    Expr × Cursor :=
  match many further x.2 with
  | ([], last) => (x.1, last)
  | (others, last) => (combine (x.1 :: others) last, last)

/-- The literal that is made of a text by the description that may follow it. -/
def explained (start : Cursor) (x : String × Cursor) : Expr × Cursor :=
  let (description, last) := maybe description x.2
  (.literal x.1 description 0 (some (start.spanTo last)), last)

/-- A literal is a scanned text with the description that may follow it. -/
theorem literal_eq_map : literal cursor = (ofScan Lexeme.literal cursor).map (explained cursor) := by
  rw [literal]
  cases ofScan Lexeme.literal cursor <;> rfl

/-- A unit is an atom with the dots that may follow it. -/
theorem unit_eq_map :
    unit body cursor = (atom body cursor).map (marked dots fun e _ => .repeated e) := by
  rw [unit, ← atom]
  cases atom body cursor with
  | none => rfl
  | some x =>
    simp only [Option.bind_eq_bind, Option.bind_some, Option.map_some, marked]
    cases dots x.2 <;> rfl

/-- A subword is a unit with those that touch it. -/
theorem juxtaposition_eq_map :
    juxtaposition body cursor = (unit body cursor).map (gathered (unit body) fun es last =>
      .subword (.sequence (es.map Expr.flatten)) 0 (some (cursor.spanTo last))) := by
  rw [juxtaposition]
  cases unit body cursor with
  | none => rfl
  | some x =>
    simp only [Option.bind_eq_bind, Option.bind_some, Option.map_some, gathered]
    rcases many (unit body) x.2 with ⟨_ | _, last⟩ <;> rfl

/-- An item is made of units and the description that may follow them. -/
theorem item_eq_map : item body cursor = (juxtaposition body cursor).map (marked description .described) := by
  rw [item]
  cases juxtaposition body cursor with
  | none => rfl
  | some x =>
    simp only [Option.bind_eq_bind, Option.bind_some, Option.map_some, marked]
    cases description x.2 <;> rfl

/-- Joined operands are the first one with those that follow it. -/
theorem joined_eq_map (separator : Parser Unit) (operand : Parser Expr) (combine : List Expr → Expr) :
    joined separator operand combine cursor =
      (operand cursor).map (gathered (further separator operand) fun es _ => combine es) := by
  rw [joined]
  cases operand cursor with
  | none => rfl
  | some x =>
    simp only [Option.bind_eq_bind, Option.bind_some, Option.map_some, gathered]
    unfold further
    rcases many _ x.2 with ⟨_ | _, last⟩ <;> rfl

theorem reaches_marked {mark : Parser β} (hmark : Consumes mark) (wrap : Expr → β → Expr)
    (x : Expr × Cursor) : x.2.Reaches (marked mark wrap x).2 := by
  rw [marked]
  cases hfound : mark x.2 with
  | none => exact .refl x.2
  | some found => exact (hmark _ _ _ hfound).1

theorem snd_gathered (further : Parser Expr) (combine : List Expr → Cursor → Expr) (x : Expr × Cursor) :
    (gathered further combine x).2 = (many further x.2).2 := by
  rw [gathered]
  rcases many further x.2 with ⟨_ | _, last⟩ <;> rfl

theorem reaches_gathered {further : Parser Expr} (hfurther : Consumes further)
    (combine : List Expr → Cursor → Expr) (x : Expr × Cursor) :
    x.2.Reaches (gathered further combine x).2 := by
  rw [snd_gathered]
  exact reaches_many hfurther x.2

theorem reaches_explained (start : Cursor) (x : String × Cursor) : x.2.Reaches (explained start x).2 := by
  rw [explained, maybe]
  cases hfound : description x.2 with
  | none => exact .refl x.2
  | some found => exact (consumes_description _ _ _ hfound).1

/-! ### Dots behind a closing bracket -/

/-- A given text is read off the front of what is left. -/
theorem rest_of_exactly {text : String} {x : Unit × Cursor} (h : exactly text cursor = some x) :
    cursor.rest = text.toList ++ x.2.rest := by
  rw [exactly] at h
  split at h
  · next hfront =>
    cases h
    obtain ⟨rest, hrest⟩ := List.isPrefixOf_iff_prefix.mp hfront
    rw [Cursor.rest_advance, ← hrest, ← String.length_toList, List.drop_left]
  · cases h

/-- A text without dots that closes nothing is read in front of dots as it is without them, and leaves
something. -/
theorem exactly_dotted {text : String} (hdot : '.' ∉ text.toList) (hopen : ¬ EndsClosed text.toList)
    (hcursor : EndsClosed cursor.rest) :
    exactly text cursor = none ∧ exactly text cursor.dotted = none ∨
      ∃ last, EndsClosed last.rest ∧ exactly text cursor = some ((), last) ∧
        exactly text cursor.dotted = some ((), last.dotted) := by
  have hunmoved : Unmoved (exactly text) cursor := unmoved_exactly (Lexeme.isPrefixOf_dotted hdot _)
  rw [Unmoved] at hunmoved
  cases hfound : exactly text cursor with
  | none => exact .inl ⟨rfl, by rw [hunmoved, hfound]; rfl⟩
  | some found =>
    refine .inr ⟨found.2, ?_, rfl, by rw [hunmoved, hfound]; rfl⟩
    have hrest := rest_of_exactly hfound
    rw [hrest] at hcursor
    refine hcursor.suffix (List.suffix_append ..) ?_
    intro hnil
    rw [hnil, List.append_nil] at hcursor
    exact hopen hcursor

/-- A mark that bears dots behind the text still does so behind a reading. -/
theorem alike_marked {mark : Parser β} (hmark : Consumes mark) (h : Bears mark) (wrap : Expr → β → Expr)
    (e : Expr) {last : Cursor} (hlast : EndsClosed last.rest) :
    Alike (marked mark wrap (e, last)) (marked mark wrap (e, last.dotted)) := by
  rw [marked, marked]
  rcases h.cases hmark hlast with ⟨hread, hread'⟩ | ⟨found, stop, hstop, hread, hread'⟩ |
    ⟨found, found', stop, stop', hstop, hstop', hread, hread'⟩
  · rw [hread, hread']
    exact .same e hlast.ne_nil
  · rw [hread, hread']
    exact .same (wrap e found) hstop.ne_nil
  · rw [hread, hread']
    exact .ended _ _ hstop hstop'

/-- Further readings that bear dots behind the text still do so behind a first one. -/
theorem alike_gathered {further : Parser Expr} (hfurther : Consumes further) (h : Bears further)
    {combine combine' : List Expr → Cursor → Expr}
    (hcombine : ∀ es last, combine' es (Cursor.dotted last) = combine es last) (e : Expr) {last : Cursor}
    (hlast : EndsClosed last.rest) :
    Alike (gathered further combine (e, last)) (gathered further combine' (e, last.dotted)) := by
  have hothers := h.many hfurther hlast
  rw [gathered, gathered]
  dsimp only
  generalize many further last = x, many further last.dotted = y at hothers
  cases hothers with
  | same items hstop =>
    cases items with
    | nil => exact .same e hstop
    | cons first items =>
      dsimp only
      rw [hcombine]
      exact .same _ hstop
  | ended items items' hstop hstop' =>
    cases items <;> cases items' <;> exact .ended _ _ hstop hstop'

theorem explained_dotted (start : Cursor) (x : String × Cursor) :
    explained start.dotted (x.1, x.2.dotted) = ((explained start x).1, (explained start x).2.dotted) := by
  have hdescription := unmoved_description x.2
  rw [Unmoved] at hdescription
  rw [explained, explained, maybe, maybe]
  dsimp only
  rw [hdescription]
  cases description x.2 <;> rfl

/-- Literals bear dots behind a text that ends with a closing bracket. -/
theorem bears_literal : Bears literal := by
  have hscan : Bears (ofScan Lexeme.literal) := by
    intro cursor hcursor
    rcases scanLiteral_dotted hcursor.ne_nil with hunmoved | ⟨text, last, last', hread, hlast, hread', hlast'⟩
    · exact hunmoved.rel
    · rw [hread, hread']
      exact .some (.ended _ _ hlast (hlast' ▸ List.nil_suffix))
  intro cursor hcursor
  rw [literal_eq_map, literal_eq_map]
  refine hscan.rel_map (consumes_ofScan Lexeme.takes_literal) hcursor (reaches_explained _)
    (reaches_explained _) ?_
  intro text last hlast
  rw [explained_dotted cursor (text, last)]
  exact alike_dotted ..

/-- What stands in brackets is read as without dots, since nothing closes what takes dots. -/
theorem unmoved_between {opening closing : String} (hopening : '.' ∉ opening.toList)
    (hopen : ¬ EndsClosed opening.toList) {c : Char} (hclosing : closing.toList = [c]) (hc : c ≠ '.')
    (hbody : Consumes body) (h : Bears body) (hcursor : EndsClosed cursor.rest) :
    Unmoved (between opening closing body) cursor := by
  have hclose : ∀ stop : Cursor, Unmoved (exactly closing) stop := fun stop =>
    unmoved_exactly (Lexeme.isPrefixOf_dotted (by simpa [hclosing] using hc.symm) _)
  have hclosed : ∀ stop : Cursor, stop.rest.head? ≠ some c → exactly closing stop = none := fun stop hstop =>
    refuses_exactly_of_head hclosing hstop stop rfl
  rw [Unmoved, between, between]
  rcases exactly_dotted hopening hopen hcursor with ⟨hread, hread'⟩ | ⟨start, hstart, hread, hread'⟩
  · rw [hread, hread']
    rfl
  · rw [hread, hread']
    simp only [Option.bind_eq_bind, Option.bind_some]
    rcases (h.after_blanks hbody).cases hbody.after_blanks hstart with ⟨hread, hread'⟩ |
      ⟨e, stop, hstop, hread, hread'⟩ | ⟨e, e', stop, stop', hstop, hstop', hread, hread'⟩
    · rw [hread, hread']
      rfl
    · rw [hread, hread']
      simp only [Option.bind_some]
      rcases skipBlanks_dotted_of_closed hstop with ⟨-, heq⟩ | ⟨hnil, hnil'⟩
      · rw [heq, hclose]
        cases exactly closing (skipBlanks stop) <;> rfl
      · rw [hclosed (skipBlanks stop) (by simp [hnil]), hclosed (skipBlanks stop.dotted) (by simp [hnil'])]
        rfl
    · -- Whatever took the closing bracket leaves at most dots, and these close nothing.
      have hnil := (reaches_skipBlanks stop).suffix
      rw [hstop, List.suffix_nil] at hnil
      have hdots := (reaches_skipBlanks stop').suffix.trans hstop'
      rw [hread, hread']
      simp only [Option.bind_some]
      rw [hclosed (skipBlanks stop) (by simp [hnil]),
        hclosed (skipBlanks stop') (head?_ne_of_dots hdots hc)]
      rfl

/-- Dots behind a closing bracket make no difference to what is in parentheses. -/
theorem unmoved_bracketed (hbody : Consumes body) (h : Bears body) (hcursor : EndsClosed cursor.rest) :
    Unmoved (between "(" ")" body) cursor :=
  unmoved_between (by decide) (by decide) rfl (by decide) hbody h hcursor

theorem unmoved_optional (hbody : Consumes body) (h : Bears body) (hcursor : EndsClosed cursor.rest) :
    Unmoved (optional body) cursor := by
  have hbetween : Unmoved (between "[" "]" body) cursor :=
    unmoved_between (by decide) (by decide) rfl (by decide) hbody h hcursor
  rw [Unmoved] at *
  rw [optional, optional, hbetween]
  cases between "[" "]" body cursor <;> rfl

/-- Atoms bear dots behind a closing bracket, if the expressions in brackets do. -/
theorem bears_atom (hbody : Consumes body) (h : Bears body) : Bears (atom body) := by
  refine Bears.orElse (fun cursor _ => (unmoved_reference cursor).rel) ?_
  refine Bears.orElse (fun _ hcursor => (unmoved_optional hbody h hcursor).rel) ?_
  refine Bears.orElse (fun _ hcursor => (unmoved_bracketed hbody h hcursor).rel) ?_
  exact Bears.orElse (fun cursor _ => (unmoved_command cursor).rel) bears_literal

/-- Dots bear further dots behind a closing bracket. -/
theorem bears_dots : Bears dots := by
  refine Bears.after_blanks (consumes_exactly (by decide)) ?_
  intro cursor hcursor
  have hdots : Unmoved (exactly "...") cursor :=
    unmoved_exactly (Lexeme.ellipsis_isPrefixOf_dotted hcursor)
  exact hdots.rel

theorem bears_unit (hbody : Consumes body) (h : Bears body) : Bears (unit body) := by
  intro cursor hcursor
  rw [unit_eq_map, unit_eq_map]
  exact (bears_atom hbody h).rel_map hbody.atom hcursor (reaches_marked consumes_dots _)
    (reaches_marked consumes_dots _) fun e _ hlast => alike_marked consumes_dots bears_dots _ e hlast

theorem bears_juxtaposition (hbody : Consumes body) (h : Bears body) : Bears (juxtaposition body) := by
  intro cursor hcursor
  rw [juxtaposition_eq_map, juxtaposition_eq_map]
  refine (bears_unit hbody h).rel_map hbody.unit hcursor (reaches_gathered hbody.unit _)
    (reaches_gathered hbody.unit _) fun e _ hlast => ?_
  refine alike_gathered hbody.unit (bears_unit hbody h) ?_ e hlast
  exact fun es last => by rw [Cursor.spanTo_dotted]

theorem bears_item (hbody : Consumes body) (h : Bears body) : Bears (item body) := by
  intro cursor hcursor
  rw [item_eq_map, item_eq_map]
  exact (bears_juxtaposition hbody h).rel_map hbody.juxtaposition hcursor
    (reaches_marked consumes_description _) (reaches_marked consumes_description _) fun e _ hlast =>
      alike_marked consumes_description (fun cursor _ => (unmoved_description cursor).rel) _ e hlast

/-- Whether a separator is read as without dots, or nothing is left behind it with or without them. -/
def Parts (separator : Parser Unit) : Prop :=
  ∀ cursor, EndsClosed cursor.rest →
    separator cursor = none ∧ separator cursor.dotted = none ∨
      (∃ last, EndsClosed last.rest ∧ separator cursor = some ((), last) ∧
        separator cursor.dotted = some ((), last.dotted)) ∨
      ∃ last last', last.rest = [] ∧ last'.rest = [] ∧ separator cursor = some ((), last) ∧
        separator cursor.dotted = some ((), last')

/-- Blanks are separators that part what they stand between. -/
theorem parts_blanks : Parts blanks := by
  intro cursor hcursor
  rcases (Lexeme.blankLength_le false cursor.rest).lt_or_eq with hlt | heq
  · have hcount : Lexeme.blankLength false cursor.dotted.rest = Lexeme.blankLength false cursor.rest :=
      Lexeme.blankLength_append_of_lt hlt ellipsis
    rw [blanks, blanks, hcount]
    by_cases hzero : Lexeme.blankLength false cursor.rest = 0
    · exact .inl ⟨if_pos hzero, if_pos hzero⟩
    · refine .inr (.inl ⟨skipBlanks cursor, ?_, if_neg hzero, ?_⟩)
      · refine (reaches_skipBlanks cursor).endsClosed hcursor ?_
        rw [skipBlanks, Cursor.rest_advance, ne_eq, List.drop_eq_nil_iff]
        omega
      · rw [if_neg hzero, Cursor.advance_dotted hlt.le]
        rfl
  · have hcount : Lexeme.blankLength false cursor.dotted.rest = cursor.dotted.rest.length :=
      Lexeme.blankLength_dotted hcursor heq
    have hpos := List.length_pos_of_ne_nil hcursor.ne_nil
    have hpos' : cursor.dotted.rest.length ≠ 0 := by
      rw [Cursor.dotted, List.length_append]
      omega
    refine .inr (.inr ⟨cursor.advance cursor.rest.length, cursor.dotted.advance cursor.dotted.rest.length,
      ?_, ?_, ?_, ?_⟩)
    · rw [Cursor.rest_advance, List.drop_length]
    · rw [Cursor.rest_advance, List.drop_length]
    · rw [blanks, heq, if_neg (by omega)]
    · rw [blanks, hcount, if_neg hpos']

/-- An operator without dots that closes nothing parts what it stands between. -/
theorem parts_operator {text : String} (hdot : '.' ∉ text.toList) (hopen : ¬ EndsClosed text.toList)
    (hne : text.toList ≠ []) : Parts (operator text) := by
  intro cursor hcursor
  rcases skipBlanks_dotted_of_closed hcursor with ⟨hrest, heq⟩ | ⟨hnil, hnil'⟩
  · have hblanks := (reaches_skipBlanks cursor).endsClosed hcursor hrest
    rcases exactly_dotted hdot hopen hblanks with ⟨hread, hread'⟩ | ⟨next, hnext, hread, hread'⟩
    · exact .inl ⟨by simp [operator, hread], by simp [operator, heq, hread']⟩
    · right
      rcases skipBlanks_dotted_of_closed hnext with ⟨hrest, heq'⟩ | ⟨hnil, hnil'⟩
      · exact .inl ⟨skipBlanks next, (reaches_skipBlanks next).endsClosed hnext hrest,
          by simp [operator, hread], by simp [operator, heq, hread', heq']⟩
      · exact .inr ⟨skipBlanks next, skipBlanks next.dotted, hnil, hnil', by simp [operator, hread],
          by simp [operator, heq, hread']⟩
  · have hnone : ∀ stop : Cursor, stop.rest = [] → exactly text stop = none := fun _ =>
      (consumes_exactly hne).eq_none
    exact .inl ⟨by simp [operator, hnone _ hnil], by simp [operator, hnone _ hnil']⟩

/-- An operand behind a separator bears dots if it does without the separator. -/
theorem bears_further {separator : Parser Unit} {operand : Parser Expr} (hseparator : Parts separator)
    (hoperand : Consumes operand) (h : Bears operand) : Bears (further separator operand) := by
  intro cursor hcursor
  rw [further, further]
  rcases hseparator cursor hcursor with ⟨hread, hread'⟩ | ⟨last, hlast, hread, hread'⟩ |
    ⟨last, last', hlast, hlast', hread, hread'⟩
  · rw [hread, hread']
    exact .none
  · rw [hread, hread']
    exact h last hlast
  · rw [hread, hread', Option.bind_some, Option.bind_some, hoperand.eq_none hlast, hoperand.eq_none hlast']
    exact .none

/-- Joined operands bear dots if single ones do. -/
theorem bears_joined {separator : Parser Unit} {operand : Parser Expr} {combine : List Expr → Expr}
    (hconsumes : Consumes separator) (hseparator : Parts separator) (hoperand : Consumes operand)
    (h : Bears operand) : Bears (joined separator operand combine) := by
  have hfurther := hconsumes.further hoperand
  intro cursor hcursor
  rw [joined_eq_map, joined_eq_map]
  refine h.rel_map hoperand hcursor (reaches_gathered hfurther _) (reaches_gathered hfurther _)
    fun e _ hlast => ?_
  refine alike_gathered hfurther (bears_further hseparator hoperand h) ?_ e hlast
  exact fun _ _ => rfl

/-- Expressions bear dots if those in their brackets do. -/
theorem bears_fallback (hbody : Consumes body) (h : Bears body) : Bears (fallback body) := by
  have hsequence : Bears (sequence body) :=
    bears_joined consumes_blanks parts_blanks hbody.item (bears_item hbody h)
  have halternative : Bears (alternative body) :=
    bears_joined (consumes_operator (by decide)) (parts_operator (by decide) (by decide) (by decide))
      hbody.sequence hsequence
  exact bears_joined (consumes_operator (by decide))
    (parts_operator (by decide) (by decide) (by decide)) hbody.alternative halternative

/-- Expressions bear dots behind a closing bracket, however deep their brackets may be. -/
theorem bears_exprWithin (depth : ℕ) : Bears (exprWithin depth) := by
  induction depth with
  | zero => exact fun _ _ => .none
  | succ depth ih => exact bears_fallback (consumes_exprWithin depth) ih

/-- Dots behind a closing bracket change what is read of an expression only if all of the text is. -/
theorem bears_expr : Bears expr := by
  intro cursor hcursor
  have hdepth : cursor.dotted.rest.length < cursor.rest.length + 4 := by
    rw [Cursor.dotted, List.length_append, ellipsis]
    simp
  -- The longer text allows for deeper nesting, so both are read within a depth that is enough for it.
  rw [← exprWithin_eq_expr (show cursor.rest.length < cursor.rest.length + 4 by omega),
    ← exprWithin_eq_expr hdepth]
  exact bears_exprWithin _ cursor hcursor

/-! ### The end of the text -/

section

variable {e : Expr} {last : Cursor}

/-- No mark follows at the end of a text. -/
theorem marked_of_nil {mark : Parser β} (hmark : Consumes mark) (wrap : Expr → β → Expr)
    (hlast : last.rest = []) : marked mark wrap (e, last) = (e, last) := by
  rw [marked, hmark.eq_none hlast]

/-- Nothing further follows at the end of a text. -/
theorem gathered_of_nil {further : Parser Expr} (hfurther : Consumes further)
    (combine : List Expr → Cursor → Expr) (hlast : last.rest = []) :
    gathered further combine (e, last) = (e, last) := by
  have hmany : many further last = ([], last) :=
    many_of_refuses fun _ hcursor => hfurther.eq_none (hcursor.trans hlast)
  rw [gathered, hmany]

/-- At the end of a text a single operand is all there is. -/
theorem joined_of_nil {separator : Parser Unit} {operand : Parser Expr} {combine : List Expr → Expr}
    (hseparator : Consumes separator) (hoperand : Consumes operand)
    (h : operand cursor = some (e, last)) (hlast : last.rest = []) :
    joined separator operand combine cursor = some (e, last) := by
  rw [joined_eq_map, h, Option.map_some, gathered_of_nil (hseparator.further hoperand) _ hlast]

/-- A unit that reaches the end of the text is an expression. -/
theorem expr_of_unit (h : unit expr cursor = some (e, last)) (hlast : last.rest = []) :
    expr cursor = some (e, last) := by
  have hjuxtaposition : juxtaposition expr cursor = some (e, last) := by
    rw [juxtaposition_eq_map, h, Option.map_some, gathered_of_nil consumes_expr.unit _ hlast]
  have hitem : item expr cursor = some (e, last) := by
    rw [item_eq_map, hjuxtaposition, Option.map_some, marked_of_nil consumes_description _ hlast]
  have hsequence : sequence expr cursor = some (e, last) :=
    joined_of_nil consumes_blanks consumes_expr.item hitem hlast
  have halternative : alternative expr cursor = some (e, last) :=
    joined_of_nil (consumes_operator (by decide)) consumes_expr.sequence hsequence hlast
  rw [expr_eq_fallback]
  exact joined_of_nil (consumes_operator (by decide)) consumes_expr.alternative halternative hlast

/-- An atom that reaches the end of a text is the whole expression. -/
theorem expr_of_atom (h : atom expr cursor = some (e, last)) (hlast : last.rest = []) :
    expr cursor = some (e, last) := by
  refine expr_of_unit ?_ hlast
  rw [unit_eq_map, h, Option.map_some, marked_of_nil consumes_dots _ hlast]

/-- Dots behind a unit that is read as without them repeat it. -/
theorem expr_dotted (hunmoved : Unmoved (atom expr) cursor) (h : atom expr cursor = some (e, last))
    (hlast : last.rest = []) :
    ∃ last', expr cursor.dotted = some (.repeated e, last') ∧ last'.rest = [] := by
  have hrest : last.dotted.rest = "...".toList ++ [] := by rw [Cursor.dotted, hlast]; rfl
  obtain ⟨⟨⟩, last', hdots, hlast', -⟩ : ∃ u last', dots last.dotted = some (u, last') ∧ last'.rest = [] ∧
      True :=
    reads_after_blanks [] (by simp) (Lexeme.blankLength_of_inked rfl _) (reads_exactly "..." [])
      last.dotted hrest
  refine ⟨last', expr_of_unit ?_ hlast', hlast'⟩
  rw [Unmoved] at hunmoved
  rw [unit_eq_map, hunmoved, h]
  simp [marked, hdots]

/-! ### Single units with dots behind them -/

/-- What is read up to the end of a text with a closing bracket ends with it. -/
theorem endsClosed_of_between {opening closing : String} {c : Char} (hopening : opening.toList ≠ [])
    (hclosing : closing.toList = [c]) (hc : c = ')' ∨ c = ']')
    (h : between opening closing expr cursor = some (e, last)) (hlast : last.rest = []) :
    EndsClosed cursor.rest := by
  simp only [between, Option.bind_eq_bind, Option.bind_eq_some_iff] at h
  obtain ⟨⟨⟨⟩, start⟩, hopen, ⟨e', stop⟩, hbody, ⟨⟨⟩, last'⟩, hclose, heq⟩ := h
  cases heq
  have hreaches : cursor.Reaches (skipBlanks stop) :=
    (consumes_exactly hopening _ _ _ hopen).1.trans <|
      (consumes_expr.after_blanks _ _ _ hbody).1.trans (reaches_skipBlanks stop)
  have hrest := rest_of_exactly hclose
  rw [hclosing, hlast, List.append_nil] at hrest
  obtain ⟨front, hfront⟩ := hreaches.suffix
  rw [EndsClosed, ← hfront, hrest, List.getLast?_concat]
  simpa using hc

/-- An opening mark ends a literal. -/
theorem endsLiteral_of_opening {cs : List Char} {c : Char} (hhead : cs.head? = some c)
    (hc : c ∈ Lexeme.openings) : Lexeme.EndsLiteral cs := by
  intro d hd
  rw [hhead] at hd
  cases hd
  simp only [Lexeme.openings, List.mem_cons, List.not_mem_nil, or_false] at hc
  rcases hc with rfl | rfl | rfl | rfl <;> decide

/-- A unit that begins with an opening bracket and reaches the end of the text ends with a closing one. -/
theorem endsClosed_of_atom (hhead : cursor.rest.head? = some '[' ∨ cursor.rest.head? = some '(')
    (h : atom expr cursor = some (e, last)) (hlast : last.rest = []) : EndsClosed cursor.rest := by
  have hreference : reference cursor = none :=
    refuses_reference (by rcases hhead with hhead | hhead <;> simp [hhead]) cursor rfl
  have hcommand : command cursor = none :=
    refuses_command (by rcases hhead with hhead | hhead <;> simp [hhead]) cursor rfl
  have hliteral : literal cursor = none := by
    refine refuses_literal ?_ cursor rfl
    rcases hhead with hhead | hhead <;> exact endsLiteral_of_opening hhead (by decide)
  cases hbetween : between "[" "]" expr cursor with
  | some found =>
    have hfound : found.2 = last := by
      simp only [atom, hreference, optional, hbetween] at h
      cases h
      rfl
    exact endsClosed_of_between (by decide) rfl (by decide) hbetween (by rw [hfound, hlast])
  | none =>
    -- No other unit begins with a bracket, so what is left is a group.
    have hbracketed : between "(" ")" expr cursor = some (e, last) := by
      simpa [atom, hreference, optional, hbetween, hcommand, hliteral] using h
    exact endsClosed_of_between (by decide) rfl (by decide) hbracketed hlast

theorem head?_dotted (hne : cursor.rest ≠ []) : cursor.dotted.rest.head? = cursor.rest.head? :=
  List.head?_append_of_ne_nil _ hne

/-- The first character decides which unit is read, and brackets end where they close. -/
theorem unmoved_atom (h : atom expr cursor = some (e, last)) (hlast : last.rest = [])
    (hliteral : Unmoved literal cursor) : Unmoved (atom expr) cursor := by
  have hne : cursor.rest ≠ [] := consumes_expr.atom.ne_nil h
  have hoptional : Unmoved (optional expr) cursor := by
    by_cases hhead : cursor.rest.head? = some '['
    · exact unmoved_optional consumes_expr bears_expr (endsClosed_of_atom (.inl hhead) h hlast)
    · exact unmoved_of_refuses (refuses_optional hhead cursor rfl)
        (refuses_optional (by rwa [head?_dotted hne]) cursor.dotted rfl)
  have hbracketed : Unmoved (between "(" ")" expr) cursor := by
    by_cases hhead : cursor.rest.head? = some '('
    · exact unmoved_bracketed consumes_expr bears_expr (endsClosed_of_atom (.inr hhead) h hlast)
    · exact unmoved_of_refuses (refuses_between rfl hhead cursor rfl)
        (refuses_between rfl (by rwa [head?_dotted hne]) cursor.dotted rfl)
  exact (unmoved_reference cursor).orElse <| hoptional.orElse <| hbracketed.orElse <|
    (unmoved_command cursor).orElse hliteral

/-- Dots make no difference to a literal if they make none to its text. -/
theorem unmoved_literal (h : Unmoved (ofScan Lexeme.literal) cursor) : Unmoved literal cursor := by
  rw [Unmoved] at *
  rw [literal_eq_map, literal_eq_map, h, Option.map_map, Option.map_map]
  congr 1
  funext x
  exact explained_dotted cursor x

/-- A literal that takes all of the text is read as a unit without a description. -/
theorem atom_of_whole (body : Parser Expr) {text : String}
    (h : Lexeme.literal cursor.rest = some (text, cursor.rest.length)) :
    ∃ last, atom body cursor = some (.literal text none 0 (some (cursor.spanTo last)), last) ∧
      last.rest = [] := by
  obtain ⟨last, hread, hlast⟩ := ofScan_whole h
  have hliteral : literal cursor = some (.literal text none 0 (some (cursor.spanTo last)), last) := by
    rw [literal_eq_map, hread, Option.map_some, explained, maybe, consumes_description.eq_none hlast]
  have hhead : ∀ d ∈ Lexeme.openings, cursor.rest.head? ≠ some d := by
    intro d hd heq
    rw [refuses_scanLiteral (endsLiteral_of_opening heq hd) cursor rfl] at hread
    cases hread
  have hreference : reference cursor = none := refuses_reference (hhead '<' (by decide)) cursor rfl
  have hoptional : optional body cursor = none := refuses_optional (hhead '[' (by decide)) cursor rfl
  have hbracketed : between "(" ")" body cursor = none :=
    refuses_between rfl (hhead '(' (by decide)) cursor rfl
  have hcommand : command cursor = none := refuses_command (hhead '\x7b' (by decide)) cursor rfl
  refine ⟨last, ?_, hlast⟩
  simp [atom, hreference, hoptional, hbracketed, hcommand, hliteral]

end

/-- Dots behind a unit repeat it, unless it is a literal without a description, which takes them in. -/
theorem repeated_by_dots_iff {cursor last : Cursor} {e : Expr} (h : atom expr cursor = some (e, last))
    (hlast : last.rest = []) :
    expr cursor = some (e, last) ∧ ∃ e' last', expr cursor.dotted = some (e', last') ∧ last'.rest = [] ∧
      (e'.withoutSpans = (Expr.repeated e).withoutSpans ↔
        ∀ text, Lexeme.literal cursor.rest ≠ some (text, cursor.rest.length)) ∧
      ∀ text, Lexeme.literal cursor.rest = some (text, cursor.rest.length) →
        e.withoutSpans = .literal text none 0 none ∧
          e'.withoutSpans = .literal (text ++ "...") none 0 none := by
  refine ⟨expr_of_atom h hlast, ?_⟩
  have hne : cursor.rest ≠ [] := consumes_expr.atom.ne_nil h
  rcases Lexeme.literal_dotted hne with ⟨hscan, hless⟩ | ⟨text, hscan, hscan'⟩
  · have hliteral : Unmoved literal cursor :=
      unmoved_literal (unmoved_ofScan hscan fun text count h => (hless text count h).le)
    have hunmoved := unmoved_atom h hlast hliteral
    obtain ⟨last', hread, hlast'⟩ := expr_dotted hunmoved h hlast
    have hpart : ∀ text, Lexeme.literal cursor.rest ≠ some (text, cursor.rest.length) :=
      fun text hwhole => (hless text _ hwhole).false
    exact ⟨.repeated e, last', hread, hlast', iff_of_true rfl hpart,
      fun text hwhole => (hpart text hwhole).elim⟩
  · obtain ⟨last₁, hread, -⟩ := atom_of_whole expr hscan
    obtain ⟨last', hread', hlast'⟩ : ∃ last', atom expr cursor.dotted =
        some (.literal (text ++ "...") none 0 (some (cursor.dotted.spanTo last')), last') ∧ last'.rest = [] :=
      atom_of_whole expr (by simpa [Cursor.dotted, ellipsis] using hscan')
    rw [hread] at h
    cases h
    refine ⟨_, last', expr_of_atom hread' hlast', hlast', ?_, ?_⟩
    · exact iff_of_false (by simp [Expr.withoutSpans]) fun hpart => hpart text hscan
    · intro text' hwhole
      rw [hscan] at hwhole
      cases hwhole
      exact ⟨rfl, rfl⟩

/-- A group of choices, one of them with a description and a repeated optional name. -/
def nestedGroup : Expr :=
  .alternative [.literal "a" none 0 (some ⟨0, 1, 2⟩),
    .sequence [.literal "b" (some "c") 0 (some ⟨0, 5, 10⟩),
      .repeated (.optional (.reference "D" 0 (some ⟨0, 12, 15⟩)))]]

theorem repeated_by_dots_nestedGroup :
    atom expr ⟨"(a | b \"c\" [<D>]...)".toList, 0, 0⟩ = some (nestedGroup, ⟨[], 0, 20⟩) ∧
      ∃ e' last', expr ⟨"(a | b \"c\" [<D>]...)...".toList, 0, 0⟩ = some (e', last') ∧ last'.rest = [] ∧
        e'.withoutSpans = (Expr.repeated nestedGroup).withoutSpans := by
  have hread : atom expr ⟨"(a | b \"c\" [<D>]...)".toList, 0, 0⟩ = some (nestedGroup, ⟨[], 0, 20⟩) := by
    decide +kernel
  have hnone : Lexeme.literal "(a | b \"c\" [<D>]...)".toList = none := by decide +kernel
  obtain ⟨-, e', last', hexpr, hlast', hiff, -⟩ := repeated_by_dots_iff hread rfl
  refine ⟨hread, e', last', hexpr, hlast', hiff.mpr ?_⟩
  intro text hwhole
  rw [hnone] at hwhole
  cases hwhole

/-- Dots behind a plain word are a part of it. -/
theorem not_repeated_by_dots_word :
    expr ⟨"a".toList, 0, 0⟩ = some (.literal "a" none 0 (some ⟨0, 0, 1⟩), ⟨[], 0, 1⟩) ∧
      expr ⟨"a...".toList, 0, 0⟩ = some (.literal "a..." none 0 (some ⟨0, 0, 4⟩), ⟨[], 0, 4⟩) := by
  decide +kernel

end Parser

end ShellCompletion
