import ShellCompletion.Proofs.Progress

/-!
# How a sequence goes on

Once a sequence has read a literal, another unit or an item, what it does next depends only on what is
left of the text: it takes a description, dots, further units, a description of the item and further
items, each if there is one. Where it ends is therefore a function of the cursor, which moves on by one
word or one quoted text at a time and stays where nothing goes on.
-/

namespace ShellCompletion

namespace Parser

open Lexeme (ahead blankLength isSpace openings)

variable {body : Parser Expr}

/-- What a quoted text describes. -/
inductive Subject where
  /-- The literal in front of it. -/
  | literal
  /-- The item that the units in front of it make up. -/
  | item
  /-- Nothing, since the item in front of it has a description already. -/
  | nothing
deriving DecidableEq, Repr

/-- What another quoted text describes behind one that describes the given subject. -/
def Subject.next : Subject → Subject
  | .literal => .item
  | .item | .nothing => .nothing

/-- The end of a sequence that has read an item with its description at the given cursor. -/
def afterItem (body : Parser Expr) (cursor : Cursor) : Cursor :=
  (many (further blanks (item body)) cursor).2

/-- The end of a sequence that has read a unit without dots up to the given cursor. -/
def afterUnit (body : Parser Expr) (cursor : Cursor) : Cursor :=
  afterItem body (maybe description (many (unit body) (maybe dots cursor).2).2).2

/-- The end of a sequence that goes on at a cursor at which a quoted text describes the given subject. -/
def finish (body : Parser Expr) : Subject → Cursor → Cursor
  | .literal, cursor => afterUnit body (maybe description cursor).2
  | .item, cursor => afterUnit body cursor
  | .nothing, cursor => afterItem body cursor

theorem maybe_of_refuses {α : Type} {parser : Parser α} {cursor : Cursor}
    (h : Refuses parser cursor.rest) : maybe parser cursor = (none, cursor) := by
  rw [maybe, h cursor rfl]

/-- Only a dot behind blanks begins dots. -/
theorem refuses_dots {text : List Char} (h : (ahead text).head? ≠ some '.') : Refuses dots text :=
  refuses_after_blanks (refuses_exactly fun ⟨tail, htail⟩ => h (by rw [← htail]; rfl))

/-! ### From a unit to the end of its sequence -/

section

variable {cursor next : Cursor} {e : Expr}

/-- An atom begins a unit, which takes the dots behind it too. -/
theorem unit_of_atom (h : atom body cursor = some (e, next)) :
    ∃ x, unit body cursor = some (x, (maybe dots next).2) := by
  simp only [atom] at h
  rw [unit, h, maybe]
  cases hdots : dots next with
  | none => exact ⟨e, by simp [hdots]⟩
  | some found => exact ⟨.repeated e, by simp [hdots]⟩

/-- An atom begins a subword, which takes all units that touch it. -/
theorem juxtaposition_of_atom (h : atom body cursor = some (e, next)) :
    ∃ x, juxtaposition body cursor = some (x, (many (unit body) (maybe dots next).2).2) := by
  obtain ⟨x, hx⟩ := unit_of_atom h
  rw [juxtaposition, hx]
  simp only [Option.bind_eq_bind, Option.bind_some]
  split <;> next hmany => exact ⟨_, by rw [hmany]; rfl⟩

/-- Units begin an item, which takes a description behind them too. -/
theorem item_of_juxtaposition (h : juxtaposition body cursor = some (e, next)) :
    ∃ x, item body cursor = some (x, (maybe description next).2) := by
  rw [item, h, maybe]
  cases hdescription : description next with
  | none => exact ⟨e, by simp [hdescription]⟩
  | some found => exact ⟨.described e found.1, by simp [hdescription]⟩

/-- An atom begins an item, and a sequence goes on behind both in the same way. -/
theorem item_of_atom (h : atom body cursor = some (e, next)) :
    ∃ x last, item body cursor = some (x, last) ∧ afterItem body last = afterUnit body next := by
  obtain ⟨x, hx⟩ := juxtaposition_of_atom h
  obtain ⟨y, hy⟩ := item_of_juxtaposition hx
  exact ⟨y, _, hy, rfl⟩

/-- An item begins a sequence, which goes on as far as items follow. -/
theorem sequence_of_item (h : item body cursor = some (e, next)) :
    ∃ x, sequence body cursor = some (x, afterItem body next) := by
  rw [afterItem, sequence, joined, h]
  simp only [Option.bind_eq_bind, Option.bind_some]
  unfold further
  split <;> next hmany => exact ⟨_, by rw [hmany]; rfl⟩

/-- An atom begins a sequence. -/
theorem sequence_of_atom (h : atom body cursor = some (e, next)) :
    ∃ x, sequence body cursor = some (x, afterUnit body next) := by
  obtain ⟨x, last, hx, hlast⟩ := item_of_atom h
  obtain ⟨y, hy⟩ := sequence_of_item hx
  exact ⟨y, hlast ▸ hy⟩

end

/-- No item begins where no atom does. -/
theorem Refuses.item {text : List Char} (h : Refuses (atom body) text) : Refuses (item body) text :=
  Refuses.bind (Refuses.bind (Refuses.bind h))

/-- No sequence begins where no atom does. -/
theorem Refuses.sequence {text : List Char} (h : Refuses (atom body) text) :
    Refuses (sequence body) text :=
  Refuses.bind h.item

/-! ### Steps -/

section

variable {cursor next : Cursor} {e : Expr} (hbody : Consumes body)

include hbody

/-- Behind a unit, another one may follow directly. -/
theorem afterUnit_of_atom (hdots : Refuses dots cursor.rest) (h : atom body cursor = some (e, next)) :
    afterUnit body cursor = afterUnit body next := by
  obtain ⟨x, hx⟩ := unit_of_atom h
  rw [afterUnit, afterUnit, maybe_of_refuses hdots, hbody.unit.loops cursor, hx]

/-- Behind an item, another one may follow after blanks. -/
theorem afterItem_of_atom {start : Cursor} (hblanks : blanks cursor = some ((), start))
    (h : atom body start = some (e, next)) : afterItem body cursor = afterUnit body next := by
  obtain ⟨x, last, hx, hlast⟩ := item_of_atom h
  have hfurther : further blanks (item body) cursor = some (x, last) := by
    rw [further, hblanks, Option.bind_some, hx]
  rw [← hlast, afterItem, afterItem, (consumes_blanks.further hbody.item).loops cursor, hfurther]

end

/-- If neither dots nor a unit follow, only a description still belongs to the item. -/
theorem afterUnit_of_refuses {cursor : Cursor} (hdots : Refuses dots cursor.rest)
    (hatom : Refuses (atom body) cursor.rest) :
    afterUnit body cursor = afterItem body (maybe description cursor).2 := by
  have hunit : Refuses (unit body) cursor.rest := Refuses.bind hatom
  rw [afterUnit, maybe_of_refuses hdots, many_of_refuses hunit]

/-- A sequence ends where no item follows. -/
theorem afterItem_of_refuses {cursor : Cursor}
    (h : Refuses (further blanks (item body)) cursor.rest) : afterItem body cursor = cursor := by
  rw [afterItem, many_of_refuses h]

/-- Items are separated by blanks. -/
theorem refuses_further_of_inked {rest : List Char} (h : blankLength false rest = 0) :
    Refuses (further blanks (item body)) rest := by
  intro cursor hcursor
  rw [further, blanks, hcursor, h, if_pos rfl, Option.bind_none]

/-- What nothing goes on with in a sequence. -/
structure Still (body : Parser Expr) (rest : List Char) : Prop where
  description : Refuses description rest
  dots : Refuses dots rest
  atom : Refuses (atom body) rest
  further : Refuses (further blanks (item body)) rest

/-- Where neither a description nor dots or a unit follow, only further items may. -/
theorem finish_eq_afterItem {cursor : Cursor} (hdescription : Refuses description cursor.rest)
    (hdots : Refuses dots cursor.rest) (hatom : Refuses (atom body) cursor.rest) (subject : Subject) :
    finish body subject cursor = afterItem body cursor := by
  have hunit : afterUnit body cursor = afterItem body cursor := by
    rw [afterUnit_of_refuses hdots hatom, maybe_of_refuses hdescription]
  cases subject with
  | literal => rw [finish, maybe_of_refuses hdescription, hunit]
  | item => exact hunit
  | nothing => rfl

/-- A sequence comes to an end where nothing can go on with it. -/
theorem finish_of_still {cursor : Cursor} (h : Still body cursor.rest) (subject : Subject) :
    finish body subject cursor = cursor := by
  rw [finish_eq_afterItem h.description h.dots h.atom, afterItem_of_refuses h.further]

section

variable {gap text : List Char} (hgap : ∀ c ∈ gap, isSpace c = true)
  (hink : blankLength false text = 0)

include hgap hink

/-- Blanks make no difference to where nothing goes on. -/
theorem still_of_refuses (hquoted : Lexeme.quoted text = none) (hdots : text.head? ≠ some '.')
    (hatom : Refuses (Parser.atom body) text) : Still body (gap ++ text) := by
  have hahead : ahead (gap ++ text) = text := by
    rw [Lexeme.ahead_append hgap, Lexeme.ahead_eq_self hink]
  constructor
  · refine refuses_after_blanks (refuses_ofScan ?_)
    rw [hahead, hquoted]
  · exact refuses_dots (by rwa [hahead])
  · cases gap with
    | nil => exact hatom
    | cons c gap => exact refuses_atom (endsUnit_of_space (hgap c (by simp)) _)
  · refine Refuses.further_item ?_
    rw [hahead]
    exact hatom.item

end

/-- Nothing goes on where a sequence stops. -/
theorem still_of_stops {rest : List Char} (h : StopsSequence rest) : Still body rest where
  description := refuses_description h.quote
  dots := refuses_dots h.dots
  atom := refuses_atom h.unit
  further := refuses_further_item h.item

/-! ### Words and quoted texts -/

section

variable {cursor : Cursor} {read : String} {count : Nat}

/-- A literal that begins with no opening mark is an atom, with the description behind it. -/
theorem atom_of_literal (hhead : ∀ d ∈ openings, cursor.rest.head? ≠ some d)
    (h : Lexeme.literal cursor.rest = some (read, count)) :
    ∃ e, atom body cursor = some (e, (maybe description (cursor.advance count)).2) := by
  have hreference : reference cursor = none := refuses_reference (hhead '<' (by decide)) cursor rfl
  have hoptional : optional body cursor = none := refuses_optional (hhead '[' (by decide)) cursor rfl
  have hbetween : between "(" ")" body cursor = none :=
    refuses_between (c := '(') rfl (hhead '(' (by decide)) cursor rfl
  have hcommand : command cursor = none := refuses_command (hhead '\x7b' (by decide)) cursor rfl
  refine ⟨.literal read (maybe description (cursor.advance count)).1 0
    (some (cursor.spanTo (maybe description (cursor.advance count)).2)), ?_⟩
  simp [atom, hreference, hoptional, hbetween, hcommand, literal, ofScan, h]

/-- What begins neither with an opening mark nor with a literal begins no atom. -/
theorem refuses_atom_of_literal {text : List Char} (hhead : ∀ d ∈ openings, text.head? ≠ some d)
    (h : Lexeme.literal text = none) : Refuses (atom body) text :=
  Refuses.orElse (refuses_reference (hhead '<' (by decide))) <|
    Refuses.orElse (refuses_optional (hhead '[' (by decide))) <|
    Refuses.orElse (refuses_between (c := '(') rfl (hhead '(' (by decide))) <|
    Refuses.orElse (refuses_command (hhead '\x7b' (by decide))) (refuses_ofScan h).bind

/-- A literal begins a sequence, which is finished from behind the literal. -/
theorem sequence_of_literal (hhead : ∀ d ∈ openings, cursor.rest.head? ≠ some d)
    (h : Lexeme.literal cursor.rest = some (read, count)) :
    ∃ x, sequence body cursor = some (x, finish body .literal (cursor.advance count)) := by
  obtain ⟨e, he⟩ := atom_of_literal hhead h
  exact sequence_of_atom he

end

end Parser

end ShellCompletion
