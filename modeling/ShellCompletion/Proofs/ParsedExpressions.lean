import Mathlib.Logic.Basic
import ShellCompletion.Grammar.Parser
import ShellCompletion.Proofs.Expressions

/-!
# Expressions that are read

What holds of the leaves that are read and is kept by each way of putting expressions together holds of
every expression that is read. In particular, a parser that joins items gives a sequence or a choice only
for several items, so an expression that was read has no gaps: no sequence and no choice in it is without
items.
-/

namespace ShellCompletion.Parser

/-- Whether all that a parser reads has a property. -/
def Gives {α : Type} (parser : Parser α) (P : α → Prop) : Prop :=
  ∀ start item stop, parser start = some (item, stop) → P item

variable {α : Type} {P : α → Prop}

/-- All items of a bounded number have the property that a single one has. -/
theorem Gives.of_mem_atMost {item : Parser α} (h : Gives item P) (count : Nat) (cursor : Cursor) :
    ∀ a ∈ (atMost item count cursor).1, P a := by
  induction count generalizing cursor with
  | zero => simp [atMost]
  | succ count ih =>
    rw [atMost]
    cases hitem : item cursor with
    | none => simp
    | some found =>
      obtain ⟨first, next⟩ := found
      intro a ha
      rcases List.mem_cons.mp ha with rfl | ha
      · exact h cursor a next hitem
      · exact ih next a ha

/-- All items in a row have the property that a single one has. -/
theorem Gives.of_mem_many {item : Parser α} (h : Gives item P) (cursor : Cursor) :
    ∀ a ∈ (many item cursor).1, P a :=
  h.of_mem_atMost cursor.rest.length cursor

/-- What two parsers give that are tried one after the other. -/
theorem Gives.of_orElse {first second : Parser α} (hfirst : Gives first P) (hsecond : Gives second P) :
    Gives (fun cursor => first cursor <|> second cursor) P := by
  intro start item stop h
  dsimp only at h
  cases hstart : first start with
  | none =>
    rw [hstart] at h
    exact hsecond start item stop h
  | some found =>
    rw [hstart] at h
    cases h
    exact hfirst start item stop hstart

/-- Joined operands have a property that is kept when they are combined. -/
theorem Gives.joined {separator : Parser Unit} {operand : Parser Expr} {combine : List Expr → Expr}
    {P : Expr → Prop} (hoperand : Gives operand P)
    (hcombine : ∀ es, es ≠ [] → (∀ e ∈ es, P e) → P (combine es)) :
    Gives (joined separator operand combine) P := by
  intro start item stop h
  simp only [Parser.joined, Option.bind_eq_bind, Option.bind_eq_some_iff] at h
  obtain ⟨⟨first, next⟩, hfirst, h⟩ := h
  have hothers : Gives (fun cursor => (separator cursor).bind fun x => operand x.2) P := by
    intro start item stop h
    obtain ⟨x, -, h⟩ := Option.bind_eq_some_iff.mp h
    exact hoperand x.2 item stop h
  have hfirst := hoperand start first next hfirst
  have hothers := hothers.of_mem_many next
  dsimp only at h
  split at h
  · cases h
    exact hfirst
  · next others last _ hmany =>
    cases h
    rw [hmany] at hothers
    exact hcombine _ (List.cons_ne_nil first others) (by simpa using ⟨hfirst, hothers⟩)

/-- A property of expressions that reading keeps: leaves that are read have it, and so has what is made of
expressions that have it. Leaves are read with the level zero. -/
structure ReadingKeeps (P : Expr → Prop) : Prop where
  literal : ∀ text description span, P (.literal text description 0 span)
  reference : ∀ name span, P (.reference name 0 span)
  command : ∀ text patterns span, P (.command text patterns 0 span)
  sequence : ∀ es, es ≠ [] → (∀ e ∈ es, P e) → P (.sequence es)
  alternative : ∀ es, es ≠ [] → (∀ e ∈ es, P e) → P (.alternative es)
  fallback : ∀ es, es ≠ [] → (∀ e ∈ es, P e) → P (.fallback es)
  optional : ∀ e, P e → P (.optional e)
  repeated : ∀ e, P e → P (.repeated e)
  described : ∀ e text, P e → P (.described e text)
  subword : ∀ es span, es ≠ [] → (∀ e ∈ es, P e) →
    P (.subword (.sequence (es.map Expr.flatten)) 0 span)

section

variable {P : Expr → Prop} (hP : ReadingKeeps P)

include hP

theorem gives_literal : Gives literal P := by
  intro start item stop h
  simp only [literal, Option.bind_eq_bind, Option.bind_eq_some_iff] at h
  obtain ⟨⟨text, next⟩, -, h⟩ := h
  cases h
  exact hP.literal ..

theorem gives_reference : Gives reference P := by
  intro start item stop h
  simp only [reference, Option.bind_eq_bind, Option.bind_eq_some_iff] at h
  obtain ⟨⟨name, last⟩, -, h⟩ := h
  cases h
  exact hP.reference ..

theorem gives_command : Gives command P := by
  intro start item stop h
  simp only [command, Option.bind_eq_bind, Option.bind_eq_some_iff] at h
  obtain ⟨⟨text, next⟩, -, h⟩ := h
  cases h
  exact hP.command ..

variable {body : Parser Expr} (hbody : Gives body P)

omit hP in
include hbody in
/-- What stands between two marks has the properties of what is read there. -/
theorem gives_between (opening closing : String) : Gives (between opening closing body) P := by
  intro start item stop h
  simp only [between, Option.bind_eq_bind, Option.bind_eq_some_iff] at h
  obtain ⟨⟨⟨⟩, c⟩, -, ⟨e, c'⟩, he, ⟨⟨⟩, c''⟩, -, h⟩ := h
  cases h
  exact hbody _ e c' he

include hbody

theorem gives_optional : Gives (optional body) P := by
  intro start item stop h
  simp only [optional, Option.bind_eq_bind, Option.bind_eq_some_iff] at h
  obtain ⟨⟨e, c⟩, he, h⟩ := h
  cases h
  exact hP.optional e (gives_between hbody "[" "]" start e c he)

theorem gives_unit : Gives (unit body) P := by
  intro start item stop h
  simp only [unit, Option.bind_eq_bind, Option.bind_eq_some_iff] at h
  obtain ⟨⟨e, c⟩, he, h⟩ := h
  have hunit : Gives (fun cursor => reference cursor <|> optional body cursor <|>
      between "(" ")" body cursor <|> command cursor <|> literal cursor) P :=
    (gives_reference hP).of_orElse <| (gives_optional hP hbody).of_orElse <|
      (gives_between hbody "(" ")").of_orElse <| (gives_command hP).of_orElse (gives_literal hP)
  have hitem := hunit start e c he
  dsimp only at h
  split at h
  · cases h
    exact hP.repeated e hitem
  · cases h
    exact hitem

theorem gives_juxtaposition : Gives (juxtaposition body) P := by
  intro start item stop h
  simp only [juxtaposition, Option.bind_eq_bind, Option.bind_eq_some_iff] at h
  obtain ⟨⟨first, next⟩, hfirst, h⟩ := h
  have hfirst := gives_unit hP hbody start first next hfirst
  have hothers := (gives_unit hP hbody).of_mem_many next
  dsimp only at h
  split at h
  · cases h
    exact hfirst
  · next others last _ hmany =>
    cases h
    rw [hmany] at hothers
    exact hP.subword _ _ (List.cons_ne_nil first others) (by simpa using ⟨hfirst, hothers⟩)

theorem gives_item : Gives (item body) P := by
  intro start found stop h
  simp only [item, Option.bind_eq_bind, Option.bind_eq_some_iff] at h
  obtain ⟨⟨e, next⟩, he, h⟩ := h
  have hitem := gives_juxtaposition hP hbody start e next he
  dsimp only at h
  split at h
  · next text last _ =>
    cases h
    exact hP.described e text hitem
  · cases h
    exact hitem

theorem gives_fallback : Gives (fallback body) P :=
  Gives.joined (Gives.joined (Gives.joined (gives_item hP hbody) hP.sequence) hP.alternative)
    hP.fallback

omit hbody

/-- Expressions have every property that reading keeps, however deep their brackets may be. -/
theorem gives_exprWithin (depth : Nat) : Gives (exprWithin depth) P := by
  induction depth with
  | zero =>
    intro start item stop h
    cases h
  | succ depth ih => exact gives_fallback hP ih

theorem gives_expr : Gives expr P := fun start =>
  gives_exprWithin hP (start.rest.length + 1) start

end

end ShellCompletion.Parser

namespace ShellCompletion

/-- The expression of a statement. -/
def Statement.body : Statement → Expr
  | .call _ body => body
  | .definition _ _ body => body

namespace Parser

/-- The expression of a statement has every property that reading keeps. -/
theorem gives_statement {P : Expr → Prop} (hP : ReadingKeeps P) :
    Gives statement fun s => P s.body := by
  have hcall : Gives call fun s => P s.body := by
    intro start item stop h
    simp only [call, Option.bind_eq_bind, Option.bind_eq_some_iff] at h
    obtain ⟨⟨head, c⟩, -, ⟨⟨⟩, c'⟩, -, ⟨body, c''⟩, hbody, ⟨⟨⟩, c'''⟩, -, h⟩ := h
    cases h
    exact gives_expr hP c' body c'' hbody
  have hdefinition : Gives definition fun s => P s.body := by
    intro start item stop h
    simp only [definition, Option.bind_eq_bind, Option.bind_eq_some_iff] at h
    obtain ⟨⟨⟨name, shell⟩, c⟩, -, ⟨⟨⟩, c'⟩, -, ⟨body, c''⟩, hbody, ⟨⟨⟩, c'''⟩, -, h⟩ := h
    cases h
    exact gives_expr hP c' body c'' hbody
  intro start item stop h
  simp only [statement, Option.bind_eq_bind, Option.bind_eq_some_iff] at h
  obtain ⟨⟨found, c⟩, hfound, h⟩ := h
  cases h
  exact hcall.of_orElse hdefinition start found c hfound

end Parser

/-- The expressions of a grammar that was read have every property that reading keeps. -/
theorem Grammar.forall_of_parse {P : Expr → Prop} (hP : Parser.ReadingKeeps P) {text : String}
    {last : Text.LastReturn} {g : Grammar} (h : Grammar.parse text last = .ok g) :
    ∀ s ∈ g.statements, P s.body := by
  unfold Grammar.parse at h
  dsimp only at h
  split at h
  · cases h
    exact (Parser.gives_statement hP).of_mem_many _
  · cases h

/-- In a grammar that was read, no sequence and no choice is without items. -/
theorem Grammar.filled_of_parse {text : String} {last : Text.LastReturn} {g : Grammar}
    (h : Grammar.parse text last = .ok g) : ∀ s ∈ g.statements, s.body.Filled True := by
  refine forall_of_parse ⟨?_, ?_, ?_, ?_, ?_, ?_, ?_, ?_, ?_, ?_⟩ h
  · exact fun text description => .literal text description 0
  · exact fun name => .reference name 0
  · exact fun text patterns => .command text patterns 0
  · exact fun _ => .sequence
  · exact fun _ => .alternative
  · exact fun _ => .fallback
  · exact fun _ => .optional
  · exact fun _ => .repeated
  · exact fun _ text => .group text trivial
  · intro es span hne hes
    refine .subword _ _ (.sequence (by simpa using hne) ?_)
    intro e he
    obtain ⟨e', he', rfl⟩ := List.mem_map.mp he
    exact (hes e' he').flatten

end ShellCompletion
