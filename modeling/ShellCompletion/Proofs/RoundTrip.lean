import ShellCompletion.Proofs.Descent
import ShellCompletion.Proofs.ParsedExpressions

/-!
# Reading a printed grammar

A printed expression begins with an opening bracket, and behind it stands one of a few marks. So each
parser stops where its part of a printed expression ends, and a grammar that can be printed is read again
from its printed form, apart from the places of its parts. Subwords inside of other subwords come back
flat.
-/

namespace ShellCompletion

/-! ### Expressions -/

namespace Expr

/-- Whether an expression is what is read for another one: the same apart from places, with all
subwords flat. -/
def ReadBack (e x : Expr) : Prop := x.withoutSpans = e.flattenSubwords.withoutSpans

/-- Expressions that are read back are the same but for their spans, with subwords flattened. -/
theorem ReadBack.all {es xs : List Expr} (h : List.Forall₂ ReadBack es xs) :
    withoutSpansAll xs = withoutSpansAll (flattenSubwordsAll es) := by
  induction h with
  | nil => rfl
  | cons he _ ih => rw [withoutSpansAll, he, ih, flattenSubwordsAll, withoutSpansAll]

/-- An expression that is read back is the same when it is flattened into a word. -/
theorem ReadBack.flatten {e x : Expr} (h : e.ReadBack x) :
    x.flatten.withoutSpans = e.flatten.withoutSpans := by
  rw [withoutSpans_flatten, h, ← withoutSpans_flatten, flatten_flattenSubwords]

theorem ReadBack.flatten_all {es xs : List Expr} (h : List.Forall₂ ReadBack es xs) :
    withoutSpansAll (xs.map Expr.flatten) = withoutSpansAll (flattenAll es) := by
  induction h with
  | nil => rfl
  | cons he _ ih => rw [List.map_cons, withoutSpansAll, he.flatten, ih, flattenAll, withoutSpansAll]

end Expr

/-- Whether a statement is what is read for another one: the same apart from places, with all subwords
flat. -/
def Statement.ReadBack (s x : Statement) : Prop :=
  x.mapBody Expr.withoutSpans = (s.mapBody Expr.flattenSubwords).mapBody Expr.withoutSpans

namespace Parser

open ShellCompletion.Expr (ReadBack printAll)
open Lexeme (ahead blankLength isInked)

/-- A printed expression begins with no blank. -/
theorem blankLength_print (spacing : Spacing) (e : Expr) (tail : List Char) :
    blankLength false (e.print spacing ++ tail) = 0 := by
  obtain ⟨c, cs, hprint, hc⟩ := e.print_eq_cons spacing
  rw [hprint]
  exact Lexeme.blankLength_of_inked (Lexeme.isInked_of_opening hc) _

theorem blankLength_intercalate (spacing : Spacing) {separator : List Char} {es : List Expr}
    (hseveral : 2 ≤ es.length) (tail : List Char) :
    blankLength false (separator.intercalate (printAll spacing es) ++ tail) = 0 := by
  match es, hseveral with
  | e :: es, _ =>
    rw [printAll, intercalate_cons, List.append_assoc]
    exact blankLength_print ..

theorem blankLength_escape {text : String} (htext : Lexeme.LiteralText text) (tail : List Char) :
    blankLength false (Lexeme.escape text.toList ++ tail) = 0 := by
  obtain ⟨c, cs, hescape, hink, -⟩ := Lexeme.escape_eq_cons htext
  rw [hescape]
  exact Lexeme.blankLength_of_inked hink _

/-! Parts that are read as units are read in a list, up to what a whole expression stops before. -/

section

variable {spacing : Spacing} {body : Parser Expr} {es : List Expr} {rest : List Char}
  (hseveral : 2 ≤ es.length) (hrest : StopsFallback rest)
  (hatom : ∀ e ∈ es, ∀ tail : List Char, tail.head? ≠ some '@' →
    Reads (atom body) (e.print spacing) tail e.ReadBack)

include hseveral hrest hatom

/-- A printed sequence is read back. -/
theorem reads_sequence_print : Reads (fallback body) ([' '].intercalate (printAll spacing es)) rest
    (ReadBack (.sequence es)) := by
  refine reads_fallback_of_sequence ?_ hrest
  rw [Expr.printAll_eq_map]
  refine (reads_joined_several (F := StopsItem) (P := ReadBack) hseveral ?_ ?_ ?_ hrest.toStopsItem
    (List.cons_ne_nil _ _) (refuses_further_item hrest.item)).mono ?_
  · intro e he tail htail
    exact reads_item_of_atom (hatom e he tail (htail.unit.head_ne (by decide))) htail
  · intro e _ tail
    exact reads_blanks [' '] Lexeme.isSpace_of_mem_singleton (by decide) (blankLength_print ..)
  · intro e _ tail
    obtain ⟨c, cs, hprint, hc⟩ := e.print_eq_cons spacing
    rw [hprint]
    exact stopsItem_of_opening hc _
  · rintro _ ⟨xs, rfl, hxs⟩
    exact congrArg Expr.sequence (ReadBack.all hxs)

/-- A printed alternative is read back, whatever blanks are around its bars. -/
theorem reads_alternative_print :
    Reads (fallback body)
      ((spacing.bar ++ '|' :: spacing.bar).intercalate (printAll spacing es)) rest
      (ReadBack (.alternative es)) := by
  refine reads_fallback_one ?_ hrest
  rw [Expr.printAll_eq_map]
  refine (reads_joined_several (F := StopsSequence) (P := ReadBack) hseveral ?_ ?_ ?_
    hrest.toStopsSequence (by simp) (refuses_further_sequence hrest.alternative.bar)).mono ?_
  · intro e he tail htail
    have hitem := reads_item_of_atom (hatom e he tail (htail.unit.head_ne (by decide)))
      htail.toStopsItem
    exact reads_sequence_one hitem htail
  · intro e _ tail
    exact reads_operator "|" spacing.bar_space spacing.bar_space
      (fun _ => Lexeme.blankLength_of_inked rfl _) (blankLength_print ..)
  · intro e _ tail
    rw [List.append_assoc]
    exact stopsSequence_of_mark spacing.bar_space (by decide) _
  · rintro _ ⟨xs, rfl, hxs⟩
    exact congrArg Expr.alternative (ReadBack.all hxs)

/-- A printed fallback is read back, whatever blanks are around its bars. -/
theorem reads_fallback_print :
    Reads (fallback body)
      ((spacing.bar ++ '|' :: '|' :: spacing.bar).intercalate (printAll spacing es)) rest
      (ReadBack (.fallback es)) := by
  rw [Expr.printAll_eq_map]
  refine (reads_joined_several (F := StopsAlternative) (P := ReadBack) hseveral ?_ ?_ ?_
    hrest.alternative (by simp) (refuses_further_alternative hrest.bar)).mono ?_
  · intro e he tail htail
    have hitem := reads_item_of_atom (hatom e he tail (htail.unit.head_ne (by decide)))
      htail.toStopsItem
    exact reads_alternative_one (reads_sequence_one hitem htail.toStopsSequence) htail
  · intro e _ tail
    exact reads_operator "||" spacing.bar_space spacing.bar_space
      (fun _ => Lexeme.blankLength_of_inked rfl _) (blankLength_print ..)
  · intro e _ tail
    rw [List.append_assoc]
    exact stopsAlternative_of_bars spacing.bar_space _
  · rintro _ ⟨xs, rfl, hxs⟩
    exact congrArg Expr.fallback (ReadBack.all hxs)

/-- A printed subword is read back. -/
theorem reads_subword_print (span : Option Span) :
    Reads (fallback body) (printAll spacing es).flatten rest
      (ReadBack (.subword (.sequence es) 0 span)) := by
  have hopening : ∀ (e : Expr) (tail : List Char), (e.print spacing ++ tail).head? ≠ some '@' ∧
      (ahead (e.print spacing ++ tail)).head? ≠ some '.' := by
    intro e tail
    rw [Lexeme.ahead_eq_self (blankLength_print ..)]
    obtain ⟨c, cs, hprint, hc⟩ := e.print_eq_cons spacing
    rw [hprint]
    constructor <;> rintro ⟨⟩ <;> revert hc <;> decide
  refine reads_fallback_of_item (reads_item ?_ hrest.quote) hrest
  rw [Expr.printAll_eq_map, ← List.flatMap_def]
  -- factors stand side by side, so only patterns of a command and dots must not follow one
  refine (reads_juxtaposition_several (P := ReadBack)
    (F := fun tail => tail.head? ≠ some '@' ∧ (ahead tail).head? ≠ some '.') hseveral ?_
    (fun e _ => hopening e) ⟨hrest.unit.head_ne (by decide), hrest.dots⟩ hrest.unit ?_).mono ?_
  · intro e he tail htail
    exact reads_unit (hatom e he tail htail.1) htail.2
  · intro e _ hnil
    obtain ⟨c, cs, hprint, -⟩ := e.print_eq_cons spacing
    rw [hprint] at hnil
    cases hnil
  · rintro _ ⟨xs, other, rfl, hxs⟩
    exact congrArg (fun items => Expr.subword (.sequence items) 0 none) (ReadBack.flatten_all hxs)

end

/-- Text in round brackets is read one level of nesting deeper. -/
theorem reads_atom_within {content rest : List Char} {P : Expr → Prop} {depth : Nat}
    (hdepth : (bracketed content).length ≤ depth) (hink : blankLength false (content ++ ')' :: rest) = 0)
    (h : ∀ d, content.length ≤ d → Reads (fallback (exprWithin d)) content (')' :: rest) P) :
    Reads (atom (exprWithin depth)) (bracketed content) rest P := by
  rw [bracketed, List.length_cons, List.length_append, List.length_singleton] at hdepth
  obtain ⟨d, rfl⟩ : ∃ d, depth = d + 1 := Nat.exists_eq_succ_of_ne_zero (by omega)
  exact reads_atom_bracketed hink (h d (by omega))

/-- Printed expressions in round brackets are read if they are read one level of nesting deeper. -/
theorem reads_parts_within {spacing : Spacing} {es : List Expr} {content rest : List Char}
    {P : Expr → Prop} {depth : Nat} (hdepth : (bracketed content).length ≤ depth)
    (hink : blankLength false (content ++ ')' :: rest) = 0)
    (hlength : ∀ text ∈ printAll spacing es, text.length ≤ content.length)
    (hparts : ∀ e ∈ es, ∀ {depth : Nat} {rest : List Char}, (e.print spacing).length ≤ depth →
      rest.head? ≠ some '@' → Reads (atom (exprWithin depth)) (e.print spacing) rest e.ReadBack)
    (h : ∀ body, (∀ e ∈ es, ∀ tail : List Char, tail.head? ≠ some '@' →
      Reads (atom body) (e.print spacing) tail e.ReadBack) →
      Reads (fallback body) content (')' :: rest) P) :
    Reads (atom (exprWithin depth)) (bracketed content) rest P := by
  refine reads_atom_within hdepth hink fun d hd => h (exprWithin d) fun e he tail htail => ?_
  exact hparts e he ((hlength _ (Expr.print_mem_printAll spacing he)).trans hd) htail

/-- A text is no longer than texts that are joined with it. -/
theorem length_le_length_intercalate (separator : List Char) {text : List Char}
    {texts : List (List Char)} (h : text ∈ texts) :
    text.length ≤ (separator.intercalate texts).length := by
  cases texts with
  | nil => cases h
  | cons first texts =>
    rw [intercalate_cons, List.length_append]
    rcases List.mem_cons.mp h with rfl | h
    · exact Nat.le_add_right ..
    · have hin := (List.sublist_flatten_of_mem (List.mem_map_of_mem (f := (separator ++ ·)) h)).length_le
      rw [← List.flatMap_def, List.length_append] at hin
      omega

/-- A printed expression is read as a unit, if no more brackets are nested than it has characters. -/
theorem reads_print (spacing : Spacing) {e : Expr} (h : e.Printable) {depth : Nat} {rest : List Char}
    (hdepth : (e.print spacing).length ≤ depth) (hrest : rest.head? ≠ some '@') :
    Reads (atom (exprWithin depth)) (e.print spacing) rest e.ReadBack := by
  -- what stands in brackets is shorter than the text with them, as it is read with less depth
  induction h generalizing depth rest with
  | literal htext description span =>
    have hclosing : StopsFallback (')' :: rest) := stopsFallback_of_closing (by decide) rest
    cases description with
    | none =>
      refine reads_atom_within hdepth (blankLength_escape htext _) fun d _ => ?_
      have hliteral := reads_literal htext hclosing.unit.literal hclosing.quote
      rw [← List.append_nil (Lexeme.escape _)] at hliteral ⊢
      exact reads_fallback_of_atom (reads_atom_literal htext hliteral) hclosing
    | some shown =>
      refine reads_atom_within hdepth ?_ fun d _ => ?_
      · rw [List.append_assoc]
        exact blankLength_escape htext _
      have hliteral := reads_literal_described htext shown (')' :: rest)
      exact reads_fallback_of_atom (reads_atom_literal htext hliteral) hclosing
  | reference hname span => exact reads_atom_reference hname rest
  | command htext hpatterns span => exact reads_atom_command (reads_command htext hpatterns hrest)
  | sequence hseveral _ ih =>
    exact reads_parts_within hdepth (blankLength_intercalate spacing hseveral _)
      (fun _ => length_le_length_intercalate _) ih fun body hbody =>
      reads_sequence_print hseveral (stopsFallback_of_closing (by decide) rest) hbody
  | alternative hseveral _ ih =>
    exact reads_parts_within hdepth (blankLength_intercalate spacing hseveral _)
      (fun _ => length_le_length_intercalate _) ih fun body hbody =>
      reads_alternative_print hseveral (stopsFallback_of_closing (by decide) rest) hbody
  | fallback hseveral _ ih =>
    exact reads_parts_within hdepth (blankLength_intercalate spacing hseveral _)
      (fun _ => length_le_length_intercalate _) ih fun body hbody =>
      reads_fallback_print hseveral (stopsFallback_of_closing (by decide) rest) hbody
  | @optional item _ ih =>
    rw [Expr.print, List.length_cons, List.length_append, List.length_singleton] at hdepth
    obtain ⟨d, rfl⟩ : ∃ d, depth = d + 1 := Nat.exists_eq_succ_of_ne_zero (by omega)
    have hclosing : StopsFallback (']' :: rest) := stopsFallback_of_closing (by decide) rest
    have hitem : Reads (atom (exprWithin d)) (item.print spacing) (']' :: rest) item.ReadBack :=
      ih (by omega) (by simp)
    refine (reads_atom_optional (blankLength_print ..) (reads_fallback_of_atom hitem hclosing)).mono ?_
    rintro _ ⟨e, rfl, he⟩
    exact congrArg Expr.optional he
  | @repeated item _ ih =>
    refine reads_atom_within hdepth ?_ fun d hd => ?_
    · rw [List.append_assoc]
      exact blankLength_print ..
    rw [List.length_append] at hd
    have hclosing : StopsFallback (')' :: rest) := stopsFallback_of_closing (by decide) rest
    have hitem : Reads (atom (exprWithin d)) (item.print spacing) ("...".toList ++ ')' :: rest)
        item.ReadBack := ih (by omega) (by simp)
    refine (reads_fallback_of_item (reads_item (reads_juxtaposition_one (reads_unit_repeated hitem)
      hclosing.unit) hclosing.quote) hclosing).mono ?_
    rintro _ ⟨e, rfl, he⟩
    exact congrArg Expr.repeated he
  | @described item _ description ih =>
    refine reads_atom_within hdepth ?_ fun d hd => ?_
    · rw [List.append_assoc]
      exact blankLength_print ..
    rw [List.length_append] at hd
    have hclosing : StopsFallback (')' :: rest) := stopsFallback_of_closing (by decide) rest
    have hitem : Reads (atom (exprWithin d)) (item.print spacing)
        (' ' :: Lexeme.quote description.toList ++ ')' :: rest) item.ReadBack :=
      ih (by omega) (by simp)
    have hquote : (ahead (' ' :: Lexeme.quote description.toList ++ ')' :: rest)).head? = some '"' :=
      congrArg List.head? (Lexeme.ahead_gap [' '] Lexeme.isSpace_of_mem_singleton rfl _)
    have hunit := reads_juxtaposition_one (reads_unit hitem (by rw [hquote]; simp))
      (endsUnit_of_space rfl _)
    refine (reads_fallback_of_item (reads_item_described hunit) hclosing).mono ?_
    rintro _ ⟨e, rfl, he⟩
    exact congrArg (Expr.described · description) he
  | @subword factors hseveral _ span ih =>
    refine reads_parts_within hdepth ?_
      (fun _ htext => (List.sublist_flatten_of_mem htext).length_le) ih fun body hbody =>
      reads_subword_print hseveral (stopsFallback_of_closing (by decide) rest) hbody span
    match factors, hseveral with
    | e :: factors, _ =>
      rw [printAll, List.flatten_cons, List.append_assoc]
      exact blankLength_print ..

/-- A printed expression is read back before the end of a statement. -/
theorem reads_expr (spacing : Spacing) {e : Expr} (h : e.Printable) (rest : List Char) :
    Reads expr (e.print spacing) (';' :: rest) e.ReadBack := by
  intro cursor hcursor
  have hdepth : (e.print spacing).length ≤ cursor.rest.length := by
    rw [hcursor, List.length_append]
    exact Nat.le_add_right ..
  have hclosing : StopsFallback (';' :: rest) := stopsFallback_of_closing (by decide) rest
  exact reads_fallback_of_atom (reads_print spacing h hdepth (by simp)) hclosing cursor hcursor

/-! ### Statements -/

theorem reads_terminator (rest : List Char) : Reads terminator [';'] rest fun _ => True :=
  reads_after_blanks [] (by simp) (Lexeme.blankLength_of_inked rfl _) (reads_exactly ";" rest)

/-- A printed call is read back. -/
theorem reads_call (spacing : Spacing) {head : String} (hhead : Lexeme.LiteralText head) {body : Expr}
    (hbody : body.Printable) (rest : List Char) :
    Reads call ((Statement.call head body).print spacing) rest (Statement.call head body).ReadBack := by
  intro cursor hcursor
  rw [Statement.print, List.append_assoc, List.cons_append, List.append_assoc] at hcursor
  have hends : EndsUnit (' ' :: (body.print spacing ++ ([';'] ++ rest))) := endsUnit_of_space rfl _
  obtain ⟨found, c₁, h₁, hc₁, hfound⟩ :=
    reads_ofScan (Lexeme.literal_escape hhead hends.literal) cursor hcursor
  obtain ⟨⟨⟩, c₂, h₂, hc₂, -⟩ :=
    reads_blanks [' '] Lexeme.isSpace_of_mem_singleton (by decide) (blankLength_print ..) c₁ hc₁
  obtain ⟨e, c₃, h₃, hc₃, he⟩ := reads_expr spacing hbody rest c₂ hc₂
  obtain ⟨⟨⟩, last, h₄, hlast, -⟩ := reads_terminator rest c₃ hc₃
  refine ⟨.call head e, last, ?_, hlast, congrArg (Statement.call head) he⟩
  simp [call, h₁, hfound, h₂, h₃, h₄]

/-- A printed name of a definition is read back with its shell. -/
theorem reads_definedName {name : String} (hname : Lexeme.NameText name) (hat : '@' ∉ name.toList)
    {shell : Option String} (hshell : ∀ s ∈ shell, Lexeme.NameText s) (rest : List Char) :
    Reads definedName (Lexeme.angled (name.toList ++ shell.elim [] fun shell => '@' :: shell.toList))
      rest (· = (name, shell)) := by
  intro cursor hcursor
  cases shell with
  | none =>
    rw [Option.elim_none, List.append_nil] at hcursor
    have hnone : ofScan Lexeme.nameForShell cursor = none :=
      refuses_ofScan (Lexeme.nameForShell_of_no_shell hname hat rest) cursor hcursor
    obtain ⟨found, last, hread, hlast, hfound⟩ :=
      reads_ofScan (Lexeme.name_print hname rest) cursor hcursor
    exact ⟨(name, none), last, by simp [definedName, hnone, hread, hfound], hlast, rfl⟩
  | some shell =>
    obtain ⟨found, last, hread, hlast, hfound⟩ :=
      reads_ofScan (Lexeme.nameForShell_print hname hat (hshell shell rfl) rest) cursor hcursor
    exact ⟨(name, some shell), last, by simp [definedName, hread, hfound], hlast, rfl⟩

/-- A printed definition is read back. -/
theorem reads_definition (spacing : Spacing) {name : String} (hname : Lexeme.NameText name)
    (hat : '@' ∉ name.toList) {shell : Option String} (hshell : ∀ s ∈ shell, Lexeme.NameText s)
    {body : Expr} (hbody : body.Printable) (rest : List Char) :
    Reads definition ((Statement.definition name shell body).print spacing) rest
      (Statement.definition name shell body).ReadBack := by
  intro cursor hcursor
  rw [Statement.print, List.append_assoc, List.append_assoc, List.append_assoc] at hcursor
  obtain ⟨found, c₁, h₁, hc₁, hfound⟩ := reads_definedName hname hat hshell _ cursor hcursor
  have hspace := Lexeme.isSpace_of_mem_singleton
  obtain ⟨⟨⟩, c₂, h₂, hc₂, -⟩ :=
    reads_operator "::=" hspace hspace (fun _ => Lexeme.blankLength_of_inked rfl _)
      (blankLength_print ..) c₁ hc₁
  obtain ⟨e, c₃, h₃, hc₃, he⟩ := reads_expr spacing hbody rest c₂ hc₂
  obtain ⟨⟨⟩, last, h₄, hlast, -⟩ := reads_terminator rest c₃ hc₃
  refine ⟨.definition name shell e, last, ?_, hlast, congrArg (Statement.definition name shell) he⟩
  simp [definition, h₁, hfound, h₂, h₃, h₄]

/-- Only a literal begins a call. -/
theorem refuses_call {text : List Char} (h : Lexeme.EndsLiteral text) : Refuses call text :=
  (refuses_scanLiteral h).bind

/-- A printed statement is read with the white space behind it. -/
theorem reads_statement (spacing : Spacing) {s : Statement} (h : s.Printable) {rest : List Char}
    (hrest : Lexeme.ahead rest = rest) :
    Reads statement (s.print spacing ++ spacing.behind) rest s.ReadBack := by
  have hstatement : Reads (fun cursor => call cursor <|> definition cursor) (s.print spacing)
      (spacing.behind ++ rest) s.ReadBack := by
    cases h with
    | call hhead hbody => exact (reads_call spacing hhead hbody _).orElse_left
    | definition hname hat hshell hbody =>
      refine Reads.orElse (refuses_call ?_) (reads_definition spacing hname hat hshell hbody _)
      exact Lexeme.endsLiteral_cons (by decide) _
  intro cursor hcursor
  rw [List.append_assoc] at hcursor
  obtain ⟨x, last, hx, hlast, hP⟩ := hstatement cursor hcursor
  refine ⟨x, skipBlanks last, ?_, ?_, hP⟩
  · dsimp only at hx
    simp [statement, hx]
  · rw [rest_skipBlanks, hlast, Lexeme.ahead_append spacing.behind_space, hrest]

/-- A printed statement begins with no blank. -/
theorem ahead_print (spacing : Spacing) {s : Statement} (h : s.Printable) (tail : List Char) :
    Lexeme.ahead (s.print spacing ++ tail) = s.print spacing ++ tail := by
  refine Lexeme.ahead_eq_self ?_
  cases h with
  | call hhead hbody =>
    rw [Statement.print, List.append_assoc]
    exact blankLength_escape hhead _
  | definition => exact Lexeme.blankLength_of_inked rfl _

theorem refuses_statement : Refuses statement [] := by
  intro cursor hcursor
  rw [statement]
  simp [call, definition, definedName, ofScan, hcursor, Lexeme.literal, Lexeme.plainRun,
    Lexeme.nameForShell, Lexeme.name]

/-- Printed statements are read one after the other, to the end of the text. -/
theorem statements_print (spacing : Spacing) {ss : List Statement} (h : ∀ s ∈ ss, s.Printable)
    (cursor : Cursor) (hcursor : cursor.rest = ss.flatMap fun s => s.print spacing ++ spacing.behind) :
    ∃ xs last, statements cursor = (xs, last) ∧ last.rest = [] ∧
      List.Forall₂ Statement.ReadBack ss xs := by
  have hfollow : ∀ s ∈ ss, ∀ tail : List Char,
      Lexeme.ahead (s.print spacing ++ spacing.behind ++ tail) =
        s.print spacing ++ spacing.behind ++ tail := by
    intro s hs tail
    rw [List.append_assoc]
    exact ahead_print spacing (h s hs) _
  have hstart : Lexeme.ahead cursor.rest = cursor.rest := by
    rw [hcursor, ← List.append_nil (ss.flatMap _)]
    exact follow_flatMap (F := fun cs => Lexeme.ahead cs = cs) hfollow rfl
  refine many_eq (F := fun cs => Lexeme.ahead cs = cs)
    (fun s hs tail htail => reads_statement spacing (h s hs) htail) hfollow rfl refuses_statement ?_
    (skipBlanks cursor) ?_
  · intro s _
    cases s <;> simp [Statement.print, Lexeme.angled]
  · rw [rest_skipBlanks, hstart, hcursor, List.append_nil]

end Parser

namespace Grammar

/-- A grammar that can be read from its printed form. -/
def Printable (g : Grammar) : Prop := ∀ s ∈ g.statements, s.Printable

/-- A grammar without the places where its parts were written. -/
def withoutSpans (g : Grammar) : Grammar := g.mapBodies Expr.withoutSpans

/-- A grammar with all its subwords flat. -/
def flattenSubwords (g : Grammar) : Grammar := g.mapBodies Expr.flattenSubwords

/-- Statements that are read back make the same grammar, but for spans and with subwords flattened. -/
theorem withoutSpans_of_readBack {ss xs : List Statement}
    (h : List.Forall₂ Statement.ReadBack ss xs) :
    (Grammar.mk xs).withoutSpans = (Grammar.mk ss).flattenSubwords.withoutSpans := by
  have hmap : xs.map (Statement.mapBody Expr.withoutSpans) =
      (ss.map (Statement.mapBody Expr.flattenSubwords)).map (Statement.mapBody Expr.withoutSpans) := by
    induction h with
    | nil => rfl
    | cons hs _ ih => rw [List.map_cons, hs, ih, List.map_cons, List.map_cons]
  exact congrArg Grammar.mk hmap

/-- No subword of a grammar changes if none of them has another one inside. -/
theorem flattenSubwords_eq_self {g : Grammar}
    (h : ∀ s ∈ g.statements, ∀ body ∈ s.body.subwordBodies, body.subwordBodies = []) :
    g.flattenSubwords = g := by
  have hmap : g.statements.map (Statement.mapBody Expr.flattenSubwords) = g.statements.map id := by
    refine List.map_congr_left fun s hs => ?_
    cases s with
    | call head body => exact congrArg (Statement.call head) (Expr.flattenSubwords_eq_self (h _ hs))
    | definition name shell body =>
      exact congrArg (Statement.definition name shell) (Expr.flattenSubwords_eq_self (h _ hs))
  rw [flattenSubwords, mapBodies, hmap, List.map_id]

/-- A grammar that can be printed is read from its printed form, whatever white space stands around bars
and behind statements. What is read differs from it in places only, and in subwords inside of other
subwords, which come back flat. -/
theorem parse_print (spacing : Spacing) {g : Grammar} (h : g.Printable) :
    ∃ read, parse (g.print spacing) = .ok read ∧
      read.withoutSpans = g.flattenSubwords.withoutSpans ∧
      ((∀ s ∈ g.statements, ∀ body ∈ s.body.subwordBodies, body.subwordBodies = []) →
        read.withoutSpans = g.withoutSpans) := by
  obtain ⟨xs, last, hread, hlast, hxs⟩ :=
    Parser.statements_print spacing h ⟨(g.print spacing).toList, 0, 0⟩ String.toList_ofList
  have hsame := withoutSpans_of_readBack hxs
  refine ⟨⟨xs⟩, ?_, hsame, fun hflat => ?_⟩
  · rw [parse, hread]
    simp [hlast]
  · rw [hsame, flattenSubwords_eq_self hflat]

/-- A grammar in which every form of expression occurs. -/
def everyForm : Grammar where
  statements := [
    .call "tool" (.sequence [
      .literal "a|b" (some "one \"pair\"") 0 none,
      .optional (.alternative [.reference "FILE" 0 none, .repeated (.literal "-v" none 0 none)]),
      .subword (.sequence [.literal "--color=" none 0 none, .reference "WHEN" 0 none]) 0 none,
      .described (.reference "FILE" 0 none) "more"]),
    .definition "FILE" none (.fallback [
      .command "ls -1" (some { bash := some ".*", zsh := some "\\w" }) 0 none,
      .command "pwd" none 0 none]),
    .definition "WHEN" (some "fish") (.command "date" none 0 none)]

theorem printable_everyForm : everyForm.Printable := by
  have hfile : Expr.Printable (.reference "FILE" 0 none) := .reference ⟨by decide, by decide⟩ none
  have hwhen : Expr.Printable (.reference "WHEN" 0 none) := .reference ⟨by decide, by decide⟩ none
  have hliteral : ∀ text ∈ ["a|b", "-v", "--color="], ∀ description,
      Expr.Printable (.literal text description 0 none) := by
    intro text htext description
    refine .literal ?_ description none
    simp only [List.mem_cons, List.not_mem_nil, or_false] at htext
    rcases htext with rfl | rfl | rfl <;> decide
  have hcommand : ∀ text ∈ ["pwd", "date"], Expr.Printable (.command text none 0 none) := by
    intro text htext
    refine .command ?_ (by simp) none
    simp only [List.mem_cons, List.not_mem_nil, or_false] at htext
    rcases htext with rfl | rfl <;> exact ⟨by decide, by decide⟩
  have hpatterns : Expr.Printable
      (.command "ls -1" (some { bash := some ".*", zsh := some "\\w" }) 0 none) := by
    refine .command ⟨by decide, by decide⟩ ?_ none
    rintro _ ⟨⟩
    exact ⟨by decide, rfl⟩
  rintro s (_ | ⟨_, _ | ⟨_, _ | ⟨_, ⟨⟩⟩⟩⟩)
  · refine .call (by decide) (.sequence (by decide) ?_)
    rintro e (_ | ⟨_, _ | ⟨_, _ | ⟨_, _ | ⟨_, ⟨⟩⟩⟩⟩⟩)
    · exact hliteral "a|b" (by decide) _
    · refine .optional (.alternative (by decide) ?_)
      simpa using And.intro hfile (.repeated (hliteral "-v" (by decide) none))
    · refine .subword (by decide) ?_ none
      simpa using And.intro (hliteral "--color=" (by decide) none) hwhen
    · exact .described hfile "more"
  · refine .definition ⟨by decide, by decide⟩ (by decide) (by simp) (.fallback (by decide) ?_)
    simpa using And.intro hpatterns (hcommand "pwd" (by decide))
  · refine .definition ⟨by decide, by decide⟩ (by decide) ?_ (hcommand "date" (by decide))
    rintro _ ⟨⟩
    exact ⟨by decide, by decide⟩

/-- It is read back as it was. -/
theorem parse_print_everyForm : everyForm.Printable ∧
    ∃ read, parse (everyForm.print .usual) = .ok read ∧ read.withoutSpans = everyForm.withoutSpans := by
  obtain ⟨read, hread, -, hsame⟩ := parse_print .usual printable_everyForm
  exact ⟨printable_everyForm, read, hread, hsame (by decide)⟩

end Grammar

end ShellCompletion
