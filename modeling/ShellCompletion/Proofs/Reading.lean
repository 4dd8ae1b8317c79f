import Mathlib.Data.List.Forall2
import ShellCompletion.Grammar.Parser
import ShellCompletion.Proofs.Printing

/-!
# What a parser reads

A parser reads a text before some rest if it takes the text and leaves the rest, wherever the two stand
in a source. Whether it does depends on the rest, since a parser goes on for as long as it can. A parser
that repeats another one reads one text after the other if it refuses to go on with what follows them.
-/

namespace ShellCompletion

namespace Lexeme

/-- What stands behind the blanks at the front. -/
def ahead (cs : List Char) : List Char := cs.drop (blankLength false cs)

/-- Whether a character is not blank and begins no comment. -/
def isInked (c : Char) : Bool := !(isSpace c || c = '\x0c' || c = '#')

/-- The opening marks are inked. -/
theorem isInked_of_opening {c : Char} (hc : c ∈ openings) : isInked c = true := by
  simp only [openings, List.mem_cons, List.not_mem_nil, or_false] at hc
  rcases hc with rfl | rfl | rfl | rfl <;> rfl

theorem isSpace_of_mem_singleton : ∀ c ∈ [' '], isSpace c = true := by simp [isSpace]

/-- Nothing is skipped in front of an inked character. -/
theorem blankLength_of_inked {c : Char} (hc : isInked c = true) (cs : List Char) :
    blankLength false (c :: cs) = 0 := by
  obtain ⟨⟨hspace, hfeed⟩, hsign⟩ : (isSpace c = false ∧ c ≠ '\x0c') ∧ c ≠ '#' := by
    simpa [isInked] using hc
  simp [blankLength, hspace, hfeed, hsign]

/-- Nothing is skipped where there are no blanks. -/
theorem ahead_eq_self {cs : List Char} (h : blankLength false cs = 0) : ahead cs = cs := by
  rw [ahead, h, List.drop_zero]

/-- Spaces are skipped before what follows them. -/
theorem blankLength_append {gap : List Char} (hgap : ∀ c ∈ gap, isSpace c = true) (cs : List Char) :
    blankLength false (gap ++ cs) = gap.length + blankLength false cs := by
  induction gap with
  | nil => simp
  | cons c gap ih =>
    have hc : isSpace c = true := hgap c (by simp)
    rw [List.cons_append, blankLength, if_neg Bool.false_ne_true, hc, Bool.true_or, if_pos rfl,
      ih fun d hd => hgap d (by simp [hd]), List.length_cons]
    omega

/-- What lies ahead of spaces lies ahead of what follows them. -/
theorem ahead_append {gap : List Char} (hgap : ∀ c ∈ gap, isSpace c = true) (cs : List Char) :
    ahead (gap ++ cs) = ahead cs := by
  rw [ahead, blankLength_append hgap, ← List.drop_drop, List.drop_left, ahead]

/-- An escaped literal begins with a character that is neither blank nor an opening bracket. -/
theorem escape_eq_cons {text : String} (h : LiteralText text) :
    ∃ c cs, escape text.toList = c :: cs ∧ isInked c = true ∧ c ∉ openings := by
  obtain ⟨hne, hcomment, hprinted⟩ := h
  cases htext : text.toList with
  | nil => exact (hne htext).elim
  | cons c cs =>
    rw [htext] at hcomment hprinted
    cases hreserved : isReserved c with
    | true => exact ⟨'\\', c :: escape cs, by simp [escape, hreserved], by decide, by decide⟩
    | false =>
      refine ⟨c, escape cs, by simp [escape, hreserved], ?_, ?_⟩
      · obtain ⟨-, hc⟩ := hprinted c (by simp)
        have hsign : c ≠ '#' := by simpa using hcomment
        rw [isInked, isSpace, Bool.not_eq_true', Bool.eq_false_iff]
        intro hblank
        simp only [Bool.or_eq_true, decide_eq_true_eq, hsign, or_false] at hblank
        rcases hblank with (((rfl | rfl) | rfl) | rfl) | rfl <;> revert hc <;> decide
      · intro hopening
        simp only [openings, List.mem_cons, List.not_mem_nil, or_false] at hopening
        rcases hopening with rfl | rfl | rfl | rfl <;> revert hreserved <;> decide

/-- Spaces are skipped up to an inked character. -/
theorem ahead_gap (gap : List Char) (hgap : ∀ c ∈ gap, isSpace c = true) {c : Char}
    (hc : isInked c = true) (cs : List Char) : ahead (gap ++ c :: cs) = c :: cs := by
  rw [ahead_append hgap, ahead_eq_self (blankLength_of_inked hc cs)]

/-- A quoted text begins with a quote. -/
theorem quoted_eq_none {cs : List Char} (h : cs.head? ≠ some '"') : quoted cs = none := by
  rw [quoted.eq_def]
  split
  · exact (h rfl).elim
  · rfl

end Lexeme

namespace Parser

open Lexeme (ahead isInked isSpace)

variable {α β ι : Type}

/-- Whether a parser takes a text and leaves the rest, and gives something with a property. -/
def Reads (parser : Parser α) (text rest : List Char) (P : α → Prop) : Prop :=
  ∀ cursor, cursor.rest = text ++ rest →
    ∃ item last, parser cursor = some (item, last) ∧ last.rest = rest ∧ P item

/-- Whether a parser reads nothing from a text. -/
def Refuses (parser : Parser α) (text : List Char) : Prop :=
  ∀ cursor, cursor.rest = text → parser cursor = none

section

variable {parser : Parser α} {text rest : List Char} {P : α → Prop}

/-- What is read has every property that follows from those it has. -/
theorem Reads.mono {Q : α → Prop} (h : Reads parser text rest P) (hPQ : ∀ a, P a → Q a) :
    Reads parser text rest Q := by
  intro cursor hcursor
  obtain ⟨item, last, hitem, hlast, hP⟩ := h cursor hcursor
  exact ⟨item, last, hitem, hlast, hPQ item hP⟩

/-- Of two parsers the second one reads what the first one refuses. -/
theorem Reads.orElse {first : Parser α} (hfirst : Refuses first (text ++ rest))
    (h : Reads parser text rest P) :
    Reads (fun cursor => first cursor <|> parser cursor) text rest P := by
  intro cursor hcursor
  obtain ⟨item, last, hitem, hlast, hP⟩ := h cursor hcursor
  refine ⟨item, last, ?_, hlast, hP⟩
  dsimp only
  rw [hfirst cursor hcursor, hitem]
  rfl

/-- The second of two parsers is not tried if the first one reads. -/
theorem Reads.orElse_left {second : Parser α} (h : Reads parser text rest P) :
    Reads (fun cursor => parser cursor <|> second cursor) text rest P := by
  intro cursor hcursor
  obtain ⟨item, last, hitem, hlast, hP⟩ := h cursor hcursor
  refine ⟨item, last, ?_, hlast, hP⟩
  dsimp only
  rw [hitem]
  rfl

/-- A choice of two parsers refuses what both refuse. -/
theorem Refuses.orElse {first second : Parser α} (hfirst : Refuses first text)
    (hsecond : Refuses second text) :
    Refuses (fun cursor => first cursor <|> second cursor) text := by
  intro cursor hcursor
  dsimp only
  rw [hfirst cursor hcursor, hsecond cursor hcursor]
  rfl

/-- A parser refuses what the first one of its steps refuses. -/
theorem Refuses.bind {f : Cursor → α × Cursor → Option (β × Cursor)} (h : Refuses parser text) :
    Refuses (fun cursor => (parser cursor).bind (f cursor)) text := by
  intro cursor hcursor
  dsimp only
  rw [h cursor hcursor, Option.bind_none]

/-! ### Single items -/

/-- A parser made of a scan reads what the scan finds. -/
theorem reads_ofScan {scan : List Char → Option (α × Nat)} {a : α}
    (h : scan (text ++ rest) = some (a, text.length)) : Reads (ofScan scan) text rest (· = a) := by
  intro cursor hcursor
  refine ⟨a, cursor.advance text.length, ?_, ?_, rfl⟩
  · rw [ofScan, hcursor, h]
    rfl
  · rw [Cursor.rest_advance, hcursor, List.drop_left]

/-- A parser made of a scan refuses what the scan does. -/
theorem refuses_ofScan {scan : List Char → Option (α × Nat)} (h : scan text = none) :
    Refuses (ofScan scan) text := by
  intro cursor hcursor
  rw [ofScan, hcursor, h]
  rfl

/-- A given text is read where it stands. -/
theorem reads_exactly (text : String) (rest : List Char) :
    Reads (exactly text) text.toList rest fun _ => True := by
  intro cursor hcursor
  refine ⟨(), cursor.advance text.length, ?_, ?_, trivial⟩
  · rw [exactly, hcursor, if_pos (List.isPrefixOf_iff_prefix.mpr (List.prefix_append ..))]
  · rw [Cursor.rest_advance, hcursor, ← String.length_toList, List.drop_left]

/-- A given text is refused where it does not stand. -/
theorem refuses_exactly {expected : String} (h : ¬ expected.toList <+: text) :
    Refuses (exactly expected) text := by
  intro cursor hcursor
  rw [exactly, hcursor, if_neg (mt List.isPrefixOf_iff_prefix.mp h)]

/-- A single character is refused where another one stands. -/
theorem refuses_exactly_of_head {expected : String} {c : Char} (hexpected : expected.toList = [c])
    (h : text.head? ≠ some c) : Refuses (exactly expected) text := by
  refine refuses_exactly ?_
  rw [hexpected]
  rintro ⟨tail, rfl⟩
  exact h rfl

/-- What is left when blanks are skipped is what lies ahead. -/
theorem rest_skipBlanks (cursor : Cursor) : (skipBlanks cursor).rest = ahead cursor.rest :=
  Cursor.rest_advance ..

/-- White space before a text does not matter to a parser that skips blanks. -/
theorem reads_after_blanks (gap : List Char) (hgap : ∀ c ∈ gap, isSpace c = true)
    (hink : Lexeme.blankLength false (text ++ rest) = 0) (h : Reads parser text rest P) :
    Reads (fun cursor => parser (skipBlanks cursor)) (gap ++ text) rest P := by
  intro cursor hcursor
  refine h (skipBlanks cursor) ?_
  rw [rest_skipBlanks, hcursor, List.append_assoc, Lexeme.ahead_append hgap,
    Lexeme.ahead_eq_self hink]

/-- What is refused behind blanks is refused in front of them by a parser that skips them. -/
theorem refuses_after_blanks (h : Refuses parser (ahead text)) :
    Refuses (fun cursor => parser (skipBlanks cursor)) text := by
  intro cursor hcursor
  refine h (skipBlanks cursor) ?_
  rw [rest_skipBlanks, hcursor]

/-- A quoted text is read as a description, also behind spaces. -/
theorem reads_description (gap : List Char) (hgap : ∀ c ∈ gap, isSpace c = true) (text : String)
    (rest : List Char) : Reads description (gap ++ Lexeme.quote text.toList) rest (· = text) :=
  reads_after_blanks gap hgap (Lexeme.blankLength_of_inked rfl _)
    (reads_ofScan (Lexeme.quoted_quote text rest))

/-- Only a quote begins a description. -/
theorem refuses_description (h : (ahead text).head? ≠ some '"') : Refuses description text :=
  refuses_after_blanks (refuses_ofScan (Lexeme.quoted_eq_none h))

end

/-! ### Several items -/

section

variable {item : Parser α} {piece : ι → List Char} {F : List Char → Prop} {P : ι → α → Prop}
  {es : List ι} {rest : List Char}

/-- What follows an item is allowed there, be it another item or the rest. -/
theorem follow_flatMap (hF : ∀ e ∈ es, ∀ tail, F (piece e ++ tail)) (hrest : F rest) :
    F (es.flatMap piece ++ rest) := by
  cases es with
  | nil => exact hrest
  | cons e es =>
    rw [List.flatMap_cons, List.append_assoc]
    exact hF e (by simp) _

/-- Pieces that are read one by one are read together, if there are not too many of them. -/
theorem atMost_eq (hitem : ∀ e ∈ es, ∀ tail, F tail → Reads item (piece e) tail (P e))
    (hF : ∀ e ∈ es, ∀ tail, F (piece e ++ tail)) (hrest : F rest) (hrefuses : Refuses item rest)
    {count : Nat} (hcount : es.length ≤ count) (cursor : Cursor)
    (hcursor : cursor.rest = es.flatMap piece ++ rest) :
    ∃ xs last, atMost item count cursor = (xs, last) ∧ last.rest = rest ∧ List.Forall₂ P es xs := by
  induction es generalizing count cursor with
  | nil =>
    refine ⟨[], cursor, ?_, hcursor, .nil⟩
    cases count with
    | zero => rfl
    | succ count => rw [atMost, hrefuses cursor hcursor]
  | cons e es ih =>
    obtain ⟨count, rfl⟩ : ∃ n, count = n + 1 := Nat.exists_eq_succ_of_ne_zero (by
      rw [List.length_cons] at hcount
      omega)
    rw [List.flatMap_cons, List.append_assoc] at hcursor
    have hothers : ∀ e' ∈ es, ∀ tail, F (piece e' ++ tail) := fun e' he' => hF e' (by simp [he'])
    obtain ⟨x, next, hx, hnext, hPx⟩ :=
      hitem e (by simp) _ (follow_flatMap hothers hrest) cursor hcursor
    obtain ⟨xs, last, hxs, hlast, hPxs⟩ :=
      ih (fun e' he' => hitem e' (by simp [he'])) hothers (Nat.le_of_succ_le_succ hcount) next hnext
    refine ⟨x :: xs, last, ?_, hlast, .cons hPx hPxs⟩
    rw [atMost, hx]
    dsimp only
    rw [hxs]

theorem length_le_length_flatMap (hne : ∀ e ∈ es, piece e ≠ []) :
    es.length ≤ (es.flatMap piece).length := by
  induction es with
  | nil => exact Nat.zero_le _
  | cons e es ih =>
    have hfirst := List.length_pos_of_ne_nil (hne e (by simp))
    have hothers := ih fun e' he' => hne e' (by simp [he'])
    rw [List.flatMap_cons, List.length_append, List.length_cons]
    omega

/-- Items that are not empty are read one after the other, up to a rest with which no item begins. -/
theorem many_eq (hitem : ∀ e ∈ es, ∀ tail, F tail → Reads item (piece e) tail (P e))
    (hF : ∀ e ∈ es, ∀ tail, F (piece e ++ tail)) (hrest : F rest) (hrefuses : Refuses item rest)
    (hne : ∀ e ∈ es, piece e ≠ []) (cursor : Cursor)
    (hcursor : cursor.rest = es.flatMap piece ++ rest) :
    ∃ xs last, many item cursor = (xs, last) ∧ last.rest = rest ∧ List.Forall₂ P es xs := by
  refine atMost_eq hitem hF hrest hrefuses ?_ cursor hcursor
  rw [hcursor, List.length_append]
  exact (length_le_length_flatMap hne).trans (Nat.le_add_right ..)

/-- No item is found where one is refused. -/
theorem atMost_of_refuses {cursor : Cursor} (h : Refuses item cursor.rest) (count : Nat) :
    atMost item count cursor = ([], cursor) := by
  cases count with
  | zero => rfl
  | succ count => rw [atMost, h cursor rfl]

theorem many_of_refuses {cursor : Cursor} (h : Refuses item cursor.rest) :
    many item cursor = ([], cursor) :=
  atMost_of_refuses h _

/-- A single item is found if none follows it. -/
theorem many_of_reads {text : List Char} {Q : α → Prop} (h : Reads item text rest Q) (hne : text ≠ [])
    (hrefuses : Refuses item rest) {cursor : Cursor} (hcursor : cursor.rest = text ++ rest) :
    ∃ x last, many item cursor = ([x], last) ∧ last.rest = rest ∧ Q x := by
  obtain ⟨x, last, hx, hlast, hQ⟩ := h cursor hcursor
  obtain ⟨count, hcount⟩ : ∃ n, cursor.rest.length = n + 1 := Nat.exists_eq_succ_of_ne_zero (by
    rw [hcursor]
    simp [hne])
  refine ⟨x, last, ?_, hlast, hQ⟩
  rw [many, hcount, atMost, hx]
  dsimp only
  rw [atMost_of_refuses (hlast ▸ hrefuses)]

end

/-! ### Joined operands -/

theorem intercalate_cons {separator text : List Char} {texts : List (List Char)} :
    separator.intercalate (text :: texts) = text ++ texts.flatMap (separator ++ ·) := by
  induction texts generalizing text with
  | nil => simp [List.intercalate]
  | cons other texts ih =>
    rw [List.intercalate_cons_cons, ih, List.flatMap_cons, List.append_assoc, List.append_assoc]

/-- What is behind one of several texts may count as part of that text. -/
theorem intercalate_append_cons {separator text more : List Char} {texts others : List (List Char)} :
    separator.intercalate (texts ++ text :: others) ++ more =
      separator.intercalate (texts ++ [text ++ (others.flatMap (separator ++ ·) ++ more)]) := by
  cases texts with
  | nil => simp [intercalate_cons]
  | cons first texts => simp [intercalate_cons]

/-- One more operand, behind a separator. -/
def further (separator : Parser Unit) (operand : Parser Expr) : Parser Expr := fun cursor =>
  (separator cursor).bind fun x => operand x.2

section

variable {separator : Parser Unit} {operand : Parser Expr} {combine : List Expr → Expr}

/-- A single operand is read as itself. -/
theorem reads_joined_one {text rest : List Char} {P : Expr → Prop}
    (hoperand : Reads operand text rest P) (hrefuses : Refuses (further separator operand) rest) :
    Reads (joined separator operand combine) text rest P := by
  intro cursor hcursor
  obtain ⟨e, next, he, hnext, hP⟩ := hoperand cursor hcursor
  have hmany : many (further separator operand) next = ([], next) :=
    many_of_refuses (hnext ▸ hrefuses)
  refine ⟨e, next, ?_, hnext, hP⟩
  unfold further at hmany
  simp only [joined, he, Option.bind_eq_bind, Option.bind_some, hmany, Option.pure_def]

/-- Two operands with a separator between them are combined. -/
theorem reads_joined_two {first between second rest : List Char} {P Q : Expr → Prop}
    (hfirst : Reads operand first (between ++ second ++ rest) P)
    (hseparator : Reads separator between (second ++ rest) fun _ => True)
    (hsecond : Reads operand second rest Q) (hne : between ≠ [])
    (hrefuses : Refuses (further separator operand) rest) :
    Reads (joined separator operand combine) (first ++ (between ++ second)) rest
      fun x => ∃ e e', x = combine [e, e'] ∧ P e ∧ Q e' := by
  have hfurther : Reads (further separator operand) (between ++ second) rest Q := by
    intro start hstart
    rw [List.append_assoc] at hstart
    obtain ⟨u, middle, hu, hmiddle, -⟩ := hseparator start hstart
    obtain ⟨e', last, he', hlast, hQ⟩ := hsecond middle hmiddle
    exact ⟨e', last, by rw [further, hu, Option.bind_some, he'], hlast, hQ⟩
  intro cursor hcursor
  rw [List.append_assoc] at hcursor
  obtain ⟨e, next, he, hnext, hP⟩ := hfirst cursor hcursor
  obtain ⟨e', last, hmany, hlast, hQ⟩ :=
    many_of_reads hfurther (List.append_ne_nil_of_left_ne_nil hne _) hrefuses hnext
  refine ⟨combine [e, e'], last, ?_, hlast, e, e', rfl, hP, hQ⟩
  unfold further at hmany
  simp only [joined, he, Option.bind_eq_bind, Option.bind_some, hmany, Option.pure_def]

/-- Several operands are read with the separators between them, if each stops before a separator and
the last one before the rest. -/
theorem reads_joined_several {text : ι → List Char} {between rest : List Char}
    {F : List Char → Prop} {P : ι → Expr → Prop} {es : List ι} (hseveral : 2 ≤ es.length)
    (hoperand : ∀ e ∈ es, ∀ tail, F tail → Reads operand (text e) tail (P e))
    (hseparator : ∀ e ∈ es, ∀ tail, Reads separator between (text e ++ tail) fun _ => True)
    (hF : ∀ e ∈ es, ∀ tail, F (between ++ (text e ++ tail))) (hrest : F rest) (hne : between ≠ [])
    (hrefuses : Refuses (further separator operand) rest) :
    Reads (joined separator operand combine) (between.intercalate (es.map text)) rest
      fun x => ∃ xs, x = combine xs ∧ List.Forall₂ P es xs := by
  match es, hseveral with
  | e :: e' :: es, _ =>
    intro cursor hcursor
    rw [List.map_cons, intercalate_cons, List.flatMap_map, List.append_assoc] at hcursor
    have hfurther : ∀ a ∈ e' :: es, ∀ tail, F tail →
        Reads (further separator operand) (between ++ text a) tail (P a) := by
      intro a ha tail htail start hstart
      rw [List.append_assoc] at hstart
      obtain ⟨u, middle, hu, hmiddle, -⟩ := hseparator a (List.mem_cons_of_mem e ha) tail start hstart
      obtain ⟨x, last, hx, hlast, hPx⟩ := hoperand a (List.mem_cons_of_mem e ha) tail htail middle hmiddle
      exact ⟨x, last, by rw [further, hu, Option.bind_some, hx], hlast, hPx⟩
    have hfollow : ∀ a ∈ e' :: es, ∀ tail, F ((between ++ text a) ++ tail) := by
      intro a ha tail
      rw [List.append_assoc]
      exact hF a (List.mem_cons_of_mem e ha) tail
    obtain ⟨x, next, hx, hnext, hPx⟩ :=
      hoperand e (by simp) _ (follow_flatMap hfollow hrest) cursor hcursor
    obtain ⟨xs, last, hxs, hlast, hPxs⟩ := many_eq hfurther hfollow hrest hrefuses
      (fun a _ => List.append_ne_nil_of_left_ne_nil hne _) next hnext
    refine ⟨combine (x :: xs), last, ?_, hlast, x :: xs, rfl, .cons hPx hPxs⟩
    cases hPxs with
    | cons h hs =>
      unfold further at hxs
      simp only [joined, hx, Option.bind_eq_bind, Option.bind_some, hxs, Option.pure_def]

end

end Parser

end ShellCompletion
