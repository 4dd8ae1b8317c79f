import ShellCompletion.Proofs.Progress
import ShellCompletion.Proofs.TextLines

/-!
# Where reading stops

A text is read as statements for as long as there are any, and if something is left, the place where it
begins is reported with the line it is on. The cursor counts line feeds and the bytes behind the last one,
while the line is found by splitting the text at line feeds. The two agree: what is left begins with a
character that is neither blank nor part of a comment, so it is a character of the reported line.
-/

namespace ShellCompletion

/-- Whether a cursor stands in a text where its counts say: whole lines before it, as many as it counts, and
then a begun line with as many bytes as it counts. -/
def Cursor.StandsIn (text : List Char) (cursor : Cursor) : Prop :=
  ∃ earlier begun, text = earlier ++ (begun ++ cursor.rest) ∧ Text.EndsLine earlier ∧ '\n' ∉ begun ∧
    cursor.line = earlier.count '\n' ∧ cursor.column = Text.bytes begun

namespace Cursor

variable {text : List Char}

/-- A cursor stands at the start of its text. -/
theorem standsIn_start (text : List Char) : StandsIn text ⟨text, 0, 0⟩ :=
  ⟨[], [], rfl, .inl rfl, by simp, rfl, rfl⟩

/-- Moving on keeps the counts right. -/
theorem StandsIn.advance {cursor : Cursor} (h : cursor.StandsIn text) (count : ℕ) :
    (cursor.advance count).StandsIn text := by
  induction count generalizing cursor with
  | zero => exact h
  | succ count ih =>
    rw [Cursor.advance]
    obtain ⟨earlier, begun, htext, hends, hbegun, hline, hcolumn⟩ := h
    split
    · exact ⟨earlier, begun, htext, hends, hbegun, hline, hcolumn⟩
    · next c cs hrest =>
      rw [hrest] at htext
      split
      · next hc =>
        refine ih ⟨earlier ++ begun ++ ['\n'], [], ?_, Text.endsLine_append_feed _, by simp, ?_, rfl⟩
        · simp [htext, hc]
        · simp [hline, List.count_eq_zero_of_not_mem hbegun]
      · next hc =>
        refine ih ⟨earlier, begun ++ [c], ?_, hends, ?_, hline, ?_⟩
        · simp [htext]
        · simp [hbegun, Ne.symm hc]
        · simp [hcolumn, Text.bytes_append, Text.bytes]

/-- A cursor still stands in its text behind a reading. -/
theorem StandsIn.of_reaches {start stop : Cursor} (h : start.StandsIn text) (hstop : start.Reaches stop) :
    stop.StandsIn text := by
  obtain ⟨count, rfl⟩ := hstop
  exact h.advance count

/-- A character that ends no line is in the line that the cursor counts, behind the column. -/
theorem StandsIn.exists_line {cursor : Cursor} (h : cursor.StandsIn text) {c : Char} {cs : List Char}
    (hrest : cursor.rest = c :: cs) (hfeed : c ≠ '\n') (hreturn : c ≠ '\r') (last : Text.LastReturn) :
    ∃ line, (Text.lines last text)[cursor.line]? = some line ∧ cursor.column < Text.bytes line := by
  obtain ⟨earlier, begun, htext, hends, hbegun, hline, hcolumn⟩ := h
  have hne : begun ++ c :: cs ≠ [] := by simp
  obtain ⟨later, hlater⟩ := Text.exists_pieces hne
  have hpiece : (begun ++ c :: cs).takeWhile (· ≠ '\n') = begun ++ c :: cs.takeWhile (· ≠ '\n') := by
    rw [List.takeWhile_append_of_pos, List.takeWhile_cons_of_pos]
    · simpa using hfeed
    · intro d hd
      have hne : d ≠ '\n' := fun heq => hbegun (heq ▸ hd)
      simpa using hne
  have hplace : (Text.pieces text)[cursor.line]? = some (begun ++ c :: cs.takeWhile (· ≠ '\n')) := by
    rw [hrest] at htext
    rw [htext, Text.pieces_append hends, hlater, hpiece, hline, ← Text.length_pieces hends]
    simp
  obtain ⟨line, hline, hof⟩ := Text.exists_line_of_piece last hplace
  exact ⟨line, hline, hcolumn ▸ hof.bytes_lt hreturn⟩

end Cursor

namespace Lexeme

/-- No blanks are left behind blanks. -/
theorem blankLength_ahead (comment : Bool) (cs : List Char) :
    blankLength false (cs.drop (blankLength comment cs)) = 0 := by
  induction cs generalizing comment with
  | nil => rfl
  | cons c cs ih =>
    rw [blankLength]
    split
    · exact ih _
    · split
      · exact ih _
      · split
        · exact ih _
        · next hspace hsign => simp [blankLength, hspace, hsign]

/-- A character that is not skipped is inked. -/
theorem isInked_of_blankLength {c : Char} {cs : List Char} (h : blankLength false (c :: cs) = 0) :
    isInked c = true := by
  rw [blankLength, if_neg Bool.false_ne_true] at h
  split at h
  · cases h
  · split at h
    · cases h
    · next hspace hsign =>
      rw [isInked, Bool.eq_false_iff.mpr hspace, decide_eq_false hsign]
      rfl

/-- What is inked ends no line. -/
theorem not_feed_of_inked {c : Char} (hc : isInked c = true) : c ≠ '\n' ∧ c ≠ '\r' := by
  constructor <;> rintro rfl <;> revert hc <;> decide

end Lexeme

namespace Parser

/-- What is left behind statements and the blanks around them does not begin with a blank. -/
theorem Repeats.blankLength_eq_zero {start stop : Cursor} {statements : List Statement}
    (h : Repeats statement start statements stop) (hstart : Lexeme.blankLength false start.rest = 0) :
    Lexeme.blankLength false stop.rest = 0 := by
  induction h with
  | done => exact hstart
  | more hfirst _ ih =>
    apply ih
    simp only [statement, Option.bind_eq_bind, Option.bind_eq_some_iff] at hfirst
    obtain ⟨⟨found, c⟩, -, heq⟩ := hfirst
    cases heq
    rw [rest_skipBlanks]
    exact Lexeme.blankLength_ahead false c.rest

/-- That loops and the depth of nesting are bounded makes no difference to reading: each loop goes on for
as long as there is something to repeat, and what stands in brackets is an expression like any other. -/
structure Unbounded : Prop where
  statements : Loops statement
  nested : expr = fallback expr
  branches : Loops (further (operator "||") (alternative expr))
  choices : Loops (further (operator "|") (sequence expr))
  items : Loops (further blanks (item expr))
  units : Loops (unit expr)
  patterns : Loops pattern

theorem unbounded : Unbounded where
  statements := consumes_statement.loops
  nested := expr_eq_fallback
  branches := ((consumes_operator (by decide)).further consumes_expr.alternative).loops
  choices := ((consumes_operator (by decide)).further consumes_expr.sequence).loops
  items := (consumes_blanks.further consumes_expr.item).loops
  units := consumes_expr.unit.loops
  patterns := consumes_pattern.loops

/-- If something is left behind the leading statements and blanks of a text, the cursor counts the line and
the column of a character of the text. -/
theorem statements_place (text : List Char) {statements : List Statement} {stop : Cursor}
    (hread : Repeats statement (skipBlanks ⟨text, 0, 0⟩) statements stop) (hrest : stop.rest ≠ [])
    (last : Text.LastReturn) :
    stop.StandsIn text ∧
      ∃ line, (Text.lines last text)[stop.line]? = some line ∧ stop.column < Text.bytes line := by
  have hplace : stop.StandsIn text := by
    have hstart := (Cursor.standsIn_start text).of_reaches (reaches_skipBlanks _)
    exact hstart.of_reaches (hread.reaches consumes_statement)
  have hblank : Lexeme.blankLength false stop.rest = 0 := by
    apply hread.blankLength_eq_zero
    rw [rest_skipBlanks]
    exact Lexeme.blankLength_ahead false text
  obtain ⟨c, cs, hcons⟩ := List.exists_cons_of_ne_nil hrest
  rw [hcons] at hblank
  obtain ⟨hfeed, hreturn⟩ := Lexeme.not_feed_of_inked (Lexeme.isInked_of_blankLength hblank)
  exact ⟨hplace, hplace.exists_line hcons hfeed hreturn last⟩

/-- Reading on from any number of leading statements gets where reading from the start gets. -/
theorem Repeats.length_many_le {α : Type} {item : Parser α} (h : Consumes item) {start stop : Cursor}
    {items : List α} (hread : Repeats item start items stop) :
    (many item start).2.rest.length ≤ stop.rest.length := by
  rw [hread.many_eq h]
  exact (reaches_many h stop).length_le

end Parser

/-- Reading a grammar comes to an end by itself, not by the bounds that are set for it. It goes on for as
long as there are statements, and no other run of statements gets further. If nothing is left then, the
statements are the grammar. Else the error is at the place where the rest begins, and the line that it names
and shows is a line of the text in which there is a character at the column. This holds whether a carriage
return at the end of the text is kept in the last line or not. -/
theorem Grammar.parse_stops (text : String) (last : Text.LastReturn) : Parser.Unbounded ∧
    ∃ statements stop,
      Parser.Repeats Parser.statement (Parser.skipBlanks ⟨text.toList, 0, 0⟩) statements stop ∧
      (∀ others other,
        Parser.Repeats Parser.statement (Parser.skipBlanks ⟨text.toList, 0, 0⟩) others other →
        stop.rest.length ≤ other.rest.length) ∧
      (stop.rest = [] ∧ Grammar.parse text last = .ok ⟨statements⟩ ∨
        stop.rest ≠ [] ∧ stop.StandsIn text.toList ∧
          ∃ source, Grammar.parse text last = .error ⟨stop.line, stop.column, source⟩ ∧
            (Text.lines last text.toList)[stop.line]? = some source.toList ∧
            stop.column < source.utf8ByteSize) := by
  let start := Parser.skipBlanks ⟨text.toList, 0, 0⟩
  have hread := (Parser.consumes_statement.repeats_many start).1
  refine ⟨Parser.unbounded, _, _, hread, ?_, ?_⟩
  · intro others other hother
    exact hother.length_many_le Parser.consumes_statement
  · by_cases hrest : (Parser.many Parser.statement start).2.rest = []
    · refine .inl ⟨hrest, ?_⟩
      unfold Grammar.parse
      exact if_pos (List.isEmpty_iff.mpr hrest)
    · obtain ⟨hplace, line, hline, hcolumn⟩ := Parser.statements_place text.toList hread hrest last
      refine .inr ⟨hrest, hplace, String.ofList line, ?_, ?_, ?_⟩
      · have hsource :
            ((Text.lines last text.toList)[(Parser.many Parser.statement start).2.line]?).getD [] =
              line := by
          rw [hline, Option.getD_some]
        rw [← hsource]
        unfold Grammar.parse
        exact if_neg (mt List.isEmpty_iff.mp hrest)
      · rw [hline, String.toList_ofList]
      · rw [Text.utf8ByteSize_ofList]
        exact hcolumn

end ShellCompletion
