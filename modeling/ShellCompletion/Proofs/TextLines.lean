import Mathlib.Data.List.Forall2
import Mathlib.Data.List.Infix
import Mathlib.Data.Nat.Notation
import ShellCompletion.Text.Lines

/-!
# Pieces between line feeds

A text in which every line is ended is split off piece by piece from what follows it, and it has as many
pieces as line feeds. The piece that begins a text goes up to its first line feed. The lines of a text are
its pieces, some of them without the carriage return at their end.
-/

namespace ShellCompletion

namespace Text

/-- The pieces of a text that line feeds end, and what stands behind the last line feed if that is not
empty. -/
def pieces : List Char → List (List Char)
  | [] => []
  | c :: cs =>
    if c = '\n' then [] :: pieces cs
    else
      match pieces cs with
      | [] => [[c]]
      | piece :: later => (c :: piece) :: later

/-- The bytes of a string are those of its characters. -/
theorem utf8ByteSize_ofList (cs : List Char) : (String.ofList cs).utf8ByteSize = bytes cs := by
  induction cs with
  | nil => rfl
  | cons c cs ih =>
    rw [← List.singleton_append, String.ofList_append, String.utf8ByteSize_append, ih, bytes_append,
      ← String.singleton_eq_ofList, String.utf8ByteSize_singleton, bytes, bytes, Nat.add_zero]

/-- Whether no line is begun and not ended. -/
def EndsLine (cs : List Char) : Prop := cs = [] ∨ cs.getLast? = some '\n'

/-- A line feed ends a line. -/
theorem endsLine_append_feed (cs : List Char) : EndsLine (cs ++ ['\n']) := by
  right
  simp

/-- What ends with a line still does without its first character, unless nothing is left. -/
theorem EndsLine.of_cons {c : Char} {cs : List Char} (h : EndsLine (c :: cs)) (hne : cs ≠ []) :
    EndsLine cs := by
  rcases h with h | h
  · cases h
  · rw [List.getLast?_cons_of_ne_nil hne] at h
    exact .inr h

/-- The first piece goes up to the first line feed. -/
theorem exists_pieces {cs : List Char} (h : cs ≠ []) :
    ∃ later, pieces cs = cs.takeWhile (· ≠ '\n') :: later := by
  induction cs with
  | nil => exact (h rfl).elim
  | cons c cs ih =>
    by_cases hc : c = '\n'
    · exact ⟨pieces cs, by simp [pieces, hc]⟩
    · by_cases hne : cs = []
      · exact ⟨[], by simp [pieces, hc, hne]⟩
      · obtain ⟨later, hlater⟩ := ih hne
        exact ⟨later, by simp [pieces, hc, hlater]⟩

/-- A line that is ended is a piece. -/
theorem pieces_line {cs : List Char} (h : '\n' ∉ cs) : pieces (cs ++ ['\n']) = [cs] := by
  induction cs with
  | nil => rfl
  | cons c cs ih =>
    obtain ⟨hc, hcs⟩ := not_or.mp (mt List.mem_cons.mpr h)
    rw [List.cons_append, pieces, if_neg (Ne.symm hc), ih hcs]

/-- Whole lines are split off before what follows them. -/
theorem pieces_append {cs : List Char} (h : EndsLine cs) (ds : List Char) :
    pieces (cs ++ ds) = pieces cs ++ pieces ds := by
  induction cs with
  | nil => rfl
  | cons c cs ih =>
    by_cases hne : cs = []
    · subst hne
      obtain rfl : c = '\n' := by simpa [EndsLine] using h
      simp [pieces]
    · obtain ⟨later, hlater⟩ := exists_pieces hne
      rw [List.cons_append, pieces, pieces, ih (h.of_cons hne), hlater]
      split <;> rfl

/-- There is a piece for each line feed. -/
theorem length_pieces {cs : List Char} (h : EndsLine cs) : (pieces cs).length = cs.count '\n' := by
  induction cs with
  | nil => rfl
  | cons c cs ih =>
    by_cases hne : cs = []
    · subst hne
      obtain rfl : c = '\n' := by simpa [EndsLine] using h
      rfl
    · obtain ⟨later, hlater⟩ := exists_pieces hne
      have hcs := ih (h.of_cons hne)
      rw [hlater, List.length_cons] at hcs
      rw [pieces, hlater, List.count_cons]
      by_cases hc : c = '\n'
      · simp [hc, hcs]
      · simp [hc, hcs]

/-- A line is a piece, or a piece without the carriage return at its end. -/
def LineOf (line piece : List Char) : Prop := piece = line ∨ piece = line ++ ['\r']

/-- There is a line for each piece. -/
theorem forall₂_lines_pieces (last : LastReturn) (cs : List Char) :
    List.Forall₂ LineOf (lines last cs) (pieces cs) := by
  fun_induction lines last cs with
  | case1 => exact .nil
  | case2 cs ih =>
    rw [pieces, if_pos rfl]
    exact .cons (.inl rfl) ih
  | case3 cs ih =>
    rw [pieces, if_neg (by decide), pieces, if_pos rfl]
    exact .cons (.inr rfl) ih
  | case4 => exact .cons (.inl rfl) .nil
  | case5 => exact .cons (.inr rfl) .nil
  | case6 c cs hfeed _ _ hnone ih =>
    rw [hnone, List.forall₂_nil_left_iff] at ih
    rw [pieces, if_neg hfeed, ih]
    exact .cons (.inl rfl) .nil
  | case7 c cs hfeed _ _ line later hsome ih =>
    rw [hsome, List.forall₂_cons_left_iff] at ih
    obtain ⟨piece, others, hpiece, hothers, hpieces⟩ := ih
    rw [pieces, if_neg hfeed, hpieces]
    refine .cons ?_ hothers
    rcases hpiece with rfl | rfl
    · exact .inl rfl
    · exact .inr rfl

/-- A line keeps what stands before its last character, and that one unless it is a carriage return. -/
theorem LineOf.bytes_lt {line cs ds : List Char} {c : Char} (h : LineOf line (cs ++ c :: ds))
    (hc : c ≠ '\r') : bytes cs < bytes line := by
  have hsize := Char.utf8Size_pos c
  have hkept : ∃ es, line = cs ++ c :: es := by
    rcases h with h | h
    · exact ⟨ds, h.symm⟩
    · rcases List.eq_nil_or_concat ds with rfl | ⟨es, d, rfl⟩
      · have hlast : c = '\r' := by simpa using congrArg List.getLast? h
        exact (hc hlast).elim
      · refine ⟨es, ?_⟩
        rw [List.concat_eq_append, ← List.cons_append, ← List.append_assoc] at h
        exact (List.append_inj' h rfl).1.symm
  obtain ⟨es, rfl⟩ := hkept
  rw [bytes_append, bytes]
  omega

/-- The line at the place of a piece. -/
theorem exists_line_of_piece (last : LastReturn) {cs piece : List Char} {k : ℕ}
    (h : (pieces cs)[k]? = some piece) :
    ∃ line, (lines last cs)[k]? = some line ∧ LineOf line piece := by
  have hlines := forall₂_lines_pieces last cs
  obtain ⟨hk, rfl⟩ := List.getElem?_eq_some_iff.mp h
  have hk' : k < (lines last cs).length := by rwa [hlines.length_eq]
  exact ⟨_, List.getElem?_eq_getElem hk', hlines.get hk' hk⟩

end Text

end ShellCompletion
