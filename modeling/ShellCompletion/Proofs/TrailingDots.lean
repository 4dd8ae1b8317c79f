import Mathlib.Data.List.Infix
import ShellCompletion.Proofs.Progress

/-!
# Dots behind a text

What is read of a text can change when dots are put behind it, but only at its end: a literal that reaches
the end takes the dots too, and so does a comment. Names, quoted texts and commands have an end of their own,
so dots behind them make no difference. If the text ends with a closing bracket, then what is read before
the bracket stays as it is, since whatever takes the bracket along with the dots leaves nothing that could
close the group. So a group is read as before, and the dots are left.
-/

namespace ShellCompletion

/-- Three dots. -/
def ellipsis : List Char := ['.', '.', '.']

/-- Behind some of the dots there is no other character. -/
theorem head?_ne_of_dots {cs : List Char} (h : cs <:+ ellipsis) {c : Char} (hc : c ≠ '.') :
    cs.head? ≠ some c := by
  intro hhead
  have hmem : c ∈ ellipsis := h.subset (List.mem_of_head? hhead)
  simp [ellipsis, hc] at hmem

/-- Whether a text ends with a closing bracket. -/
def EndsClosed (cs : List Char) : Prop := cs.getLast? = some ')' ∨ cs.getLast? = some ']'

instance (cs : List Char) : Decidable (EndsClosed cs) := inferInstanceAs (Decidable (_ ∨ _))

theorem EndsClosed.ne_nil {cs : List Char} (h : EndsClosed cs) : cs ≠ [] := by
  rintro rfl
  simp [EndsClosed] at h

/-- What is left of a text that ends with a closing bracket ends with it too, unless nothing is left. -/
theorem EndsClosed.suffix {cs ds : List Char} (h : EndsClosed cs) (hds : ds <:+ cs) (hne : ds ≠ []) :
    EndsClosed ds := by
  obtain ⟨front, rfl⟩ := hds
  rwa [EndsClosed, List.getLast?_append_of_ne_nil front hne] at h

theorem endsClosed_singleton {c : Char} : EndsClosed [c] ↔ c = ')' ∨ c = ']' := by
  simp [EndsClosed]

namespace Lexeme

variable {cs : List Char}

/-! ### Blanks -/

/-- No more blanks are skipped than there are characters. -/
theorem blankLength_le (comment : Bool) (cs : List Char) : blankLength comment cs ≤ cs.length := by
  fun_induction blankLength comment cs <;> grind

/-- More blanks may be skipped if more text follows. -/
theorem blankLength_le_append (comment : Bool) (cs more : List Char) :
    blankLength comment cs ≤ blankLength comment (cs ++ more) := by
  fun_induction blankLength comment cs <;> grind [blankLength]

/-- Blanks that end before the end of the text end there with more text behind it. -/
theorem blankLength_append_of_lt {comment : Bool} (h : blankLength comment cs < cs.length)
    (more : List Char) : blankLength comment (cs ++ more) = blankLength comment cs := by
  fun_induction blankLength comment cs <;> grind [blankLength]

/-- Blanks that take a closing bracket are a comment, which takes the dots behind it as well. -/
theorem blankLength_dotted {comment : Bool} (hcs : EndsClosed cs)
    (h : blankLength comment cs = cs.length) :
    blankLength comment (cs ++ ellipsis) = (cs ++ ellipsis).length := by
  induction cs generalizing comment with
  | nil => exact (hcs.ne_nil rfl).elim
  | cons c cs ih =>
    cases cs with
    | nil =>
      rcases endsClosed_singleton.mp hcs with rfl | rfl <;> revert comment <;> decide
    | cons d ds =>
      -- The bracket is further on, and the rest is read in a comment or outside as before.
      have hcs' : EndsClosed (d :: ds) := hcs.suffix (List.suffix_cons c _) (List.cons_ne_nil d ds)
      grind [blankLength]

/-! ### Lexemes with an end of their own -/

/-- Whether dots behind a text make no difference to a scanner, which stays within the text. -/
structure Closes {α : Type} (scan : List Char → Option (α × ℕ)) : Prop where
  dotted (cs : List Char) : scan (cs ++ ellipsis) = scan cs
  within {cs : List Char} {item : α} {count : ℕ} : scan cs = some (item, count) → count ≤ cs.length

/-- A text without dots begins another one with dots behind it or without. -/
theorem isPrefixOf_dotted {text : List Char} (htext : '.' ∉ text) (cs : List Char) :
    text.isPrefixOf (cs ++ ellipsis) = text.isPrefixOf cs := by
  induction text generalizing cs with
  | nil => simp
  | cons c text ih =>
    obtain ⟨hc, htext⟩ : '.' ≠ c ∧ '.' ∉ text := by simpa using htext
    cases cs with
    | nil => simp [ellipsis, List.isPrefixOf, hc.symm]
    | cons d cs => rw [List.cons_append, List.isPrefixOf_cons_cons, List.isPrefixOf_cons_cons, ih htext]

/-- Dots do not begin before a closing bracket and end behind it. -/
theorem ellipsis_isPrefixOf_dotted (hcs : EndsClosed cs) :
    ellipsis.isPrefixOf (cs ++ ellipsis) = ellipsis.isPrefixOf cs := by
  match cs, hcs with
  | [a], hcs => rcases endsClosed_singleton.mp hcs with rfl | rfl <;> decide
  | [a, b], hcs =>
    have hb : EndsClosed [b] := hcs.suffix (List.suffix_cons a [b]) (List.cons_ne_nil b [])
    rcases endsClosed_singleton.mp hb with rfl | rfl <;> simp [ellipsis, List.isPrefixOf]
  | a :: b :: c :: ds, _ => simp [ellipsis, List.isPrefixOf]

theorem closes_name : Closes name where
  dotted cs := by
    cases cs with
    | nil => decide
    | cons c cs =>
      by_cases hc : c = '<'
      · subst hc
        have hle : (cs.takeWhile (· ≠ '>')).length ≤ cs.length := (List.takeWhile_prefix _).length_le
        simp only [List.cons_append, name]
        rw [List.takeWhile_append]
        by_cases hall : (cs.takeWhile (· ≠ '>')).length = cs.length
        · -- The name is open in both texts.
          rw [if_pos hall, hall]
          simp [ellipsis]
        · have hdrop : (cs.drop (cs.takeWhile (· ≠ '>')).length).isEmpty = false := by
            rw [List.isEmpty_eq_false_iff, ne_eq, List.drop_eq_nil_iff]
            omega
          have hdrop' : ((cs ++ ellipsis).drop (cs.takeWhile (· ≠ '>')).length).isEmpty = false := by
            rw [List.isEmpty_eq_false_iff, ne_eq, List.drop_eq_nil_iff, List.length_append]
            omega
          rw [if_neg hall, hdrop, hdrop']
      · simp [name, hc]
  within {cs item count} h := by
    rw [name.eq_def] at h
    split at h
    · next ds =>
      dsimp only at h
      split at h
      · cases h
      · next hends =>
        cases h
        rw [Bool.or_eq_true, not_or, List.isEmpty_iff (l := ds.drop _), List.drop_eq_nil_iff] at hends
        rw [List.length_cons]
        omega
    · cases h

/-- Dots make no difference to what stands before closing braces. -/
theorem beforeClosing_dotted (cs : List Char) : beforeClosing (cs ++ ellipsis) = beforeClosing cs := by
  induction cs with
  | nil => decide
  | cons c cs ih =>
    rw [List.cons_append, beforeClosing, beforeClosing, ← List.cons_append,
      isPrefixOf_dotted (by decide), ih]

/-- The closing braces follow what stands before them. -/
theorem length_beforeClosing {text : List Char} (h : beforeClosing cs = some text) :
    text.length + 3 ≤ cs.length := by
  induction cs generalizing text with
  | nil => cases h
  | cons c cs ih =>
    rw [beforeClosing] at h
    split at h
    · next hfront =>
      cases h
      exact (List.isPrefixOf_iff_prefix.mp hfront).length_le
    · obtain ⟨others, hothers, rfl⟩ := Option.map_eq_some_iff.mp h
      have hlength := ih hothers
      simp only [List.length_cons]
      omega

theorem closes_command : Closes command where
  dotted cs := by
    rw [command, command, isPrefixOf_dotted (by decide)]
    split
    · next hfront =>
      have hlength : 3 ≤ cs.length := (List.isPrefixOf_iff_prefix.mp hfront).length_le
      rw [List.drop_append_of_le_length hlength, beforeClosing_dotted]
    · rfl
  within {cs item count} h := by
    rw [command] at h
    split at h
    · obtain ⟨text, htext, heq⟩ := Option.map_eq_some_iff.mp h
      cases heq
      have hlength := length_beforeClosing htext
      rw [List.length_drop] at hlength
      omega
    · cases h

/-- Whether what stands between quotes either ends before the end of a text, or takes all of it and dots
behind it too. -/
def EndsOrTakes (vanishing : Bool) (cs : List Char) : Prop :=
  (quotedRun vanishing cs).2 < cs.length ∧ quotedRun vanishing (cs ++ ellipsis) = quotedRun vanishing cs ∨
    (quotedRun vanishing cs).2 = cs.length ∧
      (quotedRun vanishing (cs ++ ellipsis)).2 = (cs ++ ellipsis).length

/-- A run that ends before the dots or takes them does the same behind one step. -/
theorem EndsOrTakes.step {vanishing vanishing' : Bool} (h : EndsOrTakes vanishing' cs)
    (front text : List Char)
    (hstep : ∀ ds, quotedRun vanishing (front ++ ds) =
      (text ++ (quotedRun vanishing' ds).1, (quotedRun vanishing' ds).2 + front.length)) :
    EndsOrTakes vanishing (front ++ cs) := by
  rw [EndsOrTakes, List.append_assoc, hstep, hstep]
  simp only [List.length_append]
  rcases h with ⟨hless, heq⟩ | ⟨hall, hall'⟩
  · exact .inl ⟨by omega, by rw [heq]⟩
  · rw [List.length_append] at hall'
    exact .inr ⟨by omega, by omega⟩

theorem endsOrTakes_of_stop {vanishing : Bool} (hne : cs ≠ []) (h : quotedRun vanishing cs = ([], 0))
    (h' : quotedRun vanishing (cs ++ ellipsis) = ([], 0)) : EndsOrTakes vanishing cs :=
  .inl ⟨by rw [h]; exact List.length_pos_of_ne_nil hne, h'.trans h.symm⟩

/-- A quoted run ends before the end of the text, whatever follows, or it takes the dots behind it
too. -/
theorem endsOrTakes (vanishing : Bool) (cs : List Char) : EndsOrTakes vanishing cs := by
  fun_induction quotedRun vanishing cs with
  | case1 vanishing => cases vanishing <;> exact .inr ⟨rfl, by decide⟩
  | case2 vanishing c cs hspace text count hrun ih =>
    exact ih.step [c] [] fun ds => by
      rw [quotedRun.eq_def]
      simp [hspace]
  | case3 vanishing cs hspace =>
    exact endsOrTakes_of_stop (by simp) (by rw [quotedRun.eq_def]; simp [hspace])
      (by rw [quotedRun.eq_def]; simp [hspace])
  | case4 vanishing hspace hquote => cases vanishing <;> exact endsOrTakes_of_stop (by simp) rfl (by decide)
  | case5 vanishing d ds hescaped text count hrun hspace _ ih =>
    exact ih.step ['\\', d] [d] fun tail => by
      rw [quotedRun.eq_def]
      simp_all
  | case6 vanishing d ds hescaped hd text count hrun hspace _ ih =>
    exact ih.step ['\\', d] [] fun tail => by
      rw [quotedRun.eq_def]
      simp_all
  | case7 vanishing d ds hescaped hd hspace _ =>
    exact endsOrTakes_of_stop (by simp) (by rw [quotedRun.eq_def]; simp_all)
      (by rw [quotedRun.eq_def]; simp_all)
  | case8 vanishing c cs hspace hquote hslash text count hrun ih =>
    exact ih.step [c] [c] fun tail => by
      rw [quotedRun.eq_def]
      simp_all

/-- Dots make no difference to a quoted text, which ends with its quote. -/
theorem closes_quoted : Closes quoted where
  dotted cs := by
    cases cs with
    | nil => decide
    | cons c cs =>
      by_cases hc : c = '"'
      · subst hc
        simp only [List.cons_append, quoted]
        rcases endsOrTakes false cs with ⟨hless, heq⟩ | ⟨hall, hall'⟩
        · have hhead : ((cs ++ ellipsis).drop (quotedRun false cs).2).head? =
              (cs.drop (quotedRun false cs).2).head? := by
            rw [List.drop_append_of_le_length hless.le, List.head?_append_of_ne_nil]
            rw [ne_eq, List.drop_eq_nil_iff]
            omega
          rw [heq, hhead]
        · rw [hall, hall', List.drop_length, List.drop_length]
          rfl
      · simp [quoted, hc]
  within {cs item count} h := by
    rw [quoted.eq_def] at h
    split at h
    · next ds =>
      dsimp only at h
      split at h
      · next hends =>
        cases h
        have hless : (quotedRun false ds).2 < ds.length := by
          by_contra hge
          rw [List.drop_eq_nil_of_le (Nat.le_of_not_lt hge)] at hends
          cases hends
        rw [List.length_cons]
        omega
      · cases h
    · cases h

/-! ### Literals -/

/-- A plain character goes on with a run of them. -/
theorem plainRun_cons {c : Char} (hslash : c ≠ '\\') (hplain : isPlain c = true) (cs : List Char) :
    plainRun (c :: cs) = (plainRun cs).map fun x => (c :: x.1, x.2 + 1) := by
  rw [plainRun.eq_def]
  simp [hslash, hplain]

/-- A run of plain characters either ends before the end of the text, or takes all of it and the dots
too. -/
theorem plainRun_dotted (cs : List Char) :
    (plainRun cs = none ∧ plainRun (cs ++ ellipsis) = none) ∨
      (∃ text count, count < cs.length ∧ plainRun cs = some (text, count) ∧
        plainRun (cs ++ ellipsis) = some (text, count)) ∨
      ∃ text, (cs ≠ [] → text ≠ []) ∧ plainRun cs = some (text, cs.length) ∧
        plainRun (cs ++ ellipsis) = some (text ++ ellipsis, cs.length + 3) := by
  fun_induction plainRun cs with
  | case1 => exact .inr (.inr ⟨[], by simp, rfl, by decide⟩)
  | case2 => exact .inl ⟨rfl, by decide⟩
  | case3 c cs hreserved ih =>
    rcases ih with ⟨hrun, hrun'⟩ | ⟨text, count, hless, hrun, hrun'⟩ | ⟨text, -, hrun, hrun'⟩
    · exact .inl ⟨by rw [hrun]; rfl, by simp [plainRun, hreserved, hrun']⟩
    · refine .inr (.inl ⟨c :: text, count + 2, ?_, by rw [hrun]; rfl, by simp [plainRun, hreserved, hrun']⟩)
      simpa using hless
    · exact .inr (.inr ⟨c :: text, by simp, by rw [hrun]; rfl, by simp [plainRun, hreserved, hrun']⟩)
  | case4 c cs hreserved => exact .inl ⟨rfl, by simp [plainRun, hreserved]⟩
  | case5 c cs hslash hplain ih =>
    rcases ih with ⟨hrun, hrun'⟩ | ⟨text, count, hless, hrun, hrun'⟩ | ⟨text, -, hrun, hrun'⟩
    · exact .inl ⟨by rw [hrun]; rfl, by simp [plainRun_cons hslash hplain, hrun']⟩
    · refine .inr (.inl ⟨c :: text, count + 1, ?_, by rw [hrun]; rfl,
        by simp [plainRun_cons hslash hplain, hrun']⟩)
      simpa using hless
    · exact .inr (.inr ⟨c :: text, by simp, by rw [hrun]; rfl, by simp [plainRun_cons hslash hplain, hrun']⟩)
  | case6 c cs hslash hplain =>
    exact .inr (.inl ⟨[], 0, by simp, rfl, by rw [List.cons_append, plainRun.eq_def]; simp [hslash, hplain]⟩)

/-- A literal either ends before the end of the text, or takes all of it and the dots too. -/
theorem literal_dotted (hcs : cs ≠ []) :
    (literal (cs ++ ellipsis) = literal cs ∧
      ∀ text count, literal cs = some (text, count) → count < cs.length) ∨
      ∃ text, literal cs = some (text, cs.length) ∧
        literal (cs ++ ellipsis) = some (text ++ "...", cs.length + 3) := by
  rcases plainRun_dotted cs with ⟨hrun, hrun'⟩ | ⟨text, count, hless, hrun, hrun'⟩ | ⟨text, hne, hrun, hrun'⟩
  · left
    simp [literal, hrun, hrun']
  · left
    refine ⟨by simp [literal, hrun, hrun'], ?_⟩
    intro text' count' hliteral
    simp only [literal, hrun, Option.bind_eq_bind, Option.bind_some] at hliteral
    split at hliteral <;> cases hliteral
    exact hless
  · right
    refine ⟨String.ofList text, ?_, ?_⟩
    · simp [literal, hrun, hne hcs]
    · have hdots : String.ofList (text ++ ellipsis) = String.ofList text ++ "..." := String.ofList_append
      simp [literal, hrun', hne hcs, hdots]

end Lexeme

namespace Cursor

/-- The same place in a text with dots behind it. -/
def dotted (cursor : Cursor) : Cursor := { cursor with rest := cursor.rest ++ ellipsis }

theorem spanTo_dotted (start stop : Cursor) : start.dotted.spanTo stop.dotted = start.spanTo stop := rfl

/-- An advance within the text is the same with dots behind it. -/
theorem advance_dotted {count : ℕ} {cursor : Cursor} (h : count ≤ cursor.rest.length) :
    cursor.dotted.advance count = (cursor.advance count).dotted := by
  induction count generalizing cursor with
  | zero => rfl
  | succ count ih =>
    obtain ⟨rest, line, column⟩ := cursor
    cases rest with
    | nil => simp at h
    | cons c cs =>
      simp only [dotted, advance, List.cons_append]
      have hcount : count ≤ cs.length := Nat.le_of_succ_le_succ h
      split
      · exact @ih ⟨cs, line + 1, 0⟩ hcount
      · exact @ih ⟨cs, line, column + c.utf8Size⟩ hcount

/-- What is left behind a reading is the end of what there was. -/
theorem Reaches.suffix {start stop : Cursor} (h : start.Reaches stop) : stop.rest <:+ start.rest := by
  obtain ⟨count, rfl⟩ := h
  rw [rest_advance]
  exact List.drop_suffix ..

/-- A text that ends with a closing bracket still does behind a reading, unless nothing is left. -/
theorem Reaches.endsClosed {start stop : Cursor} (h : start.Reaches stop) (hstart : EndsClosed start.rest)
    (hstop : stop.rest ≠ []) : EndsClosed stop.rest := hstart.suffix h.suffix hstop

end Cursor

namespace Parser

variable {α β : Type}

/-! ### What dots leave unchanged -/

/-- Whether a parser reads the same at a place with dots behind the text, and leaves the dots. -/
def Unmoved (parser : Parser α) (cursor : Cursor) : Prop :=
  parser cursor.dotted = (parser cursor).map fun x => (x.1, x.2.dotted)

section

variable {cursor : Cursor}

/-- Dots make no difference to a parser if they make none to its scan. -/
theorem unmoved_ofScan {scan : List Char → Option (α × ℕ)}
    (hscan : scan (cursor.rest ++ ellipsis) = scan cursor.rest)
    (hwithin : ∀ item count, scan cursor.rest = some (item, count) → count ≤ cursor.rest.length) :
    Unmoved (ofScan scan) cursor := by
  have hscan' : scan cursor.dotted.rest = scan cursor.rest := hscan
  rw [Unmoved, ofScan, ofScan, hscan']
  cases hfound : scan cursor.rest with
  | none => rfl
  | some found => simp [Cursor.advance_dotted (hwithin found.1 found.2 hfound)]

/-- Dots make no difference to a parser whose scan ends with a mark of its own. -/
theorem unmoved_of_closes {scan : List Char → Option (α × ℕ)} (hscan : Lexeme.Closes scan)
    (cursor : Cursor) : Unmoved (ofScan scan) cursor :=
  unmoved_ofScan (hscan.dotted cursor.rest) fun _ _ => hscan.within

/-- Dots make no difference to a given text that begins what is left with them or without. -/
theorem unmoved_exactly {text : String}
    (htext : text.toList.isPrefixOf (cursor.rest ++ ellipsis) = text.toList.isPrefixOf cursor.rest) :
    Unmoved (exactly text) cursor := by
  have htext' : text.toList.isPrefixOf cursor.dotted.rest = text.toList.isPrefixOf cursor.rest := htext
  rw [Unmoved, exactly, exactly, htext']
  split
  · next hfront =>
    have hle := (List.isPrefixOf_iff_prefix.mp hfront).length_le
    rw [String.length_toList] at hle
    rw [Cursor.advance_dotted hle]
    rfl
  · rfl

theorem unmoved_of_refuses {parser : Parser α} (h : parser cursor = none)
    (h' : parser cursor.dotted = none) : Unmoved parser cursor := by
  rw [Unmoved, h, h']
  rfl

/-- Dots make no difference to a choice of parsers if they make none to both. -/
theorem Unmoved.orElse {first second : Parser α} (hfirst : Unmoved first cursor)
    (hsecond : Unmoved second cursor) :
    Unmoved (fun cursor => first cursor <|> second cursor) cursor := by
  rw [Unmoved] at *
  rw [hfirst, hsecond]
  cases first cursor <;> rfl

theorem unmoved_reference (cursor : Cursor) : Unmoved reference cursor := by
  have hscan := unmoved_of_closes Lexeme.closes_name cursor
  rw [Unmoved] at *
  rw [reference, reference, hscan]
  cases ofScan Lexeme.name cursor <;> rfl

/-- A scan that takes all of a text leaves nothing of it. -/
theorem ofScan_whole {scan : List Char → Option (α × ℕ)} {item : α}
    (h : scan cursor.rest = some (item, cursor.rest.length)) :
    ∃ last, ofScan scan cursor = some (item, last) ∧ last.rest = [] := by
  rw [← List.append_nil cursor.rest] at h
  obtain ⟨_, last, hread, hlast, rfl⟩ := reads_ofScan (by simpa using h) cursor (List.append_nil _).symm
  exact ⟨last, hread, hlast⟩

/-- A literal is read as without dots, or it takes all of the text and the dots. -/
theorem scanLiteral_dotted (hne : cursor.rest ≠ []) :
    Unmoved (ofScan Lexeme.literal) cursor ∨
      ∃ text last last', ofScan Lexeme.literal cursor = some (text, last) ∧ last.rest = [] ∧
        ofScan Lexeme.literal cursor.dotted = some (text ++ "...", last') ∧ last'.rest = [] := by
  rcases Lexeme.literal_dotted hne with ⟨hscan, hless⟩ | ⟨text, hscan, hscan'⟩
  · exact .inl (unmoved_ofScan hscan fun text count h => (hless text count h).le)
  · obtain ⟨last, hread, hlast⟩ := ofScan_whole hscan
    obtain ⟨last', hread', hlast'⟩ : ∃ last', ofScan Lexeme.literal cursor.dotted =
        some (text ++ "...", last') ∧ last'.rest = [] :=
      ofScan_whole (by simpa [Cursor.dotted, ellipsis] using hscan')
    exact .inr ⟨text, last, last', hread, hlast, hread', hlast'⟩

/-- No pattern is left behind a literal that takes everything. -/
theorem pattern_eq_none {next : Cursor} (hsign : exactly "@" cursor = some ((), next))
    (hends : ∀ x ∈ ofScan Lexeme.literal next, x.2.rest = []) : pattern cursor = none := by
  simp only [pattern, hsign, Option.bind_eq_bind, Option.bind_some]
  cases hliteral : ofScan Lexeme.literal next with
  | none => rfl
  | some x =>
    have hquoted : ofScan Lexeme.quoted x.2 = none := refuses_ofScan rfl x.2 (hends x hliteral)
    simp [hquoted]

theorem unmoved_pattern (cursor : Cursor) : Unmoved pattern cursor := by
  have hsign : Unmoved (exactly "@") cursor := unmoved_exactly (Lexeme.isPrefixOf_dotted (by decide) _)
  rw [Unmoved] at hsign
  cases hfound : exactly "@" cursor with
  | none => simp [Unmoved, pattern, hsign, hfound]
  | some found =>
    obtain ⟨⟨⟩, next⟩ := found
    rw [hfound, Option.map_some] at hsign
    by_cases hne : next.rest = []
    · obtain ⟨last, hread, hlast⟩ : ∃ last, ofScan Lexeme.literal next.dotted = some ("...", last) ∧
          last.rest = [] := by
        have hrest : next.dotted.rest = ellipsis := by rw [Cursor.dotted, hne, List.nil_append]
        refine ofScan_whole ?_
        rw [hrest]
        decide
      have hnone : ofScan Lexeme.literal next = none := refuses_ofScan rfl next hne
      exact unmoved_of_refuses (pattern_eq_none hfound (by simp [hnone]))
        (pattern_eq_none hsign (by simp [hread, hlast]))
    · rcases scanLiteral_dotted hne with hliteral | ⟨text, last, last', hread, hlast, hread', hlast'⟩
      · rw [Unmoved] at *
        simp only [pattern, hsign, hfound, hliteral, Option.bind_eq_bind, Option.bind_some]
        cases ofScan Lexeme.literal next with
        | none => rfl
        | some x =>
          simp only [Option.map_some, Option.bind_some]
          rw [unmoved_of_closes Lexeme.closes_quoted x.2]
          cases Shell.ofGrammarName? x.1 with
          | none => rfl
          | some shell => cases ofScan Lexeme.quoted x.2 <;> rfl
      · exact unmoved_of_refuses (pattern_eq_none hfound (by simp [hread, hlast]))
          (pattern_eq_none hsign (by simp [hread', hlast']))

/-- Dots make no difference to a number of items if they make none to one. -/
theorem many_dotted {item : Parser α} (hitem : Consumes item) (h : ∀ cursor, Unmoved item cursor)
    (cursor : Cursor) : many item cursor.dotted = ((many item cursor).1, (many item cursor).2.dotted) := by
  induction hlength : cursor.rest.length using Nat.strongRecOn generalizing cursor with
  | ind length ih =>
    rw [hitem.loops, hitem.loops cursor, h cursor]
    cases hfound : item cursor with
    | none => rfl
    | some found =>
      have hless := (hitem cursor found.1 found.2 hfound).2
      dsimp only [Option.map_some]
      rw [ih _ (hlength ▸ hless) found.2 rfl]

theorem unmoved_command (cursor : Cursor) : Unmoved command cursor := by
  have hscan := unmoved_of_closes Lexeme.closes_command cursor
  rw [Unmoved] at *
  rw [command, command, hscan]
  cases ofScan Lexeme.command cursor with
  | none => rfl
  | some x =>
    simp only [Option.map_some, Option.bind_eq_bind, Option.bind_some]
    rw [many_dotted consumes_pattern unmoved_pattern]
    rfl

/-- Blanks either end before the end of the text, or only dots are left behind them. -/
theorem skipBlanks_dotted (cursor : Cursor) :
    (skipBlanks cursor).rest ≠ [] ∧ skipBlanks cursor.dotted = (skipBlanks cursor).dotted ∨
      (skipBlanks cursor).rest = [] ∧ (skipBlanks cursor.dotted).rest <:+ ellipsis := by
  rcases (Lexeme.blankLength_le false cursor.rest).lt_or_eq with hlt | heq
  · left
    refine ⟨?_, ?_⟩
    · rw [skipBlanks, Cursor.rest_advance, ne_eq, List.drop_eq_nil_iff]
      omega
    · have hcount : Lexeme.blankLength false cursor.dotted.rest = Lexeme.blankLength false cursor.rest :=
        Lexeme.blankLength_append_of_lt hlt ellipsis
      rw [skipBlanks, skipBlanks, hcount, Cursor.advance_dotted hlt.le]
  · right
    refine ⟨?_, ?_⟩
    · rw [skipBlanks, Cursor.rest_advance, heq, List.drop_length]
    · have hle : cursor.rest.length ≤ Lexeme.blankLength false cursor.dotted.rest :=
        heq ▸ Lexeme.blankLength_le_append false cursor.rest ellipsis
      rw [skipBlanks, Cursor.rest_advance]
      generalize Lexeme.blankLength false cursor.dotted.rest = count at hle
      rw [Cursor.dotted, List.drop_append, List.drop_eq_nil_of_le hle, List.nil_append]
      exact List.drop_suffix ..

theorem unmoved_description (cursor : Cursor) : Unmoved description cursor := by
  rcases skipBlanks_dotted cursor with ⟨-, heq⟩ | ⟨hnil, hdots⟩
  · rw [Unmoved, description, description, heq]
    exact unmoved_of_closes Lexeme.closes_quoted (skipBlanks cursor)
  · refine unmoved_of_refuses (refuses_ofScan rfl (skipBlanks cursor) hnil) ?_
    refine refuses_description ?_ cursor.dotted rfl
    rw [← rest_skipBlanks]
    exact head?_ne_of_dots hdots (by decide)

end

/-! ### Readings of a text that ends with a closing bracket -/

/-- Whether two readings are the same up to dots behind the text, or both are of all the text, the second
one perhaps with some of the dots. -/
inductive Alike : α × Cursor → α × Cursor → Prop
  | same (item : α) {last : Cursor} (hlast : last.rest ≠ []) : Alike (item, last) (item, last.dotted)
  | ended (item item' : α) {last last' : Cursor} (hlast : last.rest = []) (hlast' : last'.rest <:+ ellipsis) :
    Alike (item, last) (item', last')

/-- Whether dots behind a text that ends with a closing bracket change what a parser reads only where it
reads all of the text. -/
def Bears (parser : Parser α) : Prop :=
  ∀ cursor, EndsClosed cursor.rest → Option.Rel Alike (parser cursor) (parser cursor.dotted)

section

variable {parser : Parser α} {cursor : Cursor}

theorem alike_dotted (item : α) (last : Cursor) : Alike (item, last) (item, last.dotted) := by
  by_cases hlast : last.rest = []
  · refine .ended item item hlast ?_
    rw [Cursor.dotted, hlast]
    exact List.suffix_rfl
  · exact .same item hlast

/-- Readings to which dots make no difference are alike. -/
theorem Unmoved.rel (h : Unmoved parser cursor) :
    Option.Rel Alike (parser cursor) (parser cursor.dotted) := by
  rw [Unmoved] at h
  rw [h]
  cases parser cursor with
  | none => exact .none
  | some found => exact .some (alike_dotted found.1 found.2)

/-- With dots behind the text a parser refuses too, or reads the same, or both reach the end of the text. -/
theorem Bears.cases (hparser : Consumes parser) (h : Bears parser) (hcursor : EndsClosed cursor.rest) :
    (parser cursor = none ∧ parser cursor.dotted = none) ∨
      (∃ item last, EndsClosed last.rest ∧ parser cursor = some (item, last) ∧
        parser cursor.dotted = some (item, last.dotted)) ∨
      ∃ item item' last last', last.rest = [] ∧ last'.rest <:+ ellipsis ∧
        parser cursor = some (item, last) ∧ parser cursor.dotted = some (item', last') := by
  have hrel := h cursor hcursor
  generalize hx : parser cursor = x, hy : parser cursor.dotted = y at hrel
  cases hrel with
  | none => exact .inl ⟨rfl, rfl⟩
  | some hrel =>
    cases hrel with
    | same item hlast =>
      have hclosed := (hparser _ _ _ hx).1.endsClosed hcursor hlast
      exact .inr (.inl ⟨item, _, hclosed, rfl, rfl⟩)
    | ended item item' hlast hlast' => exact .inr (.inr ⟨item, item', _, _, hlast, hlast', rfl, rfl⟩)

/-- Readings at the end of a text, with some of the dots or without, are alike. -/
theorem alike_of_reaches {x y : α × Cursor} {last last' : Cursor} (hlast : last.rest = [])
    (hlast' : last'.rest <:+ ellipsis) (hx : last.Reaches x.2) (hy : last'.Reaches y.2) : Alike x y := by
  have hnil := hx.suffix
  rw [hlast, List.suffix_nil] at hnil
  exact .ended x.1 y.1 hnil (hy.suffix.trans hlast')

/-- Readings stay alike in what is made of them, if this is so for what is left of the text. -/
theorem Bears.rel_map (hparser : Consumes parser) (h : Bears parser) (hcursor : EndsClosed cursor.rest)
    {f g : α × Cursor → β × Cursor} (hf : ∀ x : α × Cursor, x.2.Reaches (f x).2)
    (hg : ∀ x : α × Cursor, x.2.Reaches (g x).2)
    (hsame : ∀ item last, EndsClosed last.rest → Alike (f (item, last)) (g (item, last.dotted))) :
    Option.Rel Alike ((parser cursor).map f) ((parser cursor.dotted).map g) := by
  rcases h.cases hparser hcursor with ⟨hread, hread'⟩ | ⟨item, last, hlast, hread, hread'⟩ |
    ⟨item, item', last, last', hlast, hlast', hread, hread'⟩
  · rw [hread, hread']
    exact .none
  · rw [hread, hread']
    exact .some (hsame item last hlast)
  · rw [hread, hread']
    exact .some (alike_of_reaches hlast hlast' (hf (item, last)) (hg (item', last')))

/-- Behind blanks that take the closing bracket nothing is left, with or without dots. -/
theorem skipBlanks_dotted_of_closed (hcursor : EndsClosed cursor.rest) :
    (skipBlanks cursor).rest ≠ [] ∧ skipBlanks cursor.dotted = (skipBlanks cursor).dotted ∨
      (skipBlanks cursor).rest = [] ∧ (skipBlanks cursor.dotted).rest = [] := by
  rcases skipBlanks_dotted cursor with hsame | ⟨hnil, -⟩
  · exact .inl hsame
  · refine .inr ⟨hnil, ?_⟩
    have hall : Lexeme.blankLength false cursor.rest = cursor.rest.length := by
      rw [skipBlanks, Cursor.rest_advance, List.drop_eq_nil_iff] at hnil
      exact (Lexeme.blankLength_le false cursor.rest).antisymm hnil
    rw [skipBlanks, Cursor.rest_advance, Cursor.dotted, Lexeme.blankLength_dotted hcursor hall,
      List.drop_length]

/-- A parser that bears dots still does if blanks are skipped first. -/
theorem Bears.after_blanks (hparser : Consumes parser) (h : Bears parser) :
    Bears fun cursor => parser (skipBlanks cursor) := by
  intro cursor hcursor
  dsimp only
  rcases skipBlanks_dotted_of_closed hcursor with ⟨hne, heq⟩ | ⟨hnil, hnil'⟩
  · rw [heq]
    exact h _ ((reaches_skipBlanks cursor).endsClosed hcursor hne)
  · rw [hparser.eq_none hnil, hparser.eq_none hnil']
    exact .none

/-- A choice of parsers that bear dots bears them. -/
theorem Bears.orElse {first second : Parser α} (hfirst : Bears first) (hsecond : Bears second) :
    Bears fun cursor => first cursor <|> second cursor := by
  intro cursor hcursor
  have hrel := hfirst cursor hcursor
  dsimp only
  generalize first cursor = x, first cursor.dotted = y at hrel
  cases hrel with
  | none => exact hsecond cursor hcursor
  | some hrel => exact .some hrel

/-- Items are read one after the other, alike up to the one that reaches the end of the text. -/
theorem Bears.many (hparser : Consumes parser) (h : Bears parser) (hcursor : EndsClosed cursor.rest) :
    Alike (many parser cursor) (many parser cursor.dotted) := by
  induction hlength : cursor.rest.length using Nat.strongRecOn generalizing cursor with
  | ind length ih =>
    rw [hparser.loops cursor, hparser.loops cursor.dotted]
    rcases h.cases hparser hcursor with ⟨hread, hread'⟩ | ⟨item, last, hlast, hread, hread'⟩ |
      ⟨item, item', last, last', hlast, hlast', hread, hread'⟩
    · rw [hread, hread']
      exact .same [] hcursor.ne_nil
    · rw [hread, hread']
      have hless := (hparser cursor item last hread).2
      have hothers := ih _ (hlength ▸ hless) hlast rfl
      -- The first items are equal, so the others decide whether the loops end alike.
      dsimp only
      generalize Parser.many parser last = x, Parser.many parser last.dotted = y at hothers
      cases hothers with
      | same items hstop => exact .same (item :: items) hstop
      | ended items items' hstop hstop' => exact .ended _ _ hstop hstop'
    · rw [hread, hread']
      exact alike_of_reaches hlast hlast' (reaches_many hparser last) (reaches_many hparser last')

end

end Parser

end ShellCompletion
