import Mathlib.Data.List.Count
import ShellCompletion.Proofs.ShellWords

/-!
# Texts that come back from a shell

Bash and fish get a text with backslashes before a few characters, and with double quotes around it if it
is empty or has a blank in it. In double quotes every text is read back by fish, and by bash every one in
which no backslash stands before a character that it quotes there. Without quotes a text is read back
exactly if it has none of the characters left that have a meaning. To see that every other text is changed
or not read at all, two counts are followed along a line: single quotes are never added, and where none is
taken away there are no more characters in the words than in the text, with one less for each backslash
that is taken for a quoting one.
-/

namespace ShellCompletion

/-- Whether the next character of a line is in single quotes. -/
def Quoting.isSingle : Quoting → Bool
  | .single | .singleEscaped => true
  | _ => false

/-- The backslashes that were read and may still turn out to stand for themselves. -/
def Quoting.owed : Quoting → ℕ
  | .escaped | .doubleEscaped => 1
  | _ => 0

namespace WordRules

variable {rules : WordRules} {quoting last : Quoting} {cs : List Char} {found : List Piece}

/-- A character adds no single quote but itself. -/
theorem step_count {c : Char} (h : rules.step quoting c = some (found, last)) :
    (Piece.chars found).count '\'' ≤ [c].count '\'' := by
  cases quoting <;> simp only [step] at h <;> split_ifs at h <;> cases h <;>
    simp [Piece.chars, List.count_cons]

/-- Reading adds no single quotes. -/
theorem run_count (h : rules.run quoting cs = some (found, last)) :
    (Piece.chars found).count '\'' ≤ cs.count '\'' := by
  induction cs generalizing quoting found with
  | nil =>
    cases h
    simp [Piece.chars]
  | cons c cs ih =>
    obtain ⟨first, next, others, hstep, hrun, rfl⟩ := run_cons_eq_some.mp h
    rw [Piece.chars_append, List.count_append, ← List.singleton_append, List.count_append]
    exact Nat.add_le_add (step_count hstep) (ih hrun)

end WordRules

namespace Quote

open WordRules (run_cons_eq_some run_append_eq_some)

/-- How one character of a text is written. -/
def written (special : List Char) (c : Char) : List Char := if c ∈ special then ['\\', c] else [c]

theorem toList_escape (special : List Char) (text : String) :
    (escape special text).toList = text.toList.flatMap (written special) := String.toList_ofList

variable {rules : WordRules} {special cs : List Char} {quoting last : Quoting} {found : List Piece}

/-- Characters that are read back one by one are read back together. -/
theorem run_written {cs : List Char}
    (h : ∀ c ∈ cs, rules.run quoting (written special c) = some ([.char c], quoting)) :
    rules.run quoting (cs.flatMap (written special)) = some (cs.map .char, quoting) := by
  induction cs with
  | nil => rfl
  | cons c cs ih =>
    rw [List.flatMap_cons, run_append_eq_some]
    exact ⟨_, _, _, h c (by simp), ih fun d hd => h d (by simp [hd]), by simp⟩

/-- Outside of quotes a character is read back if it is escaped or has no meaning. -/
theorem run_bare_written {c : Char} (hescaped : c ∈ special → c ≠ '\n')
    (hplain : c ∉ special → c ∉ ['\\', '"', '\'', ' ', '\t', '\n'] ∧ c ∉ rules.special) :
    rules.run .bare (written special c) = some ([.char c], .bare) := by
  unfold written
  split
  · next hc => simp [WordRules.run, WordRules.step, hescaped hc]
  · next hc =>
    obtain ⟨hc, hspecial⟩ := hplain hc
    simp only [List.mem_cons, List.not_mem_nil, or_false, not_or] at hc
    simp [WordRules.run, WordRules.step, hc, hspecial]

/-- In double quotes a character is read back if it is escaped or has no meaning there. -/
theorem run_double_written {c : Char} (hescaped : c ∈ special → c ∈ rules.inDouble ∧ c ≠ '\n')
    (hplain : c ∉ special → c ∉ ['"', '\\'] ∧ c ∉ rules.expanding) :
    rules.run .double (written special c) = some ([.char c], .double) := by
  unfold written
  split
  · next hc => simp [WordRules.run, WordRules.step, hescaped hc]
  · next hc =>
    obtain ⟨hc, hexpanding⟩ := hplain hc
    simp only [List.mem_cons, List.not_mem_nil, or_false, not_or] at hc
    simp [WordRules.run, WordRules.step, hc, hexpanding]

/-- Escaping neither adds nor removes single quotes. -/
theorem count_written (special cs : List Char) :
    (cs.flatMap (written special)).count '\'' = cs.count '\'' := by
  induction cs with
  | nil => rfl
  | cons c cs ih =>
    rw [List.flatMap_cons, List.count_append, ih, List.count_cons, Nat.add_comm]
    unfold written
    split <;> simp [List.count_cons]

/-- A text that was escaped has no more single quotes when it is read. -/
theorem count_le_of_run_written
    (h : rules.run quoting (cs.flatMap (written special)) = some (found, last)) :
    (Piece.chars found).count '\'' ≤ cs.count '\'' :=
  (count_written special cs).le.trans' (WordRules.run_count h)

/-- A single quote that was taken for a quoting one is not made up for by what follows it. -/
theorem chars_ne_of_single (h : rules.run quoting (cs.flatMap (written special)) = some (found, last)) :
    Piece.chars found ≠ '\'' :: cs := by
  intro heq
  have hcount := count_le_of_run_written h
  rw [heq, List.count_cons_self] at hcount
  exact Nat.not_succ_le_self _ hcount

/-- If characters of one kind are read back one by one and no other one is made up for by what follows it,
a text that is read back has characters of that kind only. -/
theorem forall_of_run_bare {P : Char → Prop}
    (hread : ∀ c ∈ cs, P c → rules.run .bare (written special c) = some ([.char c], .bare))
    (hlost : ∀ c, ¬ P c → ∀ tail first next others,
      rules.run .bare (written special c) = some (first, next) →
      rules.run next (tail.flatMap (written special)) = some (others, .bare) →
      Piece.chars (first ++ others) ≠ c :: tail)
    (h : rules.run .bare (cs.flatMap (written special)) = some (found, .bare))
    (hfound : Piece.chars found = cs) : ∀ c ∈ cs, P c := by
  induction cs generalizing found with
  | nil => simp
  | cons c cs ih =>
    rw [List.flatMap_cons, run_append_eq_some] at h
    obtain ⟨first, next, others, hfirst, hothers, rfl⟩ := h
    by_cases hc : P c
    · rw [hread c (by simp) hc] at hfirst
      cases hfirst
      rw [Piece.chars_append] at hfound
      have hcs := ih (fun d hd => hread d (by simp [hd])) hothers (List.cons.inj hfound).2
      exact List.forall_mem_cons.mpr ⟨hc, hcs⟩
    · exact (hlost c hc cs first next others hfirst hothers hfound).elim

/-! ### Texts that bash changes -/

/-- The characters before which a text for bash gets a backslash. -/
def bashEscaped : List Char := ['"', '\x60', '$']

/-- Outside of single quotes a character of a text opens them, or it adds at most one character to the
words, those apart that are owed. -/
theorem length_written {c : Char} (hquoting : quoting.isSingle = false)
    (h : WordRules.bash.run quoting (written bashEscaped c) = some (found, last)) :
    (Piece.chars found).count '\'' < [c].count '\'' ∨
      last.isSingle = false ∧ (Piece.chars found).length + last.owed ≤ 1 + quoting.owed := by
  unfold written at h
  split at h
  · next hc =>
    simp only [bashEscaped, List.mem_cons, List.not_mem_nil, or_false] at hc
    rcases hc with rfl | rfl | rfl <;> cases quoting <;>
      simp +decide [WordRules.run, WordRules.step, WordRules.bash] at h hquoting <;>
      obtain ⟨rfl, rfl⟩ := h <;> simp [Piece.chars, Quoting.owed, Quoting.isSingle]
  · obtain ⟨first, next, others, hstep, hrun, rfl⟩ := run_cons_eq_some.mp h
    cases hrun
    cases quoting <;> simp only [WordRules.step] at hstep <;> split_ifs at hstep <;> cases hstep <;>
      simp_all [Piece.chars, Quoting.isSingle, Quoting.owed]

/-- A backslash that is taken for a quoting one is lost. -/
theorem length_written_of_quoted {c : Char}
    (hquoted : quoting = .escaped ∨ quoting = .doubleEscaped ∧ c ∈ WordRules.bash.inDouble)
    (h : WordRules.bash.run quoting (written bashEscaped c) = some (found, last)) :
    last.isSingle = false ∧ (Piece.chars found).length + last.owed ≤ 1 := by
  unfold written at h
  split at h
  · next hc =>
    simp only [bashEscaped, List.mem_cons, List.not_mem_nil, or_false] at hc
    rcases hc with rfl | rfl | rfl <;> rcases hquoted with rfl | ⟨rfl, -⟩ <;>
      simp +decide [WordRules.run, WordRules.step, WordRules.bash] at h <;>
      obtain ⟨rfl, rfl⟩ := h <;> simp [Piece.chars, Quoting.owed, Quoting.isSingle]
  · obtain ⟨first, next, others, hstep, hrun, rfl⟩ := run_cons_eq_some.mp h
    cases hrun
    rcases hquoted with rfl | ⟨rfl, hc⟩
    · rw [WordRules.step] at hstep
      split at hstep <;> cases hstep <;> simp [Piece.chars, Quoting.owed, Quoting.isSingle]
    · rw [WordRules.step, if_pos hc] at hstep
      split at hstep <;> cases hstep <;> simp [Piece.chars, Quoting.owed, Quoting.isSingle]

/-- Either single quotes are missing from the words of a text, or they have at most the characters of the
text and those that are owed. -/
theorem length_run_written (hquoting : quoting.isSingle = false)
    (h : WordRules.bash.run quoting (cs.flatMap (written bashEscaped)) = some (found, last)) :
    (Piece.chars found).count '\'' < cs.count '\'' ∨
      (Piece.chars found).length + last.owed ≤ cs.length + quoting.owed := by
  induction cs generalizing quoting found with
  | nil =>
    cases h
    simp [Piece.chars]
  | cons c cs ih =>
    rw [List.flatMap_cons, run_append_eq_some] at h
    obtain ⟨first, next, others, hfirst, hothers, rfl⟩ := h
    have hcount : (Piece.chars first).count '\'' ≤ [c].count '\'' :=
      count_le_of_run_written (by simpa using hfirst)
    have hcounts := count_le_of_run_written hothers
    rw [Piece.chars_append, List.count_append, List.length_append, List.length_cons,
      ← List.singleton_append, List.count_append]
    rcases length_written hquoting hfirst with hfewer | ⟨hnext, hlength⟩
    · omega
    · rcases ih hnext hothers with hfewer | hlengths <;> omega

/-- A text is not read back if a backslash is taken for a quoting one, whatever small rest is added to
it. -/
theorem chars_ne_of_quoted {c : Char} (rest : List Char)
    (hquoted : quoting = .escaped ∨ quoting = .doubleEscaped ∧ c ∈ WordRules.bash.inDouble)
    (h : WordRules.bash.run quoting ((c :: cs).flatMap (written bashEscaped)) = some (found, last))
    (hrest : rest.length ≤ last.owed) (hquotes : rest.count '\'' = 0) :
    Piece.chars found ++ rest ≠ '\\' :: c :: cs := by
  intro heq
  rw [List.flatMap_cons, run_append_eq_some] at h
  obtain ⟨first, next, others, hfirst, hothers, rfl⟩ := h
  obtain ⟨hnext, hlength⟩ := length_written_of_quoted hquoted hfirst
  have hcount : (Piece.chars first).count '\'' ≤ [c].count '\'' :=
    count_le_of_run_written (by simpa using hfirst)
  have hlengths := congrArg List.length heq
  have hcounts := congrArg (List.count '\'') heq
  simp only [Piece.chars_append, List.length_append, List.count_append, List.length_cons] at hlengths hcounts
  rw [List.count_cons_of_ne (by decide), ← List.singleton_append, List.count_append] at hcounts
  rcases length_run_written hnext hothers with hfewer | hfewer <;> omega

/-- The characters that a text for bash must not have if there are no quotes around it. -/
def bashExposed : List Char := ['\\', '\'', ';', '&', '|', '(', ')', '<', '>']

/-- Outside of quotes bash reads back every character that is neither blank nor exposed. -/
theorem run_bare_bash {c : Char} (hblank : c ∉ [' ', '\t', '\n']) (hsafe : c ∉ bashExposed) :
    WordRules.bash.run .bare (written bashEscaped c) = some ([.char c], .bare) := by
  apply run_bare_written <;> intro hc <;>
    simp_all [bashEscaped, bashExposed, WordRules.bash]

/-- Without quotes, what follows a character that is not safe does not make up for it. -/
theorem chars_ne_of_exposed_bash {c : Char} (hexposed : ¬ c ∉ bashExposed) (tail : List Char)
    (first : List Piece) (next : Quoting) (others : List Piece)
    (hfirst : WordRules.bash.run .bare (written bashEscaped c) = some (first, next))
    (hothers : WordRules.bash.run next (tail.flatMap (written bashEscaped)) = some (others, .bare)) :
    Piece.chars (first ++ others) ≠ c :: tail := by
  simp only [bashExposed, List.mem_cons, List.not_mem_nil, or_false, not_not] at hexposed
  rcases hexposed with rfl | rfl | hspecial
  · obtain ⟨rfl, rfl⟩ : [] = first ∧ Quoting.escaped = next := by
      simpa [written, bashEscaped, WordRules.run, WordRules.step] using hfirst
    cases tail with
    | nil => cases hothers
    | cons d tail =>
      have hne := chars_ne_of_quoted [] (.inl rfl) hothers (Nat.zero_le _) rfl
      rwa [List.append_nil] at hne
  · obtain ⟨rfl, rfl⟩ : [.mark] = first ∧ Quoting.single = next := by
      simpa [written, bashEscaped, WordRules.run, WordRules.step] using hfirst
    change Piece.chars others ≠ '\'' :: tail
    exact chars_ne_of_single hothers
  · rcases hspecial with rfl | rfl | rfl | rfl | rfl | rfl | rfl <;>
      simp +decide [written, WordRules.run, WordRules.step, WordRules.bash] at hfirst

/-- Whether each backslash of a text is followed by a character that it does not quote in double quotes of
bash. -/
def KeepsBackslashes (cs : List Char) : Prop :=
  ∀ tail, '\\' :: tail <:+ cs → ∃ c ∈ tail.head?, c ∉ WordRules.bash.inDouble

/-- Backslashes are kept if the first one is and the others are. -/
theorem keepsBackslashes_cons {c : Char} : KeepsBackslashes (c :: cs) ↔
    (c = '\\' → ∃ d ∈ cs.head?, d ∉ WordRules.bash.inDouble) ∧ KeepsBackslashes cs := by
  constructor
  · intro h
    refine ⟨fun hc => h cs ?_, fun tail htail => h tail (htail.trans (List.suffix_cons ..))⟩
    rw [hc]
  · rintro ⟨hc, hcs⟩ tail htail
    rcases List.suffix_cons_iff.mp htail with heq | htail
    · cases heq
      exact hc rfl
    · exact hcs tail htail

/-- In double quotes bash reads back every character but a backslash. -/
theorem run_double_bash {c : Char} (hc : c ≠ '\\') :
    WordRules.bash.run .double (written bashEscaped c) = some ([.char c], .double) := by
  apply run_double_written <;> intro hescaped <;> simp_all [bashEscaped, WordRules.bash]
  rcases hescaped with rfl | rfl | rfl <;> decide

/-- In double quotes bash reads back a backslash before a character that it does not quote. -/
theorem run_doubleEscaped_bash {c : Char} (hc : c ∉ WordRules.bash.inDouble) :
    WordRules.bash.run .doubleEscaped (written bashEscaped c) =
      some ([.char '\\', .char c], .double) := by
  have hplain : c ∉ bashEscaped := by
    simp_all [bashEscaped, WordRules.bash]
  simp [written, hplain, WordRules.run, WordRules.step, hc]

/-- In double quotes bash reads a text back in which each backslash is kept. -/
theorem KeepsBackslashes.run_double (h : KeepsBackslashes cs) :
    WordRules.bash.run .double (cs.flatMap (written bashEscaped)) = some (cs.map .char, .double) ∧
      ((∃ c ∈ cs.head?, c ∉ WordRules.bash.inDouble) →
        WordRules.bash.run .doubleEscaped (cs.flatMap (written bashEscaped)) =
          some (.char '\\' :: cs.map .char, .double)) := by
  induction cs with
  | nil => exact ⟨rfl, by simp⟩
  | cons c cs ih =>
    obtain ⟨hc, hcs⟩ := keepsBackslashes_cons.mp h
    obtain ⟨hdouble, hescaped⟩ := ih hcs
    simp only [List.flatMap_cons, run_append_eq_some]
    constructor
    · by_cases hbackslash : c = '\\'
      · subst hbackslash
        exact ⟨[], .doubleEscaped, _, by decide, hescaped (hc rfl), rfl⟩
      · exact ⟨_, _, _, run_double_bash hbackslash, hdouble, rfl⟩
    · rintro ⟨d, ⟨⟩, hd⟩
      exact ⟨_, _, _, run_doubleEscaped_bash hd, hdouble, rfl⟩

/-- A closing quote adds nothing to the words but a quote that a backslash before it was owed to. -/
theorem length_closing (h : WordRules.bash.run quoting ['"'] = some (found, .bare)) :
    (Piece.chars found).length ≤ quoting.owed ∧ (Piece.chars found).count '\'' = 0 := by
  cases quoting <;> simp +decide [WordRules.run, WordRules.step] at h <;>
    subst h <;> simp [Piece.chars, Quoting.owed]

/-- What bash reads back in double quotes keeps each of its backslashes. -/
theorem keepsBackslashes_of_run_double
    (h : WordRules.bash.run .double (cs.flatMap (written bashEscaped) ++ ['"']) = some (found, .bare))
    (hfound : Piece.chars found = cs) : KeepsBackslashes cs := by
  induction cs generalizing found with
  | nil =>
    intro tail htail
    simp at htail
  | cons c cs ih =>
    rw [List.flatMap_cons, List.append_assoc, run_append_eq_some] at h
    obtain ⟨first, next, others, hfirst, hothers, rfl⟩ := h
    rw [Piece.chars_append] at hfound
    rw [keepsBackslashes_cons]
    by_cases hc : c = '\\'
    · subst hc
      obtain ⟨rfl, rfl⟩ : [] = first ∧ Quoting.doubleEscaped = next := by
        simpa [written, bashEscaped, WordRules.run, WordRules.step] using hfirst
      cases cs with
      | nil => simp +decide [WordRules.run, WordRules.step, WordRules.bash] at hothers
      | cons d cs =>
        by_cases hd : d ∈ WordRules.bash.inDouble
        · obtain ⟨middle, place, rest, hmiddle, hrest, rfl⟩ := run_append_eq_some.mp hothers
          obtain ⟨hlength, hquotes⟩ := length_closing hrest
          rw [Piece.chars_append] at hfound
          exact (chars_ne_of_quoted _ (.inr ⟨rfl, hd⟩) hmiddle hlength hquotes hfound).elim
        · rw [List.flatMap_cons, List.append_assoc, run_append_eq_some] at hothers
          obtain ⟨pair, place, rest, hpair, hrest, rfl⟩ := hothers
          rw [run_doubleEscaped_bash hd] at hpair
          cases hpair
          rw [Piece.chars_append] at hfound
          refine ⟨fun _ => ⟨d, rfl, hd⟩, @ih (.char d :: rest) ?_ (List.cons.inj hfound).2⟩
          have hne : d ≠ '\\' := by
            rintro rfl
            exact hd (by decide)
          rw [List.flatMap_cons, List.append_assoc]
          exact run_append_eq_some.mpr ⟨_, _, _, run_double_bash hne, hrest, rfl⟩
    · rw [run_double_bash hc] at hfirst
      cases hfirst
      exact ⟨fun heq => (hc heq).elim, ih hothers (List.cons.inj hfound).2⟩

/-! ### Texts that fish changes -/

/-- The characters before which a text for fish gets a backslash. -/
def fishEscaped : List Char := ['\\', '"', '$']

/-- The characters that a text for fish must not have if there are no quotes around it. -/
def fishExposed : List Char := ['\'', ';', '&', '(', ')', '<', '>', '#']

/-- Outside of quotes fish reads back every character that is neither blank nor exposed. -/
theorem run_bare_fish {c : Char} (hblank : c ∉ [' ', '\t', '\n', '|']) (hsafe : c ∉ fishExposed) :
    WordRules.fish.run .bare (written fishEscaped c) = some ([.char c], .bare) := by
  apply run_bare_written <;> intro hc <;>
    simp_all [fishEscaped, fishExposed, WordRules.fish]

/-- In double quotes fish reads back every character. -/
theorem run_double_fish (c : Char) :
    WordRules.fish.run .double (written fishEscaped c) = some ([.char c], .double) := by
  apply run_double_written <;> intro hc <;> simp_all [fishEscaped, WordRules.fish]
  rcases hc with rfl | rfl | rfl <;> decide

/-- An exposed character is not made up for by what follows it. -/
theorem chars_ne_of_exposed_fish {c : Char} (hexposed : ¬ c ∉ fishExposed) (tail : List Char)
    (first : List Piece) (next : Quoting) (others : List Piece)
    (hfirst : WordRules.fish.run .bare (written fishEscaped c) = some (first, next))
    (hothers : WordRules.fish.run next (tail.flatMap (written fishEscaped)) = some (others, .bare)) :
    Piece.chars (first ++ others) ≠ c :: tail := by
  simp only [fishExposed, List.mem_cons, List.not_mem_nil, or_false, not_not] at hexposed
  rcases hexposed with rfl | hspecial
  · obtain ⟨rfl, rfl⟩ : [.mark] = first ∧ Quoting.single = next := by
      simpa [written, fishEscaped, WordRules.run, WordRules.step] using hfirst
    change Piece.chars others ≠ '\'' :: tail
    exact chars_ne_of_single hothers
  · rcases hspecial with rfl | rfl | rfl | rfl | rfl | rfl | rfl <;>
      simp +decide [written, WordRules.run, WordRules.step, WordRules.fish] at hfirst

/-! ### Whole texts -/

section

variable {blanks : List Char} {text : String}

/-- Quotes are needed for an empty text and for one with a blank in it. -/
theorem needs_quotes_iff (blanks : List Char) (text : String) :
    (text.isEmpty || text.toList.any (· ∈ blanks)) = true ↔
      text.toList = [] ∨ ∃ c ∈ text.toList, c ∈ blanks := by
  simp only [Bool.or_eq_true, String.isEmpty_iff, String.toList_eq_nil_iff, List.any_eq_true,
    decide_eq_true_eq]

/-- A text that needs quotes is written between them. -/
theorem toList_whereNeeded_of_quoted (h : text.toList = [] ∨ ∃ c ∈ text.toList, c ∈ blanks)
    (special : List Char) : (whereNeeded blanks special text).toList =
      '"' :: (text.toList.flatMap (written special) ++ ['"']) := by
  rw [whereNeeded, if_pos ((needs_quotes_iff blanks text).mpr h)]
  simp [doubleQuoted, toList_escape, String.toList_append]

/-- A text that needs no quotes is written without them. -/
theorem toList_whereNeeded_of_plain (h : ¬ (text.toList = [] ∨ ∃ c ∈ text.toList, c ∈ blanks))
    (special : List Char) : (whereNeeded blanks special text).toList =
      text.toList.flatMap (written special) := by
  rw [whereNeeded, if_neg (mt (needs_quotes_iff blanks text).mp h), toList_escape]

/-- A single word is made of the characters that were found. -/
theorem chars_eq_of_gather (h : [text] = (Piece.gather none found).map String.ofList) :
    Piece.chars found = text.toList := by
  have hflat := Piece.flatten_gather none found
  obtain ⟨word, hword, rfl⟩ := List.map_eq_singleton_iff.mp h.symm
  rw [hword] at hflat
  simpa using hflat.symm

/-- If a text that needs quotes is read back, it is read between them. -/
theorem exists_run_double (hquoted : text.toList = [] ∨ ∃ c ∈ text.toList, c ∈ blanks)
    (h : rules.read (whereNeeded blanks special text) = some [text]) :
    ∃ found, rules.run .double (text.toList.flatMap (written special) ++ ['"']) = some (found, .bare) ∧
      Piece.chars found = text.toList := by
  obtain ⟨found, hrun, hwords⟩ := WordRules.read_eq_some.mp h
  rw [toList_whereNeeded_of_quoted hquoted, run_cons_eq_some] at hrun
  obtain ⟨first, next, others, hstep, hrun, rfl⟩ := hrun
  obtain ⟨rfl, rfl⟩ : [.mark] = first ∧ Quoting.double = next := by simpa [WordRules.step] using hstep
  have hchars := chars_eq_of_gather hwords
  exact ⟨others, hrun, hchars⟩

/-- A text that needs quotes is read back if its characters are, between them. -/
theorem read_of_run_double (hquoted : text.toList = [] ∨ ∃ c ∈ text.toList, c ∈ blanks)
    (h : rules.run .double (text.toList.flatMap (written special)) =
      some (text.toList.map .char, .double)) :
    rules.read (whereNeeded blanks special text) = some [text] := by
  refine WordRules.read_double ?_ h
  rw [toList_whereNeeded_of_quoted hquoted]

/-- If a text that needs no quotes is read back, it is read without them. -/
theorem exists_run_bare (hplain : ¬ (text.toList = [] ∨ ∃ c ∈ text.toList, c ∈ blanks))
    (h : rules.read (whereNeeded blanks special text) = some [text]) :
    ∃ found, rules.run .bare (text.toList.flatMap (written special)) = some (found, .bare) ∧
      Piece.chars found = text.toList := by
  obtain ⟨found, hrun, hwords⟩ := WordRules.read_eq_some.mp h
  rw [toList_whereNeeded_of_plain hplain] at hrun
  exact ⟨found, hrun, chars_eq_of_gather hwords⟩

/-- A text that needs no quotes is read back if its characters are. -/
theorem read_of_run_bare (hplain : ¬ (text.toList = [] ∨ ∃ c ∈ text.toList, c ∈ blanks))
    (h : rules.run .bare (text.toList.flatMap (written special)) =
      some (text.toList.map .char, .bare)) :
    rules.read (whereNeeded blanks special text) = some [text] := by
  apply WordRules.read_bare (not_or.mp hplain).1
  rw [toList_whereNeeded_of_plain hplain, h]

end

/-- Bash reads a text with blanks back if each of its backslashes is kept, and one without blanks if all of
its characters are safe. -/
theorem read_bash_iff (text : String) : WordRules.bash.read (bash text) = some [text] ↔
    (∃ c ∈ text.toList, c ∈ [' ', '\t', '\n']) ∧ KeepsBackslashes text.toList ∨
      ∀ c ∈ text.toList, c ∉ [' ', '\t', '\n'] ∧ c ∉ bashExposed := by
  by_cases hquoted : text.toList = [] ∨ ∃ c ∈ text.toList, c ∈ [' ', '\t', '\n']
  · constructor
    · intro h
      rcases hquoted with hempty | hblank
      · exact .inr (by simp [hempty])
      · obtain ⟨found, hrun, hfound⟩ := exists_run_double (.inr hblank) h
        exact .inl ⟨hblank, keepsBackslashes_of_run_double hrun hfound⟩
    · intro h
      refine read_of_run_double hquoted (KeepsBackslashes.run_double ?_).1
      rcases h with ⟨-, hkeeps⟩ | hsafe
      · exact hkeeps
      · rcases hquoted with hempty | ⟨c, hc, hblank⟩
        · rw [hempty]
          intro tail htail
          simp at htail
        · exact absurd hblank (hsafe c hc).1
  · have hblank : ∀ c ∈ text.toList, c ∉ [' ', '\t', '\n'] := fun c hc hmem =>
      hquoted (.inr ⟨c, hc, hmem⟩)
    constructor
    · intro h
      obtain ⟨found, hrun, hfound⟩ := exists_run_bare hquoted h
      have hsafe := forall_of_run_bare (fun c hc => run_bare_bash (hblank c hc))
        (fun c => chars_ne_of_exposed_bash) hrun hfound
      exact .inr fun c hc => ⟨hblank c hc, hsafe c hc⟩
    · rintro (⟨hsome, -⟩ | hsafe)
      · exact (hquoted (.inr hsome)).elim
      · exact read_of_run_bare hquoted
          (run_written fun c hc => run_bare_bash (hblank c hc) (hsafe c hc).2)

/-- Fish reads every text back that has a blank or a bar, and else one whose characters are all safe. -/
theorem read_fish_iff (text : String) : WordRules.fish.read (fish text) = some [text] ↔
    (∃ c ∈ text.toList, c ∈ [' ', '\t', '\n', '|']) ∨ ∀ c ∈ text.toList, c ∉ fishExposed := by
  by_cases hquoted : text.toList = [] ∨ ∃ c ∈ text.toList, c ∈ [' ', '\t', '\n', '|']
  · refine iff_of_true (read_of_run_double hquoted (run_written fun c _ => run_double_fish c)) ?_
    rcases hquoted with hempty | hblank
    · exact .inr (by simp [hempty])
    · exact .inl hblank
  · have hblank : ∀ c ∈ text.toList, c ∉ [' ', '\t', '\n', '|'] := fun c hc hmem =>
      hquoted (.inr ⟨c, hc, hmem⟩)
    constructor
    · intro h
      obtain ⟨found, hrun, hfound⟩ := exists_run_bare hquoted h
      exact .inr (forall_of_run_bare (fun c hc => run_bare_fish (hblank c hc))
        (fun c => chars_ne_of_exposed_fish) hrun hfound)
    · rintro (hsome | hsafe)
      · exact (hquoted (.inr hsome)).elim
      · exact read_of_run_bare hquoted
          (run_written fun c hc => run_bare_fish (hblank c hc) (hsafe c hc))

/-- Which texts come back from bash and from fish as the one word that they were. -/
theorem comes_back_iff (text : String) :
    (WordRules.bash.read (bash text) = some [text] ↔
      (∃ c ∈ text.toList, c ∈ [' ', '\t', '\n']) ∧ KeepsBackslashes text.toList ∨
        ∀ c ∈ text.toList, c ∉ [' ', '\t', '\n'] ∧ c ∉ bashExposed) ∧
    (WordRules.fish.read (fish text) = some [text] ↔
      (∃ c ∈ text.toList, c ∈ [' ', '\t', '\n', '|']) ∨ ∀ c ∈ text.toList, c ∉ fishExposed) :=
  ⟨read_bash_iff text, read_fish_iff text⟩

/-- A semicolon ends the word that it stands in, and a backslash vanishes in bash. -/
theorem not_comes_back_semicolon :
    WordRules.bash.read (bash "a;b") = none ∧ WordRules.fish.read (fish "a;b") = none ∧
      WordRules.bash.read (bash "a\\b") = some ["ab"] := by
  decide +kernel

end Quote

end ShellCompletion
