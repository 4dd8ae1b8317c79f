import ShellCompletion.Proofs.QuotedTexts

/-!
# String constants of zsh and PowerShell

These two shells get every text in quotes: zsh in double quotes with a backslash before each character
that one quotes there, PowerShell in single quotes with each single quote written twice. A shell reads such
a string from its opening quote up to the first quote that closes it. What it finds is the text, and the
closing quote is the last character that was written, whatever stands behind it in a script. Backslashes
are put in by one pass over the text for each character; since the first pass is the one for backslashes,
none of those that are put in is taken for a character of the text.
-/

namespace ShellCompletion.Quote

/-! ### Escaping in several passes -/

variable {special : List Char}

/-- A further pass leaves what earlier ones wrote as it is, if it is for another character than theirs and
not for backslashes. -/
theorem flatMap_written {c : Char} (hc : c ∉ special) (hbackslash : c ≠ '\\') (d : Char) :
    (written special d).flatMap (written [c]) = written (special ++ [c]) d := by
  by_cases hd : d ∈ special
  · have hne : d ≠ c := ne_of_mem_of_not_mem hd hc
    simp [written, hd, hne, Ne.symm hbackslash]
  · simp [written, hd]

/-- Escaping one more character is escaping it together with the others. -/
theorem escape_escape {c : Char} (hc : c ∉ special) (hbackslash : c ≠ '\\') (text : String) :
    escape [c] (escape special text) = escape (special ++ [c]) text := by
  apply String.toList_inj.mp
  rw [toList_escape, toList_escape, toList_escape, List.flatMap_assoc]
  exact List.flatMap_congr fun d _ => flatMap_written hc hbackslash d

/-- Passes for further characters add up to one for all of them. -/
theorem foldl_escape {others : List Char} (hnodup : (special ++ others).Nodup) (hbackslash : '\\' ∉ others)
    (text : String) : others.foldl (fun text c => escape [c] text) (escape special text) =
      escape (special ++ others) text := by
  induction others generalizing special with
  | nil => rw [List.append_nil, List.foldl_nil]
  | cons c others ih =>
    obtain ⟨hc, hothers⟩ := not_or.mp (mt List.mem_cons.mpr hbackslash)
    have hnew : c ∉ special := fun hmem => (List.nodup_append.mp hnodup).2.2 c hmem c (by simp) rfl
    rw [List.append_cons] at hnodup ⊢
    rw [List.foldl_cons, escape_escape hnew (Ne.symm hc), ih hnodup hothers]

/-- Escaping character by character, backslashes first, is escaping all of them at once. -/
theorem escapeInTurn_eq_escape (hnodup : ('\\' :: special).Nodup) (text : String) :
    escapeInTurn ('\\' :: special) text = escape ('\\' :: special) text :=
  foldl_escape hnodup (List.nodup_cons.mp hnodup).1 text

/-! ### Strings of zsh -/

/-- The characters that a backslash quotes in double quotes of zsh. -/
def zshEscaped : List Char := ['\\', '"', '\x60', '$']

/-- Read a string of zsh behind its opening quote: the text that it stands for, and what is left behind
the first quote that closes it. A backslash before another character stands for itself. A dollar sign or a
backquote begins an expansion, which stands for no fixed text. -/
def closeDouble : List Char → Option (List Char × List Char)
  | [] => none
  | '"' :: rest => some ([], rest)
  | '\\' :: c :: rest => do
    let (text, left) ← closeDouble rest
    return (if c ∈ zshEscaped then c :: text else '\\' :: c :: text, left)
  | c :: rest =>
    if c ∈ zshEscaped then none
    else do
      let (text, left) ← closeDouble rest
      return (c :: text, left)

/-- Read the string of zsh at the front of a script. -/
def readZsh (script : String) : Option (String × String) :=
  match script.toList with
  | '"' :: cs => (closeDouble cs).map fun r => (String.ofList r.1, String.ofList r.2)
  | _ => none

/-- An escaped character is read back before what closes the quotes. -/
theorem closeDouble_written (c : Char) {cs text left : List Char}
    (h : closeDouble cs = some (text, left)) :
    closeDouble (written zshEscaped c ++ cs) = some (c :: text, left) := by
  unfold written
  split
  · next hc =>
    rw [List.cons_append, List.cons_append, List.nil_append, closeDouble.eq_3, h]
    simp [hc]
  · next hc =>
    have hplain : c ≠ '"' ∧ c ≠ '\\' := by
      simp only [zshEscaped, List.mem_cons, not_or] at hc
      exact ⟨hc.2.1, hc.1⟩
    rw [List.cons_append, List.nil_append, closeDouble.eq_4 c cs hplain.1 (fun _ _ h => (hplain.2 h).elim), h]
    simp [hc]

/-- A text that is escaped is read up to the quote behind it. -/
theorem closeDouble_flatMap_written (text rest : List Char) :
    closeDouble (text.flatMap (written zshEscaped) ++ '"' :: rest) = some (text, rest) := by
  induction text with
  | nil => rfl
  | cons c text ih =>
    rw [List.flatMap_cons, List.append_assoc]
    exact closeDouble_written c ih

/-- A text for zsh is read back, whatever follows it. -/
theorem readZsh_zsh (text rest : String) : readZsh (zsh text ++ rest) = some (text, rest) := by
  have hescape : (escapeInTurn zshEscaped text).toList = text.toList.flatMap (written zshEscaped) := by
    rw [zshEscaped, escapeInTurn_eq_escape (by decide), toList_escape]
  have hscript : (zsh text ++ rest).toList =
      '"' :: (text.toList.flatMap (written zshEscaped) ++ '"' :: rest.toList) := by
    rw [← hescape]
    simp [zsh, doubleQuoted, zshEscaped, String.toList_append]
  rw [readZsh, hscript]
  simp [closeDouble_flatMap_written]

/-! ### Strings of PowerShell -/

/-- Read a string of PowerShell behind its opening quote: the text that it stands for, and what is left
behind the first quote that closes it. Two quotes side by side stand for one of the text. -/
def closeSingle : List Char → Option (List Char × List Char)
  | [] => none
  | '\'' :: '\'' :: rest => do
    let (text, left) ← closeSingle rest
    return ('\'' :: text, left)
  | '\'' :: rest => some ([], rest)
  | c :: rest => do
    let (text, left) ← closeSingle rest
    return (c :: text, left)

/-- Read the string of PowerShell at the front of a script. -/
def readPwsh (script : String) : Option (String × String) :=
  match script.toList with
  | '\'' :: cs => (closeSingle cs).map fun r => (String.ofList r.1, String.ofList r.2)
  | _ => none

/-- How one character of a text is written in single quotes. -/
def doubled (c : Char) : List Char := if c = '\'' then ['\'', '\''] else [c]

/-- A doubled quote is read back before what closes the quotes. -/
theorem closeSingle_doubled (c : Char) {cs text left : List Char}
    (h : closeSingle cs = some (text, left)) :
    closeSingle (doubled c ++ cs) = some (c :: text, left) := by
  unfold doubled
  split
  · next hc =>
    rw [List.cons_append, List.cons_append, List.nil_append, closeSingle.eq_2, h, hc]
    rfl
  · next hc =>
    rw [List.cons_append, List.nil_append, closeSingle.eq_4 c cs (fun _ h _ => hc h) hc, h]
    rfl

/-- A text in which quotes are doubled is read up to the quote behind it, if no other one follows. -/
theorem closeSingle_flatMap_doubled (text : List Char) {rest : List Char} (hrest : rest.head? ≠ some '\'') :
    closeSingle (text.flatMap doubled ++ '\'' :: rest) = some (text, rest) := by
  induction text with
  | nil =>
    rw [List.flatMap_nil, List.nil_append, closeSingle.eq_3]
    rintro tail rfl
    exact hrest rfl
  | cons c text ih =>
    rw [List.flatMap_cons, List.append_assoc]
    exact closeSingle_doubled c ih

/-- A text for PowerShell is read back, unless a quote follows it. -/
theorem readPwsh_pwsh (text : String) {rest : String} (hrest : rest.toList.head? ≠ some '\'') :
    readPwsh (pwsh text ++ rest) = some (text, rest) := by
  have hscript : (pwsh text ++ rest).toList =
      '\'' :: (text.toList.flatMap doubled ++ '\'' :: rest.toList) := by
    simp only [pwsh, String.toList_append, String.toList_ofList, List.append_assoc]
    rfl
  rw [readPwsh, hscript]
  simp [closeSingle_flatMap_doubled text.toList hrest]

/-- Every text comes back from zsh and from PowerShell, and its string ends with the last character that
was written for it: what follows is left as it is. For PowerShell another quote must not follow. -/
theorem string_constants_survive (text rest : String) :
    readZsh (zsh text ++ rest) = some (text, rest) ∧
      (rest.toList.head? ≠ some '\'' → readPwsh (pwsh text ++ rest) = some (text, rest)) :=
  ⟨readZsh_zsh text rest, readPwsh_pwsh text⟩

/-- A text with quotes, backslashes and expansions, at the end of a script and before more of it. -/
theorem string_constants_survive_expansions :
    readZsh (zsh "\\\"$(it's)\x60\\" ++ "\"") = some ("\\\"$(it's)\x60\\", "\"") ∧
      "".toList.head? ≠ some '\'' ∧
      readPwsh (pwsh "''\\\"$(it's)'" ++ "") = some ("''\\\"$(it's)'", "") :=
  ⟨(string_constants_survive "\\\"$(it's)\x60\\" "\"").1, by decide,
    (string_constants_survive "''\\\"$(it's)'" "").2 (by decide)⟩

end ShellCompletion.Quote
