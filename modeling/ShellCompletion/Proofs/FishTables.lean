import Mathlib.Data.List.DropRight
import ShellCompletion.Proofs.QuotedTexts
import ShellCompletion.Proofs.TextLines
import ShellCompletion.Script.Fish

/-!
# The tables in the text of a fish script

Behind the loop over the words before the cursor a fish script sets variables, one after the other, and then
goes through the fallback levels. The lines from there on are found again in the text of the script, since
there is no user's text in them but the name of the command. In the lines that set variables fish reads the
numbers that were written, each variable is set once, and no other line sets any.
-/

namespace ShellCompletion

/-! ### Numbers as words -/

/-- Numbers are written with digits only. -/
theorem isDigit_of_mem_toString {n : ℕ} {c : Char} (hc : c ∈ (toString n).toList) : c.isDigit = true := by
  rw [Nat.toString_eq_repr, Nat.toList_repr] at hc
  exact Nat.isDigit_of_mem_toDigits (by decide) (by decide) hc

theorem toList_toString_ne_nil (n : ℕ) : (toString n).toList ≠ [] := by
  rw [Nat.toString_eq_repr, Nat.toList_repr]
  exact Nat.toDigits_ne_nil

theorem not_mem_of_isDigit {c : Char} (hc : c.isDigit = true) {cs : List Char}
    (hcs : cs.any Char.isDigit = false) : c ∉ cs := by
  intro hmem
  exact List.any_eq_false.mp hcs c hmem hc

namespace WordRules

/-- Texts that are written as one word each are read back if there are spaces between them. -/
theorem read_spaced {rules : WordRules} {write : String → String} {texts : List String}
    (h : ∀ text ∈ texts, rules.read (write text) = some [text]) :
    rules.read (Script.spaced (texts.map write)) = some texts := by
  induction texts with
  | nil => rfl
  | cons text texts ih =>
    have hfirst := h text (by simp)
    cases texts with
    | nil => simpa [Script.spaced] using hfirst
    | cons other others =>
      have hothers := ih fun t ht => h t (by simp [ht])
      rw [List.map_cons, List.map_cons, Script.spaced, String.intercalate_cons_cons]
      exact read_append_space hfirst hothers

/-- Fish reads characters without a meaning as they are. -/
theorem run_bare_fish_of_plain {cs : List Char}
    (h : ∀ c ∈ cs, c ∉ ['\\', '"', '\'', ' ', '\t', '\n'] ∧ c ∉ fish.special) :
    fish.run .bare cs = some (cs.map .char, .bare) := by
  induction cs with
  | nil => rfl
  | cons c cs ih =>
    obtain ⟨hc, hspecial⟩ := h c (by simp)
    simp only [List.mem_cons, List.not_mem_nil, or_false, not_or] at hc
    refine run_cons_eq_some.mpr ⟨[.char c], .bare, _, ?_, ih fun d hd => h d (by simp [hd]), rfl⟩
    simp [step, hc, hspecial]

/-- In double quotes, characters without a meaning there stand for themselves. -/
theorem run_double_fish_of_plain {cs : List Char} (h : ∀ c ∈ cs, c ∉ ['"', '\\', '$']) :
    fish.run .double cs = some (cs.map .char, .double) := by
  induction cs with
  | nil => rfl
  | cons c cs ih =>
    have hc := h c (by simp)
    simp only [List.mem_cons, List.not_mem_nil, or_false, not_or] at hc
    refine run_cons_eq_some.mpr ⟨[.char c], .double, _, ?_, ih fun d hd => h d (by simp [hd]), rfl⟩
    simp [step, hc, fish]

/-- A number is read back as one word. -/
theorem read_fish_number (n : ℕ) : fish.read (toString n) = some [toString n] := by
  refine read_bare (toList_toString_ne_nil n) (run_bare_fish_of_plain fun c hc => ?_)
  have hdigit := isDigit_of_mem_toString hc
  exact ⟨not_mem_of_isDigit hdigit (by decide), not_mem_of_isDigit hdigit (by decide)⟩

/-- Numbers with spaces between them are read back one by one. -/
theorem read_fish_numbers (numbers : List ℕ) :
    fish.read (Script.spacedNumbers numbers) = some (numbers.map toString) := by
  have hwords : ∀ text ∈ numbers.map toString, fish.read (id text) = some [text] := by
    intro text htext
    obtain ⟨n, -, rfl⟩ := List.mem_map.mp htext
    exact read_fish_number n
  have hread := read_spaced hwords
  rwa [List.map_id] at hread

end WordRules

namespace Script

/-- Joined texts have no characters but those of the texts and of the separator. -/
theorem mem_intercalate {separator : String} {texts : List String} {c : Char}
    (hc : c ∈ (separator.intercalate texts).toList) :
    c ∈ separator.toList ∨ ∃ text ∈ texts, c ∈ text.toList := by
  induction texts with
  | nil => simp at hc
  | cons text texts ih =>
    cases texts with
    | nil => exact .inr ⟨text, by simp, by simpa using hc⟩
    | cons other others =>
      rw [String.intercalate_cons_cons, String.toList_append, String.toList_append] at hc
      rcases List.mem_append.mp hc with hc | hc
      · rcases List.mem_append.mp hc with hc | hc
        · exact .inr ⟨text, by simp, hc⟩
        · exact .inl hc
      · rcases ih hc with hc | ⟨text', htext', hc⟩
        · exact .inl hc
        · exact .inr ⟨text', by simp [htext'], hc⟩

/-- There are only digits and spaces in numbers with spaces between them. -/
theorem mem_spacedNumbers {numbers : List ℕ} {c : Char} (hc : c ∈ (spacedNumbers numbers).toList) :
    c.isDigit = true ∨ c = ' ' := by
  rcases mem_intercalate hc with hc | ⟨text, htext, hc⟩
  · exact .inr (List.mem_singleton.mp hc)
  · obtain ⟨n, -, rfl⟩ := List.mem_map.mp htext
    exact .inl (isDigit_of_mem_toString hc)

/-- Numbers with spaces between them have digits and spaces only. -/
theorem not_mem_spacedNumbers {cs : List Char} (hcs : cs.any Char.isDigit = false) (hspace : ' ' ∉ cs)
    {numbers : List ℕ} {c : Char} (hc : c ∈ (spacedNumbers numbers).toList) : c ∉ cs := by
  rcases mem_spacedNumbers hc with hdigit | rfl
  · exact not_mem_of_isDigit hdigit hcs
  · exact hspace

/-- Fish reads quoted groups of numbers back, one word for each group. -/
theorem read_fish_groups (groups : List (List ℕ)) :
    WordRules.fish.read (spaced (groups.map fun numbers => Quote.doubleQuoted (spacedNumbers numbers))) =
      some (groups.map spacedNumbers) := by
  have hwords : ∀ text ∈ groups.map spacedNumbers,
      WordRules.fish.read (Quote.doubleQuoted text) = some [text] := by
    intro text htext
    obtain ⟨numbers, -, rfl⟩ := List.mem_map.mp htext
    refine WordRules.read_double (by simp [Quote.doubleQuoted])
      (WordRules.run_double_fish_of_plain fun c hc => not_mem_spacedNumbers (by decide) (by decide) hc)
  have hread := WordRules.read_spaced hwords
  rwa [List.map_map] at hread

/-! ### The lines of a script -/

/-- Lines are written one after the other. -/
theorem ofLines_append (lines others : List String) :
    ofLines (lines ++ others) = ofLines lines ++ ofLines others := by
  rw [ofLines, List.map_append, String.join_append]
  rfl

theorem ofLines_cons (line : String) (lines : List String) :
    ofLines (line :: lines) = line ++ "\n" ++ ofLines lines := String.join_cons

/-- What is written line by line ends with a line. -/
theorem endsLine_ofLines (lines : List String) : Text.EndsLine (ofLines lines).toList := by
  rcases List.eq_nil_or_concat lines with rfl | ⟨lines, line, rfl⟩
  · exact .inl rfl
  · have hlast : (ofLines (lines ++ [line])).toList = ((ofLines lines).toList ++ line.toList) ++ ['\n'] := by
      rw [ofLines_append, ofLines_cons]
      simp [ofLines, String.join]
    rw [List.concat_eq_append, hlast]
    exact Text.endsLine_append_feed _

/-- Lines without line feeds are found again in the text. -/
theorem pieces_ofLines {lines : List String} (h : ∀ line ∈ lines, '\n' ∉ line.toList) :
    Text.pieces (ofLines lines).toList = lines.map String.toList := by
  induction lines with
  | nil => rfl
  | cons line lines ih =>
    have hlist : (ofLines (line :: lines)).toList = (line.toList ++ ['\n']) ++ (ofLines lines).toList := by
      rw [ofLines_cons]
      simp
    rw [hlist, Text.pieces_append (Text.endsLine_append_feed _), Text.pieces_line (h line (by simp)),
      ih fun other hother => h other (by simp [hother])]
    rfl

/-! ### Texts without line feeds -/

/-- Whether there is no line feed in a text. -/
def OnOneLine (text : String) : Prop := '\n' ∉ text.toList

instance : DecidablePred OnOneLine := fun text => inferInstanceAs (Decidable ('\n' ∉ text.toList))

theorem onOneLine_ofList {cs : List Char} (h : '\n' ∉ cs) : OnOneLine (String.ofList cs) := by
  rwa [OnOneLine, String.toList_ofList]

theorem OnOneLine.append {text other : String} (h : OnOneLine text) (h' : OnOneLine other) :
    OnOneLine (text ++ other) := by
  rw [OnOneLine, String.toList_append, List.mem_append]
  exact not_or.mpr ⟨h, h'⟩

/-- Texts on one line stay on one line when they are joined. -/
theorem OnOneLine.intercalate {separator : String} {texts : List String} (h : OnOneLine separator)
    (htexts : ∀ text ∈ texts, OnOneLine text) : OnOneLine (separator.intercalate texts) := by
  intro hmem
  rcases mem_intercalate hmem with hmem | ⟨text, htext, hmem⟩
  · exact h hmem
  · exact htexts text htext hmem

theorem onOneLine_toString (n : ℕ) : OnOneLine (toString n) :=
  fun hmem => absurd (isDigit_of_mem_toString hmem) (by decide)

theorem onOneLine_spacedNumbers (numbers : List ℕ) : OnOneLine (spacedNumbers numbers) := by
  refine OnOneLine.intercalate (by decide) fun text htext => ?_
  obtain ⟨n, -, rfl⟩ := List.mem_map.mp htext
  exact onOneLine_toString n

theorem OnOneLine.doubleQuoted {text : String} (h : OnOneLine text) :
    OnOneLine (Quote.doubleQuoted text) :=
  ((by decide : OnOneLine "\"").append h).append (by decide)

/-- Quoting adds no line feed. -/
theorem OnOneLine.quoteFish {text : String} (h : OnOneLine text) : OnOneLine (Quote.fish text) := by
  have hescape : OnOneLine (Quote.escape ['\\', '"', '$'] text) := by
    rw [OnOneLine, Quote.toList_escape]
    intro hmem
    obtain ⟨c, hc, hmem⟩ := List.mem_flatMap.mp hmem
    have hne : c ≠ '\n' := fun heq => h (heq ▸ hc)
    unfold Quote.written at hmem
    split at hmem <;> simp [hne.symm] at hmem
  rw [Quote.fish, Quote.whereNeeded]
  split
  · exact hescape.doubleQuoted
  · exact hescape

/-! ### The variables that are set -/

namespace Fish

/-- The variable of a kind for a level. -/
def variableName (kind : String) (level : ℕ) : String := kind ++ "_level_" ++ toString level

/-- The line that sets the variable of a kind for a level. -/
def tableLine (kind : String) (level : ℕ) (values : String) : String :=
  "    set " ++ variableName kind level ++ " " ++ values

/-- What is set for the tables of all levels: the kind of the variable, the level and the written values.
For each column of the tables there is a variable. -/
def levelEntries {β : Type} (columns : List (String × (Table β → String))) (tables : List (Table β)) :
    List (String × ℕ × String) :=
  tables.zipIdx.flatMap fun entry => columns.map fun column => (column.1, entry.2, column.2 entry.1)

/-- What is set for a level is set from the columns of its table. -/
theorem mem_levelEntries {β : Type} {columns : List (String × (Table β → String))}
    {tables : List (Table β)} {kind values : String} {level : ℕ} :
    (kind, level, values) ∈ levelEntries columns tables ↔
      ∃ table, tables[level]? = some table ∧
        ∃ column ∈ columns, column.1 = kind ∧ column.2 table = values := by
  simp only [levelEntries, List.mem_flatMap, List.mem_map, Prod.exists, List.mk_mem_zipIdx_iff_getElem?,
    Prod.mk.injEq]
  constructor
  · rintro ⟨table, level', htable, name, write, hcolumn, rfl, rfl, rfl⟩
    exact ⟨table, htable, name, write, hcolumn, rfl, rfl⟩
  · rintro ⟨table, htable, name, write, hcolumn, rfl, rfl⟩
    exact ⟨table, level, htable, name, write, hcolumn, rfl, rfl, rfl⟩

/-- The states of a table. -/
def states {β : Type} (table : Table β) : String := fromOne (table.map Prod.fst)

/-- The numbers of each state of a table. -/
def groups (table : Table ℕ) : String :=
  spaced (table.map fun row => Quote.doubleQuoted (spacedNumbers row.2))

/-- The states of a table are read back as their numbers. -/
theorem read_states {β : Type} (table : Table β) :
    WordRules.fish.read (states table) = some (table.map fun row => toString (row.1 + 1)) := by
  have hread := WordRules.read_fish_numbers ((table.map Prod.fst).map (· + 1))
  simpa only [states, fromOne, List.map_map, Function.comp_def] using hread

/-- The numbers of a state are read back as one word for each state. -/
theorem read_groups (table : Table ℕ) :
    WordRules.fish.read (groups table) = some (table.map fun row => spacedNumbers row.2) := by
  have hread := read_fish_groups (table.map Prod.snd)
  simpa only [groups, List.map_map, Function.comp_def] using hread

/-- The columns of the tables of literals. -/
def literalColumns : List (String × (Table ℕ → String)) :=
  [("literal_froms", states),
    ("literal_inputs", fun table => Quote.fish <| String.intercalate "|" <|
      (table.mapEntries (· + 1)).map fun row => spacedNumbers row.2)]

/-- The columns of the tables of subwords. -/
def subwordColumns : List (String × (Table ℕ → String)) :=
  [("subword_froms", states), ("subwords", groups)]

/-- The columns of the tables of filtered commands. -/
def filteredColumns : List (String × (Table (ℕ × ℕ) → String)) :=
  [("nontail_command_froms", states),
    ("nontail_commands", fun table => groups (table.mapEntries Prod.fst)),
    ("nontail_regexes", fun table => groups (table.mapEntries (·.2 + 1)))]

/-- The columns of the tables of commands. -/
def commandColumns : List (String × (Table ℕ → String)) :=
  [("command_froms", states), ("commands", groups)]

/-- What is set for the tables of a script. -/
def entries (literalLevels subwordLevels commandLevels : List (Table ℕ))
    (filteredLevels : List (Table (ℕ × ℕ))) : List (String × ℕ × String) :=
  levelEntries literalColumns literalLevels ++
    (if (subwordLevels.headD []).isEmpty then [] else levelEntries subwordColumns subwordLevels) ++
    levelEntries filteredColumns filteredLevels ++
    (if (commandLevels.headD []).isEmpty then [] else levelEntries commandColumns commandLevels)

/-- A line that begins in the same way as those of the tables is one of them. -/
theorem line_eq (kind : String) (level : ℕ) (values : String) :
    "    " ++ ("set " ++ kind) ++ "_level_" ++ toString level ++ " " ++ values =
      tableLine kind level values := by
  simp [tableLine, variableName, ← String.toList_inj]

/-- The lines for the columns of a table. -/
def columnLines {β : Type} (columns : List (String × (Table β → String))) (level : ℕ) (table : Table β) :
    List String :=
  columns.map fun column => tableLine column.1 level (column.2 table)

/-- The lines for literals are those of their columns. -/
theorem literalLines_eq (level : ℕ) (table : Table ℕ) :
    (let inputs := String.intercalate "|" <|
        (table.mapEntries (· + 1)).map fun row => spacedNumbers row.2
     [fromsLine "set literal_froms" level table,
        s!"    set literal_inputs_level_{level} {Quote.fish inputs}"]) =
      columnLines literalColumns level table :=
  congrArg₂ (fun x y => [x, y]) (line_eq "literal_froms" level _) (line_eq "literal_inputs" level _)

theorem subwordLines_eq (level : ℕ) (table : Table ℕ) :
    [fromsLine "set subword_froms" level table,
      valuesLine "set subwords" level Quote.doubleQuoted table] =
      columnLines subwordColumns level table :=
  congrArg₂ (fun x y => [x, y]) (line_eq "subword_froms" level _) (line_eq "subwords" level _)

theorem filteredLines_eq (level : ℕ) (table : Table (ℕ × ℕ)) :
    [fromsLine "set nontail_command_froms" level table,
      valuesLine "set nontail_commands" level Quote.doubleQuoted (table.mapEntries Prod.fst),
      valuesLine "set nontail_regexes" level Quote.doubleQuoted (table.mapEntries (·.2 + 1))] =
      columnLines filteredColumns level table :=
  congrArg₂ List.cons (line_eq "nontail_command_froms" level _) <|
    congrArg₂ (fun x y => [x, y]) (line_eq "nontail_commands" level _) (line_eq "nontail_regexes" level _)

theorem commandLines_eq (level : ℕ) (table : Table ℕ) :
    [fromsLine "set command_froms" level table,
      valuesLine "set commands" level Quote.doubleQuoted table] =
      columnLines commandColumns level table :=
  congrArg₂ (fun x y => [x, y]) (line_eq "command_froms" level _) (line_eq "commands" level _)

/-- The lines for all levels set what the columns of their tables say. -/
theorem levelLines_columnLines {β : Type} (columns : List (String × (Table β → String)))
    (tables : List (Table β)) : levelLines tables (columnLines columns) =
      (levelEntries columns tables).map fun entry => tableLine entry.1 entry.2.1 entry.2.2 := by
  simp [levelLines, levelEntries, columnLines, List.map_flatMap, Function.comp_def]

variable {literalLevels subwordLevels commandLevels : List (Table ℕ)}
  {filteredLevels : List (Table (ℕ × ℕ))}

/-- The tables of a script are written as lines that set variables. -/
theorem levelTables_eq : levelTables literalLevels subwordLevels commandLevels filteredLevels =
    (entries literalLevels subwordLevels commandLevels filteredLevels).map
      fun entry => tableLine entry.1 entry.2.1 entry.2.2 := by
  simp only [entries, List.map_append, apply_ite (List.map _), List.map_nil, ← levelLines_columnLines,
    levelTables, literalLines_eq, subwordLines_eq, filteredLines_eq, commandLines_eq]

/-! ### The lines behind the words before the cursor -/

/-- The lines of a script behind the loop over the words before the cursor. Its way out is found nowhere
behind it. -/
def completionLines (script : String) : List String :=
  ((Text.pieces script.toList).map String.ofList).rtakeWhile (· ≠ "        return 1")

/-- The loop over the fallback levels and what follows it. -/
def loopLines (command : String) (maxLevel : ℕ) (noSubwords noCommands noFiltered : Bool) : List String :=
  completeLiterals maxLevel ++ (if noSubwords then [] else completeSubwords command) ++
    (if noCommands then [] else completeCommands command) ++
    (if noFiltered then [] else completePatterns command) ++ mainClosing ++
    [s!"complete --erase {command}",
      s!"complete --command {command} --no-files --arguments \"(_{command})\""]

/-- Whether a line begins with a text. -/
def OpensWith (start line : String) : Prop := start.toList <+: line.toList

theorem opensWith_append (start other : String) : OpensWith start (start ++ other) := by
  rw [OpensWith, String.toList_append]
  exact List.prefix_append ..

theorem opensWith_set (name values : String) :
    OpensWith "    set " ("    set " ++ name ++ " " ++ values) := by
  rw [String.append_assoc, String.append_assoc]
  exact opensWith_append _ _

/-- Of fixed texts only the characters are compared. -/
theorem not_opensWith_ofList {start line : List Char} (h : ¬ start <+: line) :
    ¬ OpensWith (String.ofList start) (String.ofList line) := by
  rwa [OpensWith, String.toList_ofList, String.toList_ofList]

/-- How a line begins is decided by a part of it that is long enough. -/
theorem not_opensWith_append {start line : String} (h : ¬ OpensWith start line)
    (hlength : start.toList.length ≤ line.toList.length) (other : String) :
    ¬ OpensWith start (line ++ other) := by
  intro hopens
  rw [OpensWith, String.toList_append] at hopens
  exact h (List.prefix_of_prefix_length_le hopens (List.prefix_append ..) hlength)

/-- A line that sets no variable of the main function and is not the way out of the loop over the words. -/
structure Inert (line : String) : Prop where
  onOneLine : OnOneLine line
  not_sets : ¬ OpensWith "    set " line
  not_leaves : ¬ OpensWith "        return 1" line

/-- A line that begins with an inert one is inert, if enough of it is known. -/
theorem inert_append {start other : String} (h : Inert start) (hlength : 16 ≤ start.toList.length)
    (hother : OnOneLine other) : Inert (start ++ other) where
  onOneLine := h.onOneLine.append hother
  not_sets := not_opensWith_append h.not_sets (le_trans (by decide) hlength) other
  not_leaves := not_opensWith_append h.not_leaves (le_trans (by decide) hlength) other

theorem inert_around {start other rest : String} (h : Inert start) (hlength : 16 ≤ start.toList.length)
    (hother : OnOneLine other) (hrest : OnOneLine rest) : Inert (start ++ other ++ rest) := by
  rw [String.append_assoc]
  exact inert_append h hlength (hother.append hrest)

/-- A fixed line is checked character by character. -/
theorem inert_ofList {setting leaving line : List Char} (hsetting : "    set " = String.ofList setting)
    (hleaving : "        return 1" = String.ofList leaving)
    (h : '\n' ∉ line ∧ ¬ setting <+: line ∧ ¬ leaving <+: line) : Inert (String.ofList line) where
  onOneLine := onOneLine_ofList h.1
  not_sets := hsetting ▸ not_opensWith_ofList h.2.1
  not_leaves := hleaving ▸ not_opensWith_ofList h.2.2

section

variable {command : String} (hcommand : OnOneLine command)

include hcommand

/-- The lines that complete subwords set nothing. -/
theorem inert_completeSubwords : ∀ line ∈ completeSubwords command, Inert line := by
  have hfunction : Inert ("                set function_name _" ++ command ++ "_subword_$id") :=
    inert_around (inert_ofList rfl rfl (by decide)) (by decide) hcommand (onOneLine_ofList (by decide))
  simp only [completeSubwords, List.forall_mem_cons, List.not_mem_nil, false_implies, implies_true,
    and_true]
  and_intros
  pick_goal 9
  · exact hfunction
  all_goals exact inert_ofList rfl rfl (by decide)

omit hcommand in
theorem inert_completeLiterals (maxLevel : ℕ) : ∀ line ∈ completeLiterals maxLevel, Inert line := by
  have hlevels : Inert ("    for fallback_level in (seq 0 " ++ toString maxLevel ++ ")") :=
    inert_around (inert_ofList rfl rfl (by decide)) (by decide) (onOneLine_toString maxLevel)
      (onOneLine_ofList (by decide))
  simp only [completeLiterals, List.forall_mem_cons, List.not_mem_nil, false_implies, implies_true,
    and_true]
  and_intros
  pick_goal 2
  · exact hlevels
  all_goals exact inert_ofList rfl rfl (by decide)

/-- The line that names the function of a command. -/
theorem inert_function : Inert ("            set function_name _" ++ command ++ "_cmd_$function_id") :=
  inert_around (inert_ofList rfl rfl (by decide)) (by decide) hcommand (onOneLine_ofList (by decide))

theorem inert_completeCommands : ∀ line ∈ completeCommands command, Inert line := by
  simp only [completeCommands, List.forall_mem_cons, List.not_mem_nil, false_implies, implies_true,
    and_true]
  and_intros
  pick_goal 9
  · exact inert_function hcommand
  all_goals exact inert_ofList rfl rfl (by decide)

theorem inert_completePatterns : ∀ line ∈ completePatterns command, Inert line := by
  simp only [completePatterns, List.forall_mem_cons, List.not_mem_nil, false_implies, implies_true,
    and_true]
  and_intros
  pick_goal 9
  · exact inert_function hcommand
  all_goals exact inert_ofList rfl rfl (by decide)

omit hcommand in
/-- The last lines of the main function set nothing. -/
theorem inert_mainClosing : ∀ line ∈ mainClosing, Inert line := by
  simp only [mainClosing, List.forall_mem_cons, List.not_mem_nil, false_implies, implies_true,
    and_true]
  and_intros
  all_goals exact inert_ofList rfl rfl (by decide)

/-- The loop over the levels and what follows it set nothing. -/
theorem inert_loopLines (maxLevel : ℕ) (noSubwords noCommands noFiltered : Bool) :
    ∀ line ∈ loopLines command maxLevel noSubwords noCommands noFiltered, Inert line := by
  have herase : Inert ("complete --erase " ++ command) :=
    inert_append (inert_ofList rfl rfl (by decide)) (by decide) hcommand
  have hcomplete : Inert ("complete --command " ++ command ++ " --no-files --arguments \"(_" ++
      command ++ ")\"") := by
    simp only [String.append_assoc]
    exact inert_append (inert_ofList rfl rfl (by decide)) (by decide)
      (hcommand.append (.append (onOneLine_ofList (by decide)) (hcommand.append (by decide))))
  intro line hline
  simp only [loopLines, List.mem_append, List.mem_cons, List.not_mem_nil, or_false, List.mem_ite_nil_left]
    at hline
  rcases hline with ((((hline | ⟨-, hline⟩) | ⟨-, hline⟩) | ⟨-, hline⟩) | hline) | rfl | rfl
  · exact inert_completeLiterals maxLevel line hline
  · exact inert_completeSubwords hcommand line hline
  · exact inert_completeCommands hcommand line hline
  · exact inert_completePatterns hcommand line hline
  · exact inert_mainClosing line hline
  · exact herase
  · exact hcomplete

end

/-- Columns whose names have no space in them, and which are written on one line. -/
def PlainColumns {β : Type} (columns : List (String × (Table β → String))) : Prop :=
  ∀ column ∈ columns, (' ' ∉ column.1.toList ∧ OnOneLine column.1) ∧ ∀ table, OnOneLine (column.2 table)

theorem onOneLine_states {β : Type} (table : Table β) : OnOneLine (states table) :=
  onOneLine_spacedNumbers _

theorem onOneLine_groups (table : Table ℕ) : OnOneLine (groups table) := by
  refine OnOneLine.intercalate (by decide) fun text htext => ?_
  obtain ⟨row, -, rfl⟩ := List.mem_map.mp htext
  exact (onOneLine_spacedNumbers row.2).doubleQuoted

theorem plainColumns_literals : PlainColumns literalColumns := by
  refine List.forall_mem_cons.mpr ⟨⟨by decide, onOneLine_states⟩, List.forall_mem_singleton.mpr ?_⟩
  refine ⟨by decide, fun table => ?_⟩
  refine (OnOneLine.intercalate (by decide) fun text htext => ?_).quoteFish
  obtain ⟨row, -, rfl⟩ := List.mem_map.mp htext
  exact onOneLine_spacedNumbers row.2

/-- Columns of numbers are plain if their names are. -/
theorem plainColumns_numbers {keys values : String} (hkeys : ' ' ∉ keys.toList ∧ OnOneLine keys)
    (hvalues : ' ' ∉ values.toList ∧ OnOneLine values) :
    PlainColumns [(keys, states), (values, groups)] :=
  List.forall_mem_cons.mpr ⟨⟨hkeys, onOneLine_states⟩,
    List.forall_mem_singleton.mpr ⟨hvalues, onOneLine_groups⟩⟩

theorem plainColumns_filtered : PlainColumns filteredColumns := by
  refine List.forall_mem_cons.mpr ⟨⟨by decide, onOneLine_states⟩, List.forall_mem_cons.mpr ⟨?_, ?_⟩⟩
  · exact ⟨by decide, fun table => onOneLine_groups _⟩
  · exact List.forall_mem_singleton.mpr ⟨by decide, fun table => onOneLine_groups _⟩

/-- What is set from plain columns has a plain name and is written on one line. -/
theorem PlainColumns.of_mem {β : Type} {columns : List (String × (Table β → String))}
    (h : PlainColumns columns) {tables : List (Table β)} {kind values : String} {level : ℕ}
    (hentry : (kind, level, values) ∈ levelEntries columns tables) :
    (' ' ∉ kind.toList ∧ OnOneLine kind) ∧ OnOneLine values := by
  obtain ⟨table, -, column, hcolumn, rfl, rfl⟩ := mem_levelEntries.mp hentry
  exact ⟨(h column hcolumn).1, (h column hcolumn).2 table⟩

/-- All that is set for the tables of a script has a plain name and is written on one line. -/
theorem plain_of_mem_entries {kind values : String} {level : ℕ}
    (h : (kind, level, values) ∈ entries literalLevels subwordLevels commandLevels filteredLevels) :
    (' ' ∉ kind.toList ∧ OnOneLine kind) ∧ OnOneLine values := by
  simp only [entries, List.mem_append, List.mem_ite_nil_left] at h
  rcases h with ((h | ⟨-, h⟩) | h) | ⟨-, h⟩
  · exact plainColumns_literals.of_mem h
  · exact (plainColumns_numbers (by decide) (by decide)).of_mem h
  · exact plainColumns_filtered.of_mem h
  · exact (plainColumns_numbers (by decide) (by decide)).of_mem h

/-- The lines behind the way out of the loop over the words before the cursor. -/
def laterLines (command : String) (maxLevel : ℕ) (literalLevels subwordLevels commandLevels : List (Table ℕ))
    (filteredLevels : List (Table (ℕ × ℕ))) : List String :=
  ["    end", ""] ++ levelTables literalLevels subwordLevels commandLevels filteredLevels ++
    loopLines command maxLevel (subwordLevels.headD []).isEmpty (commandLevels.headD []).isEmpty
      (filteredLevels.headD []).isEmpty

/-- A line behind that loop is inert or sets a variable. -/
theorem laterLines_cases {command : String} (hcommand : OnOneLine command) {maxLevel : ℕ} {line : String}
    (hline : line ∈ laterLines command maxLevel literalLevels subwordLevels commandLevels filteredLevels) :
    Inert line ∨ ∃ kind level values, line = tableLine kind level values ∧
      (kind, level, values) ∈ entries literalLevels subwordLevels commandLevels filteredLevels := by
  rw [laterLines, levelTables_eq] at hline
  rcases List.mem_append.mp hline with hline | hline
  · rcases List.mem_append.mp hline with hline | hline
    · simp only [List.mem_cons, List.not_mem_nil, or_false] at hline
      rcases hline with rfl | rfl <;> exact .inl (inert_ofList rfl rfl (by decide))
    · obtain ⟨⟨kind, level, values⟩, hentry, rfl⟩ := List.mem_map.mp hline
      exact .inr ⟨kind, level, values, rfl, hentry⟩
  · exact .inl (inert_loopLines hcommand _ _ _ _ line hline)

/-- What stands behind the last element of another kind is found again. -/
theorem rtakeWhile_append_cons {α : Type} {p : α → Bool} {x : α} {xs : List α} (hx : p x = false)
    (hxs : ∀ y ∈ xs, p y = true) (front : List α) : (front ++ x :: xs).rtakeWhile p = xs := by
  rw [List.rtakeWhile, List.reverse_append, List.reverse_cons, List.append_assoc,
    List.takeWhile_append_of_pos (by simpa using hxs), List.singleton_append,
    List.takeWhile_cons_of_neg (by simp [hx]), List.append_nil, List.reverse_reverse]

/-- The lines behind the loop over the words before the cursor are found again in the text. -/
theorem completionLines_ofLines {command : String} (hcommand : OnOneLine command) (maxLevel : ℕ)
    (front : List String) :
    completionLines (ofLines (front ++ "        return 1" ::
        laterLines command maxLevel literalLevels subwordLevels commandLevels filteredLevels)) =
      laterLines command maxLevel literalLevels subwordLevels commandLevels filteredLevels := by
  have hlines : ∀ line ∈ laterLines command maxLevel literalLevels subwordLevels commandLevels filteredLevels,
      OnOneLine line ∧ line ≠ "        return 1" := by
    intro line hline
    rcases laterLines_cases hcommand hline with hinert | ⟨kind, level, values, rfl, hentry⟩
    · refine ⟨hinert.onOneLine, ?_⟩
      rintro rfl
      exact hinert.not_leaves List.prefix_rfl
    · obtain ⟨⟨-, hkind⟩, hvalues⟩ := plain_of_mem_entries hentry
      constructor
      · have hname : OnOneLine (variableName kind level) :=
          (hkind.append (by decide)).append (onOneLine_toString level)
        exact (((by decide : OnOneLine "    set ").append hname).append (by decide)).append hvalues
      · intro heq
        have hopens : OpensWith "    set " (tableLine kind level values) := opensWith_set _ _
        rw [heq] at hopens
        exact not_opensWith_ofList (by decide) hopens
  have hone : ∀ line ∈ "        return 1" ::
      laterLines command maxLevel literalLevels subwordLevels commandLevels filteredLevels,
      '\n' ∉ line.toList :=
    List.forall_mem_cons.mpr ⟨by decide, fun line hline => (hlines line hline).1⟩
  rw [completionLines, ofLines_append, String.toList_append, Text.pieces_append (endsLine_ofLines _),
    pieces_ofLines hone, List.map_append, List.map_map, List.map_cons]
  have hback : (String.ofList ∘ String.toList) = id := funext fun line => String.ofList_toList
  rw [hback, List.map_id]
  exact rtakeWhile_append_cons (by simp) (fun line hline => by simpa using (hlines line hline).2) _

/-! ### What is set -/

/-- Whether a line of the main function sets a variable to some words. -/
def Sets (line name : String) (words : List String) : Prop :=
  ∃ values, line = "    set " ++ name ++ " " ++ values ∧ WordRules.fish.read values = some words

/-- A variable belongs to one kind and one level. -/
theorem variableName_inj {kind kind' : String} {level level' : ℕ}
    (h : variableName kind level = variableName kind' level') : kind = kind' ∧ level = level' := by
  have hdigits : ∀ (kind : String) level, (variableName kind level).toList.rtakeWhile Char.isDigit =
      (toString level).toList := by
    intro kind level
    have hlist : (variableName kind level).toList =
        (kind ++ "_level").toList ++ '_' :: (toString level).toList := by simp [variableName]
    rw [hlist]
    exact rtakeWhile_append_cons (by decide) (fun c hc => isDigit_of_mem_toString hc) _
  have hlevel : level = level' := by
    have hnumbers := congrArg (fun name => name.toList.rtakeWhile Char.isDigit) h
    simp only [hdigits, Nat.toString_eq_repr, Nat.toList_repr] at hnumbers
    have hread := congrArg (Nat.ofDigitChars 10 · 0) hnumbers
    simpa only [Nat.ofDigitChars_toDigits (by decide : 1 < 10) (by decide)] using hread
  subst hlevel
  refine ⟨?_, rfl⟩
  have hlists := congrArg String.toList h
  simp only [variableName, String.toList_append, List.append_cancel_right_eq] at hlists
  exact String.toList_inj.mp hlists

/-- The names of variables have no spaces in them. -/
theorem space_not_mem_variableName {kind : String} (hkind : ' ' ∉ kind.toList) (level : ℕ) :
    ' ' ∉ (variableName kind level).toList := by
  have hlevel : ' ' ∉ (toString level).toList := fun hmem =>
    absurd (isDigit_of_mem_toString hmem) (by decide)
  simp only [variableName, String.toList_append, List.mem_append, not_or]
  exact ⟨⟨hkind, by decide⟩, hlevel⟩

/-- Lines that set variables are different if the variables or the values are. -/
theorem set_line_inj {name name' values values' : String} (hname : ' ' ∉ name.toList)
    (hname' : ' ' ∉ name'.toList)
    (h : "    set " ++ name ++ " " ++ values = "    set " ++ name' ++ " " ++ values') :
    name = name' ∧ values = values' := by
  have hlists : name.toList ++ ' ' :: values.toList = name'.toList ++ ' ' :: values'.toList := by
    simpa [String.append_assoc] using congrArg String.toList h
  have hword : ∀ {cs ds : List Char}, ' ' ∉ cs → (cs ++ ' ' :: ds).takeWhile (· ≠ ' ') = cs := by
    intro cs ds hcs
    rw [List.takeWhile_append_of_pos, List.takeWhile_cons_of_neg (by simp), List.append_nil]
    intro c hc
    have hne : c ≠ ' ' := fun heq => hcs (heq ▸ hc)
    simpa using hne
  have hnames := congrArg (List.takeWhile (· ≠ ' ')) hlists
  rw [hword hname, hword hname'] at hnames
  rw [hnames, List.append_cancel_left_eq, List.cons.injEq] at hlists
  exact ⟨String.toList_inj.mp hnames, String.toList_inj.mp hlists.2⟩

/-- The variables that are set behind the loop over the words are those of the tables. -/
theorem exists_sets_iff {command : String} (hcommand : OnOneLine command) {maxLevel : ℕ} {kind : String}
    (hkind : ' ' ∉ kind.toList) {level : ℕ} {words : List String} :
    (∃ line ∈ laterLines command maxLevel literalLevels subwordLevels commandLevels filteredLevels,
        Sets line (variableName kind level) words) ↔
      ∃ values, (kind, level, values) ∈
          entries literalLevels subwordLevels commandLevels filteredLevels ∧
        WordRules.fish.read values = some words := by
  constructor
  · rintro ⟨line, hline, values, heq, hread⟩
    rcases laterLines_cases hcommand hline with hinert | ⟨kind', level', values', rfl, hentry⟩
    · exact (hinert.not_sets (heq ▸ opensWith_set _ _)).elim
    · obtain ⟨⟨hkind', -⟩, -⟩ := plain_of_mem_entries hentry
      obtain ⟨hname, rfl⟩ := set_line_inj (space_not_mem_variableName hkind' level')
        (space_not_mem_variableName hkind level) heq
      obtain ⟨rfl, rfl⟩ := variableName_inj hname
      exact ⟨values', hentry, hread⟩
  · rintro ⟨values, hentry, hread⟩
    refine ⟨tableLine kind level values, ?_, values, rfl, hread⟩
    rw [laterLines, levelTables_eq]
    exact List.mem_append_left _ (List.mem_append_right _ (List.mem_map.mpr ⟨_, hentry, rfl⟩))

end Fish

end Script

end ShellCompletion
