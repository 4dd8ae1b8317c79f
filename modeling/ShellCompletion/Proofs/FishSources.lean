import Mathlib.Data.List.Permutation
import ShellCompletion.Proofs.FallbackLevels
import ShellCompletion.Proofs.FishTables
import ShellCompletion.Proofs.PlainDefinitions

/-!
# What a fish script offers

Subwords, commands and specialized names are offered by the states that they leave, each at its own level.
The tables for them are collected level by level, but a fish script has those of subwords only if some
subword has the level zero, and those of commands only if some command has. Commands and references always
have the level zero, so that every command is offered. A subword of another level is offered exactly if
there is one of the level zero besides it.
-/

namespace ShellCompletion

/-- The results of a step for each value of a list. -/
theorem Result.mem_of_mapM {α β : Type} {f : α → Result β} {xs : List α} {ys : List β}
    (h : xs.mapM f = .ok ys) {y : β} : y ∈ ys ↔ ∃ x ∈ xs, f x = .ok y := by
  induction xs generalizing ys with
  | nil =>
    cases h
    simp
  | cons x xs ih =>
    rw [List.mapM_cons] at h
    obtain ⟨first, hfirst, h⟩ := bind_eq_ok.mp h
    obtain ⟨others, hothers, h⟩ := bind_eq_ok.mp h
    cases h
    rw [List.mem_cons, ih hothers]
    simp [hfirst, eq_comm]

namespace Script

/-! ### The tables of the levels -/

section

variable {β : Type}

/-- Take up what a state offers at a level. -/
def addOffer (level : ℕ) (table : OrderedMap ℕ (List β)) (offer : ℕ × ℕ × Option β) :
    OrderedMap ℕ (List β) :=
  match offer with
  | (own, state, some item) => if own = level then table.alter state [] (· ++ [item]) else table
  | (_, _, none) => table

/-- An offer is added to the row of its state if it is of the level. -/
theorem mem_addOffer {level : ℕ} {table : OrderedMap ℕ (List β)} {offer : ℕ × ℕ × Option β} {state : ℕ}
    {item : β} : (∃ items, (addOffer level table offer).get? state = some items ∧ item ∈ items) ↔
      (∃ items, table.get? state = some items ∧ item ∈ items) ∨ offer = (level, state, some item) := by
  obtain ⟨own, source, found⟩ := offer
  cases found with
  | none => simp [addOffer]
  | some other =>
    rw [addOffer]
    split
    · next hown =>
      subst hown
      rw [OrderedMap.get?_alter]
      by_cases hstate : state = source
      · subst hstate
        cases table.get? state <;> simp [eq_comm]
      · simp [hstate, Ne.symm hstate]
    · next hown => simp [hown]

/-- The table of a level holds what is offered at the level. -/
theorem mem_foldl_addOffer {level : ℕ} {offers : List (ℕ × ℕ × Option β)}
    {table : OrderedMap ℕ (List β)} {state : ℕ} {item : β} :
    (∃ items, (offers.foldl (addOffer level) table).get? state = some items ∧ item ∈ items) ↔
      (∃ items, table.get? state = some items ∧ item ∈ items) ∨ (level, state, some item) ∈ offers := by
  induction offers generalizing table with
  | nil => simp
  | cons offer offers ih =>
    rw [List.foldl_cons, ih, mem_addOffer, List.mem_cons, or_assoc, @eq_comm _ offer]

/-- The rows of a level hold what is offered on it. -/
theorem exists_row_iff {level : ℕ} {offers : List (ℕ × ℕ × Option β)} {state : ℕ} {item : β} :
    (∃ items, (state, items) ∈ (offers.foldl (addOffer level) .empty).entries ∧ item ∈ items) ↔
      (level, state, some item) ∈ offers := by
  simp only [OrderedMap.mem_entries_iff, mem_foldl_addOffer, OrderedMap.get?_empty]
  simp

/-- Nothing is added for a level on which nothing is offered. -/
theorem foldl_addOffer_eq {level : ℕ} {offers : List (ℕ × ℕ × Option β)}
    (h : ∀ state item, (level, state, some item) ∉ offers) (table : OrderedMap ℕ (List β)) :
    offers.foldl (addOffer level) table = table := by
  induction offers generalizing table with
  | nil => rfl
  | cons offer offers ih =>
    have hfirst : addOffer level table offer = table := by
      obtain ⟨own, source, found⟩ := offer
      cases found with
      | none => rfl
      | some item =>
        refine if_neg fun hown => h source item ?_
        simp [hown]
    rw [List.foldl_cons, hfirst]
    exact ih (fun state item hmem => h state item (by simp [hmem])) table

variable {a : Automaton Input} {entry : Input → Result (Option β)} {tables : List (Table β)}

/-- The tables of the levels go up to the greatest level. -/
theorem levels_eq_ok (h : levels a entry = .ok tables) :
    ∃ (offers : List (ℕ × ℕ × Option β)) (greatest : ℕ), maxLevel a = .ok greatest ∧
      (∀ level state found, (level, state, found) ∈ offers ↔ ∃ t ∈ a.transitions,
        t.symbol.level = level ∧ t.source = state ∧ entry t.symbol = .ok found) ∧
      tables = (List.range (greatest + 1)).map fun level =>
        (offers.foldl (addOffer level) .empty).entries := by
  obtain ⟨offers, hoffers, h⟩ := Result.bind_eq_ok.mp h
  obtain ⟨greatest, hgreatest, h⟩ := Result.bind_eq_ok.mp h
  cases h
  refine ⟨offers, greatest, hgreatest, fun level state found => ?_, rfl⟩
  rw [Result.mem_of_mapM hoffers]
  refine exists_congr fun t => and_congr_right fun _ => ?_
  constructor
  · intro ht
    obtain ⟨found', hfound, heq⟩ := Result.bind_eq_ok.mp ht
    cases heq
    exact ⟨rfl, rfl, hfound⟩
  · rintro ⟨rfl, rfl, hfound⟩
    rw [hfound]
    rfl

/-- What stands on a transition is in the table of its level, in the row of the state that it leaves. -/
theorem exists_row_of_levels (h : levels a entry = .ok tables)
    (hlevel : ∃ greatest, a.maxLevel? = some greatest ∧ ∀ t ∈ a.transitions, t.symbol.level ≤ greatest)
    {t : Transition Input} (ht : t ∈ a.transitions) {item : β} (hitem : entry t.symbol = .ok (some item)) :
    ∃ table items, tables[t.symbol.level]? = some table ∧ (t.source, items) ∈ table ∧ item ∈ items := by
  obtain ⟨offers, greatest, hgreatest, hoffers, rfl⟩ := levels_eq_ok h
  obtain ⟨greatest', hmax, hle⟩ := hlevel
  have hbound : t.symbol.level < greatest + 1 := by
    rw [maxLevel, hmax] at hgreatest
    cases hgreatest
    exact Nat.lt_succ_of_le (hle t ht)
  have hmem := (hoffers t.symbol.level t.source (some item)).mpr ⟨t, ht, rfl, rfl, hitem⟩
  obtain ⟨items, hrow, hin⟩ := exists_row_iff.mpr hmem
  refine ⟨_, items, ?_, hrow, hin⟩
  simp [hbound]

/-- The first table is not empty exactly if something is offered at the level zero. -/
theorem isEmpty_headD_levels_iff (h : levels a entry = .ok tables) :
    (tables.headD []).isEmpty = false ↔
      ∃ t ∈ a.transitions, t.symbol.level = 0 ∧ ∃ item, entry t.symbol = .ok (some item) := by
  obtain ⟨offers, greatest, -, hoffers, rfl⟩ := levels_eq_ok h
  have hfirst : ((List.range (greatest + 1)).map fun level =>
      (offers.foldl (addOffer level) OrderedMap.empty).entries).headD [] =
        (offers.foldl (addOffer 0) OrderedMap.empty).entries := by
    rw [List.range_succ_eq_map]
    rfl
  rw [hfirst]
  constructor
  · intro hsome
    by_contra hnone
    rw [foldl_addOffer_eq] at hsome
    · cases hsome
    · intro state item hmem
      obtain ⟨t, ht, hlevel, -, hitem⟩ := (hoffers 0 state (some item)).mp hmem
      exact hnone ⟨t, ht, hlevel, item, hitem⟩
  · rintro ⟨t, ht, hlevel, item, hitem⟩
    have hmem := (hoffers 0 t.source (some item)).mpr ⟨t, ht, hlevel, rfl, hitem⟩
    obtain ⟨items, hrow, -⟩ := exists_row_iff.mpr hmem
    exact List.isEmpty_eq_false_iff.mpr (List.ne_nil_of_mem hrow)

end

/-! ### What the text of a script lists -/

namespace Fish

/-- Whether the lines set a variable to some words, and to no others. -/
def Holds (lines : List String) (name : String) (words : List String) : Prop :=
  ∀ others, (∃ line ∈ lines, Sets line name others) ↔ others = words

/-- Whether the lines list a number for a state at a level: in the variable of the one kind there is the
state, counted from one, and at the same place in that of the other kind the number. -/
def Lists (lines : List String) (keys values : String) (level state number : ℕ) : Prop :=
  ∃ words rows, ∃ place : ℕ, ∃ numbers, Holds lines (variableName keys level) words ∧
    Holds lines (variableName values level) rows ∧ words[place]? = some (toString (state + 1)) ∧
    rows[place]? = some (spacedNumbers numbers) ∧ number ∈ numbers

section

variable {literalLevels subwordLevels commandLevels : List (Table ℕ)}
  {filteredLevels : List (Table (ℕ × ℕ))}

/-- Whether the variables of two kinds are set to the states and to the numbers in the tables of all levels,
unless the first one of these is empty. -/
structure Written (tables : List (Table ℕ)) (keys values : String)
    (all : List (String × ℕ × String)) : Prop where
  spaceless : ' ' ∉ keys.toList ∧ ' ' ∉ values.toList
  states : ∀ level other, (keys, level, other) ∈ all ↔
    (tables.headD []).isEmpty = false ∧ ∃ table, tables[level]? = some table ∧ states table = other
  groups : ∀ level other, (values, level, other) ∈ all ↔
    (tables.headD []).isEmpty = false ∧ ∃ table, tables[level]? = some table ∧ groups table = other

/-- The tables of subwords are written into variables of their own. -/
theorem written_subwords : Written subwordLevels "subword_froms" "subwords"
    (entries literalLevels subwordLevels commandLevels filteredLevels) := by
  constructor <;> simp [entries, mem_levelEntries, literalColumns, subwordColumns, filteredColumns,
    commandColumns]

/-- The tables of commands are written into variables of their own. -/
theorem written_commands : Written commandLevels "command_froms" "commands"
    (entries literalLevels subwordLevels commandLevels filteredLevels) := by
  constructor <;> simp [entries, mem_levelEntries, literalColumns, subwordColumns, filteredColumns,
    commandColumns]

variable {command : String} {maxLevel level : ℕ}

/-- The lines that complete subwords are there if the first level has subwords. -/
theorem infix_completeSubwords (h : (subwordLevels.headD []).isEmpty = false) :
    completeSubwords command <:+:
      laterLines command maxLevel literalLevels subwordLevels commandLevels filteredLevels := by
  rw [laterLines, loopLines, h]
  simp only [Bool.false_eq_true, if_false, List.append_assoc]
  exact (List.prefix_append ..).isInfix.trans <| (List.suffix_append ..).isInfix.trans <|
    (List.suffix_append ..).isInfix.trans (List.suffix_append ..).isInfix

/-- The lines that complete commands are there if the first level has commands. -/
theorem infix_completeCommands (h : (commandLevels.headD []).isEmpty = false) :
    completeCommands command <:+:
      laterLines command maxLevel literalLevels subwordLevels commandLevels filteredLevels := by
  rw [laterLines, loopLines, h]
  simp only [Bool.false_eq_true, if_false, List.append_assoc]
  exact (List.prefix_append ..).isInfix.trans <| (List.suffix_append ..).isInfix.trans <|
    (List.suffix_append ..).isInfix.trans <| (List.suffix_append ..).isInfix.trans
      (List.suffix_append ..).isInfix

variable (hcommand : OnOneLine command)

include hcommand

/-- A variable for which one text is written holds the words of that text. -/
theorem holds_of_entries {kind : String} (hkind : ' ' ∉ kind.toList) {values : String}
    (hentries : ∀ other, (kind, level, other) ∈
      entries literalLevels subwordLevels commandLevels filteredLevels ↔ values = other)
    {words : List String} (hread : WordRules.fish.read values = some words) :
    Holds (laterLines command maxLevel literalLevels subwordLevels commandLevels filteredLevels)
      (variableName kind level) words := by
  intro others
  rw [exists_sets_iff hcommand hkind]
  simp only [hentries, exists_eq_left', hread, Option.some.injEq]
  exact eq_comm

/-- The rows of tables are listed exactly if the first table is not empty. -/
theorem Written.lists_iff {tables : List (Table ℕ)} {keys values : String}
    (h : Written tables keys values (entries literalLevels subwordLevels commandLevels filteredLevels))
    {table : Table ℕ} (htable : tables[level]? = some table) {state number : ℕ} {numbers : List ℕ}
    (hrow : (state, numbers) ∈ table) (hnumber : number ∈ numbers) :
    Lists (laterLines command maxLevel literalLevels subwordLevels commandLevels filteredLevels)
      keys values level state number ↔ (tables.headD []).isEmpty = false := by
  constructor
  · rintro ⟨words, -, -, -, hwords, -⟩
    obtain ⟨written, hentry, -⟩ :=
      (exists_sets_iff hcommand h.spaceless.1).mp ((hwords words).mpr rfl)
    exact ((h.states level written).mp hentry).1
  · intro hsome
    obtain ⟨place, hplace⟩ := List.mem_iff_getElem?.mp hrow
    refine ⟨table.map fun row => toString (row.1 + 1), table.map fun row => spacedNumbers row.2, place,
      numbers, ?_, ?_, ?_, ?_, hnumber⟩
    · refine holds_of_entries hcommand h.spaceless.1 (fun other => ?_) (read_states table)
      rw [h.states, and_iff_right hsome]
      simp [htable]
    · refine holds_of_entries hcommand h.spaceless.2 (fun other => ?_) (read_groups table)
      rw [h.groups, and_iff_right hsome]
      simp [htable]
    · simp [hplace]
    · simp [hplace]

/-- What stands on a transition is listed exactly if something is offered at the level zero. -/
theorem Written.lists_iff_of_levels {tables : List (Table ℕ)} {keys values : String}
    (h : Written tables keys values (entries literalLevels subwordLevels commandLevels filteredLevels))
    {a : Automaton Input} {entry : Input → Result (Option ℕ)} (hlevels : levels a entry = .ok tables)
    (hgreatest : ∃ greatest, a.maxLevel? = some greatest ∧ ∀ t ∈ a.transitions, t.symbol.level ≤ greatest)
    {t : Transition Input} (ht : t ∈ a.transitions) {number : ℕ}
    (hnumber : entry t.symbol = .ok (some number)) :
    Lists (laterLines command maxLevel literalLevels subwordLevels commandLevels filteredLevels)
      keys values t.symbol.level t.source number ↔ (tables.headD []).isEmpty = false := by
  obtain ⟨table, numbers, htable, hrow, hmem⟩ := exists_row_of_levels hlevels hgreatest ht hnumber
  exact h.lists_iff hcommand htable hrow hmem

end

/-! ### The script of a matcher -/

/-- The text of a script, from the way out of the loop over the words before the cursor on. -/
theorem script_eq_ok {command : String} {m : Matcher} {text : String} (h : script command m = .ok text) :
    ∃ (routines : Matcher.Routines) (maxLevel : ℕ) (literalLevels subwordLevels commandLevels :
        List (Table ℕ)) (filteredLevels : List (Table (ℕ × ℕ))) (front : List String),
      m.routines .fish = .ok routines ∧
      levels m.main (offeredSubword (m.main.numberedSubwords 1)) = .ok subwordLevels ∧
      levels m.main (anyCommand .fish routines) = .ok commandLevels ∧
      text = ofLines (front ++ "        return 1" ::
        laterLines command maxLevel literalLevels subwordLevels commandLevels filteredLevels) := by
  obtain ⟨⟨⟩, -, h⟩ := Result.bind_eq_ok.mp h
  obtain ⟨routines, hroutines, h⟩ := Result.bind_eq_ok.mp h
  obtain ⟨subwords, -, h⟩ := Result.bind_eq_ok.mp h
  obtain ⟨matching, -, h⟩ := Result.bind_eq_ok.mp h
  obtain ⟨moves, -, h⟩ := Result.bind_eq_ok.mp h
  obtain ⟨maxLevel, -, h⟩ := Result.bind_eq_ok.mp h
  obtain ⟨literalLevels, -, h⟩ := Result.bind_eq_ok.mp h
  obtain ⟨subwordLevels, hsubwords, h⟩ := Result.bind_eq_ok.mp h
  obtain ⟨commandLevels, hcommands, h⟩ := Result.bind_eq_ok.mp h
  obtain ⟨filteredLevels, -, h⟩ := Result.bind_eq_ok.mp h
  let front := routines.commands.toList.zipIdx.flatMap (commandFunction command) ++
    (if (m.main.numberedSubwords 1).isEmpty then [] else subwordFunction command) ++
    subwords.flatten ++ matchFunction ++ mainOpening command ++ matching ++ subwordRows moves ++
    matchLiterals (m.main.start + 1) ++ (if m.main.hasSubwords then matchSubwords command else []) ++
    matchAnything.take 8
  refine ⟨routines, maxLevel, literalLevels, subwordLevels, commandLevels, filteredLevels, front,
    hroutines, hsubwords, hcommands, ?_⟩
  have hout : matchAnything = matchAnything.take 8 ++ "        return 1" :: ["    end", ""] := rfl
  rw [← Except.ok.inj h, hout]
  simp only [front, laterLines, loopLines, List.append_assoc, List.cons_append, List.nil_append]

/-- The command whose output is offered for an input: that of a command without patterns, and that of a name
that is specialized for fish. -/
def offeredCommand? : Input → Option String
  | .command text none _ _ => some text
  | .reference _ (some specialization) _ _ => specialization.shells.get? .fish
  | _ => none

/-- The command that is offered for an input is found under its number. -/
theorem anyCommand_eq {routines : Matcher.Routines} {input : Input} {text : String}
    (h : offeredCommand? input = some text) {number : ℕ}
    (hnumber : routines.commands.indexOf? text = some number) :
    anyCommand .fish routines input = .ok (some number) := by
  cases input with
  | literal => cases h
  | subword => cases h
  | reference name specialization level span =>
    cases specialization with
    | none => cases h
    | some specialization =>
      have hfound : specialization.shells.get? .fish = some text := h
      simp [anyCommand, plainCommand, specializedCommand, hfound, commandNumber, hnumber, require,
        Result.ok_bind, Result.pure_eq_ok]
  | command text' patterns level span =>
    cases patterns with
    | none =>
      cases h
      simp [anyCommand, plainCommand, commandNumber, hnumber, require, Result.ok_bind, Result.pure_eq_ok]
    | some patterns => cases h

/-- What is offered for an input that is found is one of the routines. -/
theorem exists_number_of_finds {a : Automaton Input} {routines : Matcher.Routines}
    {numbers : List (ℕ × ℕ)} {input : Input} (h : Finds a .fish routines numbers input) {text : String}
    (htext : offeredCommand? input = some text) :
    ∃ number, routines.commands.indexOf? text = some number := by
  cases input with
  | literal => cases htext
  | subword => cases htext
  | reference name specialization level span =>
    cases specialization with
    | none => cases htext
    | some specialization => exact Option.isSome_iff_exists.mp (h text htext)
  | command text' patterns level span =>
    cases patterns with
    | none =>
      cases htext
      exact Option.isSome_iff_exists.mp h.1
    | some patterns => cases htext

/-- The subword that is offered for an input is found under its number. -/
theorem offeredSubword_eq {numbers : List (ℕ × ℕ)} {id level number : ℕ} {span : Option Span}
    (hnumber : numbers.lookup id = some number) :
    offeredSubword numbers (.subword id level span) = .ok (some number) := by
  simp [offeredSubword, hnumber, require, Result.ok_bind, Result.pure_eq_ok]

/-- Only for a subword is a subword offered. -/
theorem exists_subword_of_offered {numbers : List (ℕ × ℕ)} {input : Input} {number : ℕ}
    (h : offeredSubword numbers input = .ok (some number)) :
    ∃ id span, input = .subword id input.level span := by
  cases input with
  | subword id level span => exact ⟨id, span, rfl⟩
  | _ => cases h

section

variable {m : Matcher} {routines : Matcher.Routines} (hwritable : m.Writable .fish routines)
  {command text : String} (hcommand : OnOneLine command) (hscript : script command m = .ok text)

include hwritable hcommand hscript

/-- Commands are offered exactly if one of them has the level zero. -/
theorem lists_command_iff {t : Transition Input} (ht : t ∈ m.main.transitions) {run : String}
    (hrun : offeredCommand? t.symbol = some run) :
    ∃ number, routines.commands.indexOf? run = some number ∧
      (Lists (completionLines text) "command_froms" "commands" t.symbol.level t.source number ∧
          completeCommands command <:+: completionLines text ↔
        (∃ u ∈ m.main.transitions, u.symbol.level = 0 ∧
          ∃ item, anyCommand .fish routines u.symbol = .ok (some item))) := by
  obtain ⟨routines', maxLevel, literalLevels, subwordLevels, commandLevels, filteredLevels, front,
    hroutines, -, hlevels, rfl⟩ := script_eq_ok hscript
  obtain rfl : routines' = routines := Except.ok.inj (hroutines.symm.trans hwritable.collected)
  obtain ⟨number, hnumber⟩ := exists_number_of_finds ((hwritable.main 1).finds t ht) hrun
  refine ⟨number, hnumber, ?_⟩
  rw [completionLines_ofLines hcommand, written_commands.lists_iff_of_levels hcommand hlevels
    (hwritable.main 1).level ht (anyCommand_eq hrun hnumber), ← isEmpty_headD_levels_iff hlevels]
  exact and_iff_left_of_imp infix_completeCommands

/-- Subwords are listed exactly if one of them has the level zero, and then they are offered. -/
theorem lists_subword_iff {t : Transition Input} (ht : t ∈ m.main.transitions) {id level : ℕ}
    {span : Option Span} (hsubword : t.symbol = .subword id level span) :
    ∃ number, (m.main.numberedSubwords 1).lookup id = some number ∧
      (Lists (completionLines text) "subword_froms" "subwords" level t.source number ↔
        ∃ u ∈ m.main.transitions, ∃ id' span', u.symbol = .subword id' 0 span') ∧
      (Lists (completionLines text) "subword_froms" "subwords" level t.source number →
        completeSubwords command <:+: completionLines text) := by
  obtain ⟨routines', maxLevel, literalLevels, subwordLevels, commandLevels, filteredLevels, front, -,
    hlevels, -, rfl⟩ := script_eq_ok hscript
  have hfound : ∀ u ∈ m.main.transitions, ∀ {id level span}, u.symbol = .subword id level span →
      ∃ number, (m.main.numberedSubwords 1).lookup id = some number := by
    intro u hu id level span hsymbol
    have hfinds := (hwritable.main 1).finds u hu
    rw [hsymbol] at hfinds
    exact Option.isSome_iff_exists.mp hfinds
  obtain ⟨number, hnumber⟩ := hfound t ht hsubword
  have hlevel : level = t.symbol.level := by
    rw [hsubword]
    rfl
  have hoffered : offeredSubword (m.main.numberedSubwords 1) t.symbol = .ok (some number) :=
    hsubword ▸ offeredSubword_eq hnumber
  refine ⟨number, hnumber, ?_⟩
  rw [completionLines_ofLines hcommand, hlevel, written_subwords.lists_iff_of_levels hcommand hlevels
    (hwritable.main 1).level ht hoffered]
  refine ⟨?_, infix_completeSubwords⟩
  rw [isEmpty_headD_levels_iff hlevels]
  refine exists_congr fun u => and_congr_right fun hu => ?_
  constructor
  · rintro ⟨hzero, item, hitem⟩
    obtain ⟨id', span', hsymbol⟩ := exists_subword_of_offered hitem
    exact ⟨id', span', hzero ▸ hsymbol⟩
  · rintro ⟨id', span', hsymbol⟩
    obtain ⟨number', hnumber'⟩ := hfound u hu hsymbol
    rw [hsymbol]
    exact ⟨rfl, number', offeredSubword_eq hnumber'⟩

end

end Fish

end Script

/-! ### Sources of a compiled grammar -/

/-- Whether an input that offers the output of a command has the level zero. -/
def Input.Grounded (input : Input) : Prop :=
  (Script.Fish.offeredCommand? input).isSome = true → input.level = 0

namespace Expr

/-- An expression in which the references and commands outside of words have the level zero. -/
inductive Grounded : Expr → Prop
  | literal (text : String) (description : Option String) (level : ℕ) (span : Option Span) :
    Grounded (.literal text description level span)
  | reference (name : String) (span : Option Span) : Grounded (.reference name 0 span)
  | command (text : String) (patterns : Option ShellTexts) (span : Option Span) :
    Grounded (.command text patterns 0 span)
  | sequence {items : List Expr} (hitems : ∀ e ∈ items, Grounded e) : Grounded (.sequence items)
  | alternative {branches : List Expr} (hbranches : ∀ e ∈ branches, Grounded e) :
    Grounded (.alternative branches)
  | fallback {branches : List Expr} (hbranches : ∀ e ∈ branches, Grounded e) :
    Grounded (.fallback branches)
  | optional {item : Expr} (hitem : Grounded item) : Grounded (.optional item)
  | repeated {item : Expr} (hitem : Grounded item) : Grounded (.repeated item)
  | described {item : Expr} (description : String) (hitem : Grounded item) :
    Grounded (.described item description)
  | subword (body : Expr) (level : ℕ) (span : Option Span) : Grounded (.subword body level span)

/-- Levels are assigned to literals and words only. -/
theorem Unlevelled.grounded {e : Expr} (h : e.Unlevelled) (level : ℕ) :
    (e.assignLevels level).Grounded := by
  have hall : ∀ es : List Expr, (∀ e ∈ es, ∀ level, (e.assignLevels level).Grounded) → ∀ level,
      ∀ x ∈ assignLevelsAll level es, x.Grounded := by
    intro es hes level x hx
    rw [assignLevelsAll_eq_map] at hx
    obtain ⟨e, he, rfl⟩ := List.mem_map.mp hx
    exact hes e he level
  induction h generalizing level with
  | literal => exact .literal ..
  | reference => exact .reference ..
  | command => exact .command ..
  | sequence _ ih => exact .sequence (hall _ ih level)
  | alternative _ ih => exact .alternative (hall _ ih level)
  | @fallback branches _ ih =>
    refine .fallback fun x hx => ?_
    obtain ⟨e, he, rank, rfl⟩ := exists_of_mem_forall₂ (forall₂_assignLevelsRanked 0 branches) hx
    exact ih e he rank
  | optional _ ih => exact .optional (ih level)
  | repeated _ ih => exact .repeated (ih level)
  | described description _ ih => exact .described description (ih level)
  | subword => exact .subword ..

/-- Flattening subwords leaves the references and commands outside of words on the level zero. -/
theorem Grounded.flattenSubwords {e : Expr} (h : e.Grounded) : e.flattenSubwords.Grounded := by
  have hall : ∀ es : List Expr, (∀ e ∈ es, e.flattenSubwords.Grounded) →
      ∀ x ∈ flattenSubwordsAll es, x.Grounded := by
    intro es hes x hx
    rw [flattenSubwordsAll_eq_map] at hx
    obtain ⟨e, he, rfl⟩ := List.mem_map.mp hx
    exact hes e he
  induction h with
  | literal => exact .literal ..
  | reference => exact .reference ..
  | command => exact .command ..
  | sequence _ ih => exact .sequence (hall _ ih)
  | alternative _ ih => exact .alternative (hall _ ih)
  | fallback _ ih => exact .fallback (hall _ ih)
  | optional _ ih => exact .optional ih
  | repeated _ ih => exact .repeated ih
  | described description _ ih => exact .described description ih
  | subword => exact .subword ..

/-- The commands and references in the pattern of such an expression have the level zero. -/
theorem Grounded.of_mem_symbols {check : Positions Input → Result Unit} {specializations : Specializations}
    {e : Expr} {s t : Interner Input} {p : Pattern Input} (he : e.Grounded)
    (h : e.toPattern check specializations s = .ok (t, p)) : ∀ input ∈ p.symbols, input.Grounded := by
  have hall : ∀ (es : List Expr) ps, List.Forall₂ (fun (e : Expr) (p : Pattern Input) => e.Grounded →
      ∀ input ∈ p.symbols, input.Grounded) es ps → (∀ e ∈ es, e.Grounded) →
      ∀ input ∈ Pattern.symbolsAll ps, input.Grounded := by
    intro es ps hes hgrounded
    induction hes with
    | nil => simp [Pattern.symbolsAll]
    | cons hp _ ih =>
      intro input hinput
      obtain ⟨hfirst, hothers⟩ := List.forall_mem_cons.mp hgrounded
      exact (List.mem_append.mp hinput).elim (hp hfirst input) (ih hothers input)
  revert he
  refine toPattern_induction
    (motive := fun e p => e.Grounded → ∀ input ∈ p.symbols, input.Grounded) ?_ ?_ ?_ ?_ ?_ ?_ ?_ ?_ ?_ h
  · simp [Pattern.symbols, Input.Grounded, Script.Fish.offeredCommand?]
  · rintro name level span ⟨⟩
    simp [Pattern.symbols, Input.Grounded, Input.level]
  · rintro text patterns level span ⟨⟩
    simp [Pattern.symbols, Input.Grounded, Input.level]
  · rintro items ps hps ⟨⟩
    exact hall items ps hps ‹_›
  · rintro branches ps hps ⟨⟩
    exact hall branches ps hps ‹_›
  · rintro branches ps hps ⟨⟩
    exact hall branches ps hps ‹_›
  · rintro item q hq ⟨⟩
    exact hq ‹_›
  · rintro item q hq ⟨⟩
    exact hq ‹_›
  · simp [Pattern.symbols, Input.Grounded, Script.Fish.offeredCommand?]

end Expr

namespace Lexeme

/-- A run of plain characters has no line feed in it. -/
theorem feed_not_mem_plainRun {cs text : List Char} {count : ℕ} (h : plainRun cs = some (text, count)) :
    '\n' ∉ text := by
  fun_induction plainRun cs generalizing text count with
  | case1 =>
    cases h
    simp
  | case2 => cases h
  | case3 d ds hreserved ih =>
    obtain ⟨⟨others, length⟩, hothers, heq⟩ := Option.map_eq_some_iff.mp h
    cases heq
    have hd : '\n' ≠ d := by
      rintro rfl
      exact absurd hreserved (by decide)
    exact fun hmem => (List.mem_cons.mp hmem).elim hd (ih hothers)
  | case4 => cases h
  | case5 c cs _ hplain ih =>
    obtain ⟨⟨others, length⟩, hothers, heq⟩ := Option.map_eq_some_iff.mp h
    cases heq
    have hc : '\n' ≠ c := by
      rintro rfl
      exact absurd hplain (by decide)
    exact fun hmem => (List.mem_cons.mp hmem).elim hc (ih hothers)
  | case6 =>
    cases h
    simp

/-- There are no line feeds in a literal. -/
theorem onOneLine_of_literal {cs : List Char} {text : String} {count : ℕ}
    (h : literal cs = some (text, count)) : Script.OnOneLine text := by
  simp only [literal, Option.bind_eq_bind, Option.bind_eq_some_iff] at h
  obtain ⟨⟨found, taken⟩, hrun, h⟩ := h
  dsimp only at h
  split at h
  · cases h
  · cases h
    rw [Script.OnOneLine, String.toList_ofList]
    exact feed_not_mem_plainRun hrun

end Lexeme

/-- The command that a statement calls is named on one line. -/
theorem Parser.gives_onOneLine :
    Gives statement fun s => ∀ head body, s = .call head body → Script.OnOneLine head := by
  have hcall : Gives call fun s => ∀ head body, s = .call head body → Script.OnOneLine head := by
    intro start item stop h
    simp only [call, ofScan, Option.bind_eq_bind, Option.bind_eq_some_iff] at h
    obtain ⟨⟨head, c⟩, ⟨⟨text, count⟩, hhead, heq⟩, ⟨⟨⟩, c'⟩, -, ⟨body, c''⟩, -, ⟨⟨⟩, c'''⟩, -, h⟩ := h
    cases h
    cases heq
    rintro head body ⟨⟩
    exact Lexeme.onOneLine_of_literal hhead
  have hdefinition : Gives definition fun s => ∀ head body, s = .call head body → Script.OnOneLine head := by
    intro start item stop h
    simp only [definition, Option.bind_eq_bind, Option.bind_eq_some_iff] at h
    obtain ⟨⟨⟨name, shell⟩, c⟩, -, ⟨⟨⟩, c'⟩, -, ⟨body, c''⟩, -, ⟨⟨⟩, c'''⟩, -, h⟩ := h
    cases h
    rintro head body ⟨⟩
  intro start item stop h
  simp only [statement, Option.bind_eq_bind, Option.bind_eq_some_iff] at h
  obtain ⟨⟨found, c⟩, hfound, h⟩ := h
  cases h
  exact hcall.of_orElse hdefinition start found c hfound

namespace Grammar

variable {g : Grammar} {text : String}

/-- The command of a grammar that was read is named on one line. -/
theorem onOneLine_command (hparse : Grammar.parse text = .ok g) {name : String}
    (hcommand : g.command = .ok name) : Script.OnOneLine name := by
  have hmem : name ∈ g.calls.map Prod.fst := by
    have hsorted : name ∈ sortedNames (g.calls.map Prod.fst) := by
      unfold command at hcommand
      split at hcommand
      · cases hcommand
      · next hsingle =>
        cases hcommand
        rw [hsingle]
        exact List.mem_singleton.mpr rfl
      · cases hcommand
    simpa [sortedNames] using hsorted
  obtain ⟨⟨head, body⟩, hcall, rfl⟩ := List.mem_map.mp hmem
  unfold Grammar.parse at hparse
  dsimp only at hparse
  split at hparse
  · cases hparse
    exact Parser.gives_onOneLine.of_mem_many _ _ (call_mem_statements hcall) head body rfl
  · cases hparse

/-- The command of a compiled grammar is that of the grammar. -/
theorem command_of_compile {shell : Shell} {minimized : Bool} {c : CompiledGrammar}
    (h : g.compile shell minimized = .ok c) : g.command = .ok c.command := by
  obtain ⟨valid, hcheck, h⟩ := Result.bind_eq_ok.mp h
  obtain ⟨d, -, h⟩ := Result.bind_eq_ok.mp h
  have hname : c.command = valid.command := by
    cases minimized with
    | false =>
      cases h
      rfl
    | true =>
      obtain ⟨a, -, h⟩ := Result.bind_eq_ok.mp h
      cases h
      rfl
  rw [hname]
  obtain ⟨resolved, hresolved, h⟩ := Result.bind_eq_ok.mp (validate_of_check hcheck)
  obtain ⟨found, -, h⟩ := Result.bind_eq_ok.mp h
  cases h
  obtain ⟨command, hcommand, h⟩ := Result.bind_eq_ok.mp hresolved
  obtain ⟨definitions, -, h⟩ := Result.bind_eq_ok.mp h
  obtain ⟨specializations, -, h⟩ := Result.bind_eq_ok.mp h
  obtain ⟨order, -, h⟩ := Result.bind_eq_ok.mp h
  obtain ⟨⟨⟩, -, h⟩ := Result.bind_eq_ok.mp h
  cases h
  exact hcommand

/-- Commands and specialized names have the level zero in a compiled grammar. -/
theorem level_eq_zero_of_compile (hparse : Grammar.parse text = .ok g) {shell : Shell} {minimized : Bool}
    {c : CompiledGrammar} (hcompile : g.compile shell minimized = .ok c) {t : Transition Input}
    (ht : t ∈ c.matcher.main.transitions) : t.symbol.Grounded := by
  obtain ⟨valid, d, hvalid, hd, -, hmain⟩ := compile_eq_ok hcompile
  have htrim := trim_of_validate (filled_of_parse hparse) hvalid hd
  obtain ⟨resolved, hresolved, hpattern⟩ := validate_eq_ok hvalid
  obtain ⟨e, he, hbody⟩ :=
    exists_unlevelled (forall_of_parse Parser.readingKeeps_unlevelled hparse) hresolved
  have hgrounded : resolved.body.flattenSubwords.Grounded := by
    rw [hbody]
    exact (he.grounded 0).flattenSubwords
  exact hgrounded.of_mem_symbols hpattern _ (Pattern.mem_symbols_of_transition hd htrim hmain ht)

/-- Without a slash in the name of the command there is a script for fish. -/
theorem exists_fish_script (hparse : Grammar.parse text = .ok g) {minimized : Bool} {c : CompiledGrammar}
    (hcompile : g.compile .fish minimized = .ok c) (hslash : '/' ∉ c.command.toList) :
    ∃ routines script, c.matcher.Writable .fish routines ∧ c.script .fish = .ok script := by
  have hwell := wellFormed_of_compile (filled_of_parse hparse) hcompile
  obtain ⟨routines, hwritable⟩ := hwell.exists_writable .fish
  obtain ⟨-, script, hscript⟩ :=
    (CompiledGrammar.script_cases hwritable).resolve_left fun h => hslash h.2.1
  exact ⟨routines, script, hwritable, hscript⟩

/-- In the script for fish of a grammar that was read and compiled, each command without patterns and each
name that is specialized for fish is listed at its level for the states that it leaves, and its output is
offered. Each subword is so exactly if there is a subword whose level is zero. -/
theorem fish_sources_listed {minimized : Bool} {c : CompiledGrammar} (hparse : Grammar.parse text = .ok g)
    (hcompile : g.compile .fish minimized = .ok c) (hslash : '/' ∉ c.command.toList) :
    ∃ script routines, c.script .fish = .ok script ∧ c.matcher.routines .fish = .ok routines ∧
      (∀ t ∈ c.matcher.main.transitions, ∀ run, Script.Fish.offeredCommand? t.symbol = some run →
        ∃ number, routines.commands.indexOf? run = some number ∧
          Script.Fish.Lists (Script.Fish.completionLines script) "command_froms" "commands"
            t.symbol.level t.source number ∧
          Script.Fish.completeCommands c.command <:+: Script.Fish.completionLines script) ∧
      ∀ t ∈ c.matcher.main.transitions, ∀ id level span, t.symbol = .subword id level span →
        ∃ number, (c.matcher.main.numberedSubwords 1).lookup id = some number ∧
          (Script.Fish.Lists (Script.Fish.completionLines script) "subword_froms" "subwords"
              level t.source number ∧
            Script.Fish.completeSubwords c.command <:+: Script.Fish.completionLines script ↔
          ∃ u ∈ c.matcher.main.transitions, ∃ id' span', u.symbol = .subword id' 0 span') := by
  have hcommand := onOneLine_command hparse (command_of_compile hcompile)
  obtain ⟨routines, script, hwritable, hscript⟩ := exists_fish_script hparse hcompile hslash
  refine ⟨script, routines, hscript, hwritable.collected, ?_, ?_⟩
  · intro t ht run hrun
    obtain ⟨number, hnumber, hlists⟩ := Script.Fish.lists_command_iff hwritable hcommand hscript ht hrun
    have hzero := level_eq_zero_of_compile hparse hcompile ht (Option.isSome_iff_exists.mpr ⟨run, hrun⟩)
    exact ⟨number, hnumber, hlists.mpr ⟨t, ht, hzero, number, Script.Fish.anyCommand_eq hrun hnumber⟩⟩
  · intro t ht id level span hsubword
    obtain ⟨number, hnumber, hlists, hoffered⟩ :=
      Script.Fish.lists_subword_iff hwritable hcommand hscript ht hsubword
    exact ⟨number, hnumber, (and_iff_left_of_imp hoffered).trans hlists⟩

/-- The grammar of `cmd --x=(a | b) || {{{ echo bar }}};`. -/
def rescuedWord : Grammar := ⟨[.call "cmd" (.fallback [
  .subword (.sequence [.literal "--x=" none 0 (some ⟨0, 4, 8⟩),
    .alternative [.literal "a" none 0 (some ⟨0, 9, 10⟩), .literal "b" none 0 (some ⟨0, 13, 14⟩)]])
    0 (some ⟨0, 4, 15⟩),
  .command "echo bar" none 0 (some ⟨0, 19, 35⟩)])]⟩

/-- What it is compiled to. -/
def rescuedWordCompiled : CompiledGrammar :=
  let key : Input := .literal "--x=" none 0 (some ⟨0, 4, 8⟩)
  let a : Input := .literal "a" none 0 (some ⟨0, 9, 10⟩)
  let b : Input := .literal "b" none 0 (some ⟨0, 13, 14⟩)
  ⟨"cmd", .ofTransitions 0 [⟨0, .subword 0 0 (some ⟨0, 4, 15⟩), 1⟩,
      ⟨0, .command "echo bar" none 0 (some ⟨0, 19, 35⟩), 1⟩] [1] [],
    ⟨#[.ofTransitions 0 [⟨0, key, 1⟩, ⟨1, a, 2⟩, ⟨1, b, 2⟩] [2] []]⟩⟩

/-- Both the word and the command are listed and offered. -/
theorem fish_sources_listed_rescuedWord :
    Grammar.parse "cmd --x=(a | b) || \x7b\x7b\x7b echo bar \x7d\x7d\x7d;" = .ok rescuedWord ∧
      rescuedWord.compile .fish true = .ok rescuedWordCompiled ∧
      '/' ∉ rescuedWordCompiled.command.toList ∧
      ∃ script, rescuedWordCompiled.script .fish = .ok script ∧
        (∃ number, Script.Fish.Lists (Script.Fish.completionLines script) "command_froms" "commands"
          0 0 number) ∧
        (∃ number, Script.Fish.Lists (Script.Fish.completionLines script) "subword_froms" "subwords"
          0 0 number) ∧
        Script.Fish.completeCommands "cmd" <:+: Script.Fish.completionLines script ∧
        Script.Fish.completeSubwords "cmd" <:+: Script.Fish.completionLines script := by
  have hparse : Grammar.parse "cmd --x=(a | b) || \x7b\x7b\x7b echo bar \x7d\x7d\x7d;" = .ok rescuedWord := by
    decide +kernel
  have hcompile : rescuedWord.compile .fish true = .ok rescuedWordCompiled := by
    rw [compile, check, validate, resolve, command_of_calls rfl]
    cbv
  have hslash : '/' ∉ rescuedWordCompiled.command.toList := by decide
  have hcommand : ⟨0, .command "echo bar" none 0 (some ⟨0, 19, 35⟩), 1⟩ ∈
      rescuedWordCompiled.matcher.main.transitions := by decide +kernel
  have hsubword : ⟨0, .subword 0 0 (some ⟨0, 4, 15⟩), 1⟩ ∈
      rescuedWordCompiled.matcher.main.transitions := by decide +kernel
  obtain ⟨script, routines, hscript, -, hcommands, hsubwords⟩ :=
    fish_sources_listed hparse hcompile hslash
  obtain ⟨first, -, hfirst, hoffered⟩ := hcommands _ hcommand _ rfl
  obtain ⟨second, -, hiff⟩ := hsubwords _ hsubword _ _ _ rfl
  obtain ⟨hsecond, hoffered'⟩ := hiff.mpr ⟨_, hsubword, _, _, rfl⟩
  exact ⟨hparse, hcompile, hslash, script, hscript, ⟨first, hfirst⟩, ⟨second, hsecond⟩, hoffered, hoffered'⟩

/-- The grammar of `cmd foo || --x=(a | b);`. -/
def rescuingWord : Grammar := ⟨[.call "cmd" (.fallback [.literal "foo" none 0 (some ⟨0, 4, 7⟩),
  .subword (.sequence [.literal "--x=" none 0 (some ⟨0, 11, 15⟩),
    .alternative [.literal "a" none 0 (some ⟨0, 16, 17⟩), .literal "b" none 0 (some ⟨0, 20, 21⟩)]])
    0 (some ⟨0, 11, 22⟩)])]⟩

/-- What it is compiled to. -/
def rescuingWordCompiled : CompiledGrammar :=
  let key : Input := .literal "--x=" none 1 (some ⟨0, 11, 15⟩)
  let a : Input := .literal "a" none 1 (some ⟨0, 16, 17⟩)
  let b : Input := .literal "b" none 1 (some ⟨0, 20, 21⟩)
  ⟨"cmd", .ofTransitions 0 [⟨0, .literal "foo" none 0 (some ⟨0, 4, 7⟩), 1⟩,
      ⟨0, .subword 0 1 (some ⟨0, 11, 22⟩), 1⟩] [1] [],
    ⟨#[.ofTransitions 0 [⟨0, key, 1⟩, ⟨1, a, 2⟩, ⟨1, b, 2⟩] [2] []]⟩⟩

/-- A word that stands behind another source only is not listed at its level. -/
theorem not_listed_rescuingWord :
    Grammar.parse "cmd foo || --x=(a | b);" = .ok rescuingWord ∧
      rescuingWord.compile .fish true = .ok rescuingWordCompiled ∧
      ∃ t ∈ rescuingWordCompiled.matcher.main.transitions, t.source = 0 ∧
        t.symbol = .subword 0 1 (some ⟨0, 11, 22⟩) ∧
        ∃ script number, rescuingWordCompiled.script .fish = .ok script ∧
          (rescuingWordCompiled.matcher.main.numberedSubwords 1).lookup 0 = some number ∧
          ¬ Script.Fish.Lists (Script.Fish.completionLines script) "subword_froms" "subwords" 1 0 number := by
  have hparse : Grammar.parse "cmd foo || --x=(a | b);" = .ok rescuingWord := by decide +kernel
  have hcompile : rescuingWord.compile .fish true = .ok rescuingWordCompiled := by
    rw [compile, check, validate, resolve, command_of_calls rfl]
    cbv
  have hsubword : ⟨0, .subword 0 1 (some ⟨0, 11, 22⟩), 1⟩ ∈
      rescuingWordCompiled.matcher.main.transitions := by decide +kernel
  have hnone : ¬ ∃ u ∈ rescuingWordCompiled.matcher.main.transitions, ∃ id span,
      u.symbol = .subword id 0 span := by
    have hlevels : ∀ u ∈ rescuingWordCompiled.matcher.main.transitions,
        u.symbol = .literal "foo" none 0 (some ⟨0, 4, 7⟩) ∨ u.symbol.level = 1 := by decide +kernel
    rintro ⟨u, hu, id, span, hsymbol⟩
    rcases hlevels u hu with h | h
    · cases hsymbol.symm.trans h
    · rw [hsymbol] at h
      cases h
  have hcommand : Script.OnOneLine "cmd" := by decide
  obtain ⟨routines, script, hwritable, hscript⟩ := exists_fish_script hparse hcompile (by decide)
  obtain ⟨number, hnumber, hlists, -⟩ :=
    Script.Fish.lists_subword_iff hwritable hcommand hscript hsubword rfl
  exact ⟨hparse, hcompile, _, hsubword, rfl, rfl, script, number, hscript, hnumber,
    fun h => hnone (hlists.mp h)⟩

end Grammar

end ShellCompletion
