import ShellCompletion.Script.Quote
import ShellCompletion.Script.Table

/-!
# Scripts for fish

Arrays of fish start at one, so states and literals are written one higher than they are numbered. A
table is a pair of arrays, one for the keys and one for the values. Variables of a function are not
seen by the functions it calls, so the tables of a subword are global.
-/

namespace ShellCompletion.Script.Fish

/-- The function that runs a command. -/
def commandFunction (command : String) (routine : String × Nat) : List String :=
  [s!"function _{command}_cmd_{routine.2}",
  "    set 1 $argv[1]",
  s!"    {routine.1}",
  "end",
  ""]

/-- The function that filters candidates by what has been typed. -/
def matchFunction : List String :=
  ["function __complgen_match",
  "    set prefix $argv[1]",
  "",
  "    set candidates",
  "    set descriptions",
  "    while read c",
  "        set a (string split --max 1 -- \"\t\" $c)",
  "        set --append candidates $a[1]",
  "        if set --query a[2]",
  "            set --append descriptions $a[2]",
  "        else",
  "            set --append descriptions \"\"",
  "        end",
  "    end",
  "",
  "    if test -z \"$candidates\"",
  "        return 1",
  "    end",
  "",
  "    set escaped_prefix (string escape --style=regex -- $prefix)",
  "    set regex \"^$escaped_prefix.*\"",
  "",
  "    set matches_case_sensitive",
  "    set descriptions_case_sensitive",
  "    for i in (seq 1 (count $candidates))",
  "        if string match --regex --quiet --entire -- $regex $candidates[$i]",
  "            set --append matches_case_sensitive $candidates[$i]",
  "            set --append descriptions_case_sensitive $descriptions[$i]",
  "        end",
  "    end",
  "",
  "    if set --query matches_case_sensitive[1]",
  "        for i in (seq 1 (count $matches_case_sensitive))",
  "            printf '%s\t%s\\n' $matches_case_sensitive[$i] $descriptions_case_sensitive[$i]",
  "        end",
  "        return 0",
  "    end",
  "",
  "    set matches_case_insensitive",
  "    set descriptions_case_insensitive",
  "    for i in (seq 1 (count $candidates))",
  "        if string match --regex --quiet --ignore-case --entire -- $regex $candidates[$i]",
  "            set --append matches_case_insensitive $candidates[$i]",
  "            set --append descriptions_case_insensitive $descriptions[$i]",
  "        end",
  "    end",
  "",
  "    if set --query matches_case_insensitive[1]",
  "        for i in (seq 1 (count $matches_case_insensitive))",
  "            printf '%s\t%s\\n' $matches_case_insensitive[$i] $descriptions_case_insensitive[$i]",
  "        end",
  "        return 0",
  "    end",
  "",
  "    return 1",
  "end",
  "",
  ""]

/-- The function that matches and completes a word by the tables of a subword. -/
def subwordFunction (command : String) : List String :=
  [s!"function _{command}_subword",
  "    set mode $argv[1]",
  "    set word $argv[2]",
  "",
  "    set char_index 1",
  "    set matched 0",
  "    while true",
  "        if test $char_index -gt (string length -- \"$word\")",
  "            set matched 1",
  "            break",
  "        end",
  "",
  "        set subword (string sub --start=$char_index -- \"$word\")",
  "",
  "        if set --query subword_literal_transitions_inputs[$subword_state] && test -n $subword_literal_transitions_inputs[$subword_state]",
  "            set inputs (string split ' ' $subword_literal_transitions_inputs[$subword_state])",
  "            set tos (string split ' ' $subword_literal_transitions_tos[$subword_state])",
  "",
  "            set literal_matched 0",
  "            for literal_id in (seq 1 (count $subword_literals))",
  "                set literal $subword_literals[$literal_id]",
  "                set literal_len (string length -- \"$literal\")",
  "                set subword_slice (string sub --end=$literal_len -- \"$subword\")",
  "                if test $subword_slice = $literal",
  "                    set index (contains --index -- \"$literal_id\" $inputs)",
  "                    set subword_state $tos[$index]",
  "                    set char_index (math $char_index + $literal_len)",
  "                    set literal_matched 1",
  "                    break",
  "                end",
  "            end",
  "            if test $literal_matched -ne 0",
  "                continue",
  "            end",
  "        end",
  "",
  "        if set --query subword_nontail_regexes[$subword_state] && test -n $subword_nontail_regexes[$subword_state]",
  "            set regex_ids (string split ' ' $subword_nontail_regexes[$subword_state])",
  "            set tos (string split ' ' $subword_nontail_tos[$subword_state])",
  "",
  "            set nontail_matched 0",
  "            for regex_id in $regex_ids",
  "                set regex $subword_regexes[$regex_id]",
  "                string match --regex --quiet \"^(?<match>$regex).*\" -- $subword",
  "                if test -n \"$match\"",
  "                    set subword_state $tos[$regex_id]",
  "                    set match_len (string length -- $match)",
  "                    set char_index (math $char_index + $match_len)",
  "                    set nontail_matched 1",
  "                    break",
  "                end",
  "            end",
  "            if test $nontail_matched -ne 0",
  "                continue",
  "            end",
  "        end",
  "",
  "        set index (contains --index -- \"$subword_state\" $subword_match_anything_transitions_from)",
  "        if test -n \"$index\"",
  "            set subword_state $subword_match_anything_transitions_to[$index]",
  "            set matched 1",
  "            break",
  "        end",
  "",
  "        break",
  "    end",
  "",
  "    if test $mode = matches",
  "        return (math 1 - $matched)",
  "    end",
  "",
  "    set unmatched_suffix (string sub --start=$char_index -- $word)",
  "",
  "    set matched_prefix",
  "    if test $char_index -eq 1",
  "        set matched_prefix \"\"",
  "    else",
  "        set matched_prefix (string sub --end=(math $char_index - 1) -- \"$word\")",
  "    end",
  "",
  "    for fallback_level in (seq 0 $subword_max_fallback_level)",
  "        set candidates",
  "        set froms_name subword_literal_transitions_from_level_$fallback_level",
  "        set froms (string split ' ' $$froms_name)",
  "        if contains $subword_state $froms",
  "            set index (contains --index -- \"$subword_state\" $froms)",
  "            set transitions_name subword_literal_transitions_level_$fallback_level",
  "            printf 'set transitions (string split \\' \\' $%s[%d])' $transitions_name $index | source",
  "            for literal_id in $transitions",
  "                set unmatched_suffix_len (string length -- $unmatched_suffix)",
  "                if test $unmatched_suffix_len -gt 0",
  "                    set literal $subword_literals[$literal_id]",
  "                    set slice (string sub --end=$unmatched_suffix_len -- $literal)",
  "                    if test \"$slice\" != \"$unmatched_suffix\"",
  "                        continue",
  "                    end",
  "                end",
  "                set subword_descr_index (contains --index -- \"$literal_id\" $subword_descr_literal_ids)",
  "                if test -n \"$subword_descr_index\"",
  "                    set --append candidates (printf '%s%s\\t%s\\n' $matched_prefix $subword_literals[$literal_id] $subword_descrs[$subword_descr_ids[$subword_descr_index]])",
  "                else",
  "                    set --append candidates (printf '%s%s\\n' $matched_prefix $subword_literals[$literal_id])",
  "                end",
  "            end",
  "        end",
  "",
  "        set name subword_nontail_command_froms_level_$fallback_level",
  "        set commands $$name",
  "        set index (contains --index -- \"$subword_state\" $commands)",
  "        if test -n \"$index\"",
  "            set name subword_nontail_commands_level_$fallback_level",
  "            set commands (string split ' ' $$name)",
  "            set function_id $commands[$index]",
  s!"            set function_name _{command}_cmd_$function_id",
  "            set name subword_nontail_regexes_level_$fallback_level",
  "            set rxs (string split ' ' $$name)",
  "            set rx $subword_regexes[$rxs[$index]]",
  "            for line in ($function_name \"$COMP_WORDS[$COMP_CWORD]\")",
  "                string match --regex --quiet \"^(?<match>$rx).*\" -- $line",
  "                if test -n \"$match\"",
  "                    set --append candidates (printf \"%s%s\\n\" $matched_prefix $match)",
  "                end",
  "            end",
  "        end",
  "",
  "        set froms_name subword_commands_from_level_$fallback_level",
  "        set froms (string split ' ' $$froms_name)",
  "        set index (contains --index -- \"$subword_state\" $froms)",
  "        if test -n \"$index\"",
  "            printf 'set function_id $subword_commands_level_%s[%d]' $fallback_level $index | source",
  s!"            set function_name _{command}_cmd_$function_id",
  "            $function_name \"$matched_prefix\" | while read line",
  "                set --append candidates (printf '%s%s\\n' $matched_prefix $line)",
  "            end",
  "        end",
  "",
  "        printf '%s\\n' $candidates | __complgen_match && break",
  "    end",
  "end",
  ""]

/-- Numbers counted from zero, as they are written. -/
def fromOne (numbers : List Nat) : String := spacedNumbers (numbers.map (· + 1))

/-- The arrays of literals, of their descriptions and of patterns. -/
def wordLines (declare tag : String) (a : Automaton Input) (routines : Matcher.Routines) :
    List String :=
  let words := spaced ((literals a).map fun l => Quote.fish l.1)
  let patterns := spaced (routines.patterns.toList.map Quote.fish)
  [s!"    {declare} {tag}literals {words}", "", s!"    {declare} {tag}descrs"] ++
    (descriptions a).toList.zipIdx.map (fun (text, number) =>
      s!"    set {tag}descrs[{number + 1}] {Quote.fish text}") ++
    [s!"    {declare} {tag}descr_literal_ids {fromOne ((describedLiterals a).map Prod.fst)}",
      s!"    {declare} {tag}descr_ids {fromOne ((describedLiterals a).map Prod.snd)}",
      s!"    {declare} {tag}regexes {patterns}"]

/-- The arrays of the transitions that match anything. -/
def anythingLines (declare tag : String) (a : Automaton Input) : List String :=
  let moves := a.ambiguousMoves .fish
  ["", s!"    {declare} {tag}match_anything_transitions_from {fromOne (moves.map Prod.fst)}",
    s!"    {declare} {tag}match_anything_transitions_to {fromOne (moves.map Prod.snd)}"]

/-- The literals that leave a state, and their targets. -/
def literalRow (declare tag : String) (row : Nat × List (Nat × Nat)) : List String :=
  let inputs := Quote.fish (fromOne (row.2.map Prod.fst))
  let targets := Quote.fish (fromOne (row.2.map Prod.snd))
  [s!"    {declare} {tag}literal_transitions_inputs[{row.1 + 1}] {inputs}",
    s!"    {declare} {tag}literal_transitions_tos[{row.1 + 1}] {targets}"]

/-- The lines of the states in two tables, where the lines of a state stand together. -/
def rowLines (a : Automaton Input) (first second : Table (Nat × Nat))
    (firstRow secondRow : Nat × List (Nat × Nat) → List String) : List String :=
  a.states.toList.flatMap fun state =>
    ((first.lookup state).toList.flatMap fun found => firstRow (state, found)) ++
      ((second.lookup state).toList.flatMap fun found => secondRow (state, found))

/-- The tables for matching in a subword. -/
def subwordMatchingTables (a : Automaton Input) (routines : Matcher.Routines) :
    Result (List String) := do
  let patternRow (row : Nat × List (Nat × Nat)) : List String :=
    [s!"    set --global subword_nontail_regexes[{row.1 + 1}] {fromOne (row.2.map Prod.fst)}",
      s!"    set --global subword_nontail_tos[{row.1 + 1}] {fromOne (row.2.map Prod.snd)}"]
  let literalMoves ← literalMoves a
  let patternMoves ← patternMoves a .fish routines
  return wordLines "set --global" "subword_" a routines ++
    ["    set --global subword_literal_transitions_inputs"] ++
    rowLines a literalMoves patternMoves (literalRow "set --global" "subword_") patternRow ++
    anythingLines "set --global" "subword_" a

/-- The tables for matching words. -/
def matchingTables (a : Automaton Input) (routines : Matcher.Routines) : Result (List String) := do
  let patternRow (row : Nat × List (Nat × Nat)) : List String :=
    let entries := spaced (row.2.map fun e => s!"[{e.1}]={e.2 + 1}")
    [s!"    set nontail_transitions[{row.1 + 1}] {entries}"]
  let literalMoves ← literalMoves a
  let patternMoves ← patternMoves a .fish routines
  return wordLines "set" "" a routines ++
    ["    set literal_transitions_inputs", "    set nontail_transitions"] ++
    rowLines a literalMoves patternMoves (literalRow "set" "") patternRow ++
    anythingLines "set" "" a

/-- The array of the states of a table. -/
def fromsLine (name : String) (level : Nat) {β : Type} (table : Table β) : String :=
  s!"    {name}_level_{level} {fromOne (table.map Prod.fst)}"

/-- The numbers of each state of a table, written by the given function. -/
def valuesLine (name : String) (level : Nat) (write : String → String) (table : Table Nat) :
    String :=
  s!"    {name}_level_{level} {spaced (table.map fun row => write (spacedNumbers row.2))}"

/-- Lines for the table of each level. -/
def levelLines {β : Type} (tables : List (Table β)) (lines : Nat → Table β → List String) :
    List String :=
  tables.zipIdx.flatMap fun (table, level) => lines level table

/-- The function of a subword. -/
def subwordTables (command : String) (routines : Matcher.Routines) (number : Nat)
    (a : Automaton Input) : Result (List String) := do
  let matching ← subwordMatchingTables a routines
  let maxLevel ← maxLevel a
  let literalLevels ← literalLevels a
  let filteredLevels ← levels a (filteredCommand .fish routines)
  let commandLevels ← levels a (anyCommand .fish routines)
  return [s!"function _{command}_subword_{number}", "    set mode $argv[1]",
      "    set word $argv[2]", ""] ++ matching ++ [""] ++
    levelLines literalLevels (fun level table =>
      [fromsLine "set --global subword_literal_transitions_from" level table,
        valuesLine "set --global subword_literal_transitions" level Quote.fish
          (table.mapEntries (· + 1))]) ++
    levelLines filteredLevels (fun level table =>
      [fromsLine "set --global subword_nontail_command_froms" level table,
        valuesLine "set --global subword_nontail_commands" level id (table.mapEntries Prod.fst),
        valuesLine "set --global subword_nontail_regexes" level id
          (table.mapEntries (·.2 + 1))]) ++
    levelLines commandLevels (fun level table =>
      [fromsLine "set --global subword_commands_from" level table,
        valuesLine "set --global subword_commands" level id table]) ++
    [s!"    set --global subword_max_fallback_level {maxLevel}", "",
      s!"    set --global subword_state {a.start + 1}",
      s!"    _{command}_subword \"$mode\" \"$word\"",
      "end", "", ""]

/-- The start of the main function: what has been typed. -/
def mainOpening (command : String) : List String :=
  [s!"function _{command}",
  "    set COMP_LINE (commandline --cut-at-cursor)",
  "",
  "    set COMP_WORDS",
  "    echo $COMP_LINE | read --tokenize --array COMP_WORDS",
  "    if string match --quiet --regex '.*\\s$' $COMP_LINE",
  "        set COMP_CWORD (math (count $COMP_WORDS) + 1)",
  "    else",
  "        set COMP_CWORD (count $COMP_WORDS)",
  "    end",
  ""]

/-- The subwords that leave states, and their targets. -/
def subwordRows (table : Table (Nat × Nat)) : List String :=
  table.flatMap fun row =>
    let numbers := Quote.fish (spacedNumbers (row.2.map Prod.fst))
    let targets := Quote.fish (fromOne (row.2.map Prod.snd))
    [s!"    set subword_transitions_ids[{row.1 + 1}] {numbers}",
      s!"    set subword_transitions_tos[{row.1 + 1}] {targets}"]

/-- The loop over the words before the cursor, up to matching literals. -/
def matchLiterals (start : Nat) : List String :=
  ["",
  s!"    set state {start}",
  "    set word_index 2",
  "    while test $word_index -lt $COMP_CWORD",
  "        set -- word $COMP_WORDS[$word_index]",
  "",
  "        if set --query literal_transitions_inputs[$state] && test -n $literal_transitions_inputs[$state]",
  "            set inputs (string split ' ' $literal_transitions_inputs[$state])",
  "            set tos (string split ' ' $literal_transitions_tos[$state])",
  "",
  "            set literal_id (contains --index -- \"$word\" $literals)",
  "            if test -n \"$literal_id\"",
  "                set index (contains --index -- \"$literal_id\" $inputs)",
  "                set state $tos[$index]",
  "                set word_index (math $word_index + 1)",
  "                continue",
  "            end",
  "        end"]

/-- Matching subwords, in that loop. -/
def matchSubwords (command : String) : List String :=
  ["",
  "        if set --query subword_transitions_ids[$state] && test -n $subword_transitions_ids[$state]",
  "            set subword_ids (string split ' ' $subword_transitions_ids[$state])",
  "            set tos $subword_transitions_tos[$state]",
  "",
  "            set subword_matched 0",
  "            for subword_id in $subword_ids",
  s!"                if _{command}_subword_$subword_id matches \"$word\"",
  "                    set subword_matched 1",
  "                    set state $tos[$subword_id]",
  "                    set word_index (math $word_index + 1)",
  "                    break",
  "                end",
  "            end",
  "            if test $subword_matched -ne 0",
  "                continue",
  "            end",
  "        end"]

/-- Matching anything, and the end of that loop. -/
def matchAnything : List String :=
  ["",
  "        if set --query match_anything_transitions_from[$state] && test -n $match_anything_transitions_from[$state]",
  "            set index (contains --index -- \"$state\" $match_anything_transitions_from)",
  "            set state $match_anything_transitions_to[$index]",
  "            set word_index (math $word_index + 1)",
  "            continue",
  "        end",
  "",
  "        return 1",
  "    end",
  ""]

/-- The start of the loop over the fallback levels, which collects literals. -/
def completeLiterals (maxLevel : Nat) : List String :=
  ["",
  s!"    for fallback_level in (seq 0 {maxLevel})",
  "        set candidates",
  "        set froms_name literal_froms_level_$fallback_level",
  "        set froms $$froms_name",
  "        set index (contains --index -- \"$state\" $froms)",
  "        if test -n \"$index\"",
  "            set level_inputs_name literal_inputs_level_$fallback_level",
  "            set input_assoc_values (string split '|' $$level_inputs_name)",
  "            set state_inputs (string split ' ' $input_assoc_values[$index])",
  "            for literal_id in $state_inputs",
  "                set descr_index (contains --index -- \"$literal_id\" $descr_literal_ids)",
  "                if test -n \"$descr_index\"",
  "                    set --append candidates (printf '%s\\t%s\\n' $literals[$literal_id] $descrs[$descr_ids[$descr_index]])",
  "                else",
  "                    set --append candidates (printf '%s\\n' $literals[$literal_id])",
  "                end",
  "            end",
  "        end"]

/-- Collecting the completions of subwords, in that loop. -/
def completeSubwords (command : String) : List String :=
  ["",
  "        set subwords_name subword_froms_level_$fallback_level",
  "        set subwords $$subwords_name",
  "        set index (contains --index -- \"$state\" $subwords)",
  "        if test -n \"$index\"",
  "            set subwords_name subwords_level_$fallback_level",
  "            set subwords (string split ' ' $$subwords_name)",
  "            for id in $subwords",
  s!"                set function_name _{command}_subword_$id",
  "                set --append candidates ($function_name complete \"$COMP_WORDS[$COMP_CWORD]\")",
  "            end",
  "        end"]

/-- Collecting the output of commands, in that loop. -/
def completeCommands (command : String) : List String :=
  ["",
  "        set commands_name command_froms_level_$fallback_level",
  "        set commands $$commands_name",
  "        set index (contains --index -- \"$state\" $commands)",
  "        if test -n \"$index\"",
  "            set commands_name commands_level_$fallback_level",
  "            set commands (string split ' ' $$commands_name)",
  "            set function_id $commands[$index]",
  s!"            set function_name _{command}_cmd_$function_id",
  "            set --append candidates ($function_name \"$COMP_WORDS[$COMP_CWORD]\")",
  "        end"]

/-- Collecting the output of commands with patterns, in that loop. -/
def completePatterns (command : String) : List String :=
  ["",
  "        set name nontail_command_froms_level_$fallback_level",
  "        set commands $$name",
  "        set index (contains --index -- \"$state\" $commands)",
  "        if test -n \"$index\"",
  "            set name nontail_commands_level_$fallback_level",
  "            set commands (string split ' ' $$name)",
  "            set function_id $commands[$index]",
  s!"            set function_name _{command}_cmd_$function_id",
  "            set name nontail_regexes_level_$fallback_level",
  "            set rxs (string split ' ' $$name)",
  "            set rx $regexes[$rxs[$index]]",
  "            for line in ($function_name \"$COMP_WORDS[$COMP_CWORD]\")",
  "                string match --regex --quiet \"^(?<match>$rx).*\" -- $line",
  "                if test -n \"$match\"",
  "                    set --append candidates \"$match\"",
  "                end",
  "            end",
  "        end"]

/-- The end of that loop and of the main function. -/
def mainClosing : List String :=
  ["        printf '%s\\n' $candidates | __complgen_match $COMP_WORDS[$word_index] && return 0",
  "    end",
  "end",
  ""]

/-- The tables of what states offer. Those of subwords and of commands are written if the first level
has any. -/
def levelTables (literalLevels subwordLevels commandLevels : List (Table Nat))
    (filteredLevels : List (Table (Nat × Nat))) : List String :=
  levelLines literalLevels (fun level table =>
      let inputs := String.intercalate "|" <|
        (table.mapEntries (· + 1)).map fun row => spacedNumbers row.2
      [fromsLine "set literal_froms" level table,
        s!"    set literal_inputs_level_{level} {Quote.fish inputs}"]) ++
    (if (subwordLevels.headD []).isEmpty then []
      else levelLines subwordLevels fun level table =>
        [fromsLine "set subword_froms" level table,
          valuesLine "set subwords" level Quote.doubleQuoted table]) ++
    levelLines filteredLevels (fun level table =>
      [fromsLine "set nontail_command_froms" level table,
        valuesLine "set nontail_commands" level Quote.doubleQuoted (table.mapEntries Prod.fst),
        valuesLine "set nontail_regexes" level Quote.doubleQuoted (table.mapEntries (·.2 + 1))]) ++
    (if (commandLevels.headD []).isEmpty then []
      else levelLines commandLevels fun level table =>
        [fromsLine "set command_froms" level table,
          valuesLine "set commands" level Quote.doubleQuoted table])

/-- The completion script for fish. -/
def script (command : String) (m : Matcher) : Result String := do
  Quote.checkFishCommand command
  let a := m.main
  let routines ← m.routines .fish
  let numbers := a.numberedSubwords 1
  let subwords ← numbers.mapM fun (id, number) => do
    subwordTables command routines number (← m.subword id)
  let matching ← matchingTables a routines
  let subwordMoves ← subwordMoves a numbers
  let maxLevel ← maxLevel a
  let literalLevels ← literalLevels a
  let subwordLevels ← levels a (offeredSubword numbers)
  let commandLevels ← levels a (anyCommand .fish routines)
  let filteredLevels ← levels a (filteredCommand .fish routines)
  return ofLines <|
    routines.commands.toList.zipIdx.flatMap (commandFunction command) ++
    (if numbers.isEmpty then [] else subwordFunction command) ++
    subwords.flatten ++
    matchFunction ++
    mainOpening command ++ matching ++ subwordRows subwordMoves ++
    matchLiterals (a.start + 1) ++
    (if a.hasSubwords then matchSubwords command else []) ++
    matchAnything ++
    levelTables literalLevels subwordLevels commandLevels filteredLevels ++
    completeLiterals maxLevel ++
    (if (subwordLevels.headD []).isEmpty then [] else completeSubwords command) ++
    (if (commandLevels.headD []).isEmpty then [] else completeCommands command) ++
    (if (filteredLevels.headD []).isEmpty then [] else completePatterns command) ++
    mainClosing ++
    [s!"complete --erase {command}",
      s!"complete --command {command} --no-files --arguments \"(_{command})\""]

end ShellCompletion.Script.Fish
