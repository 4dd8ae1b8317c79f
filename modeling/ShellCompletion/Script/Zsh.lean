import ShellCompletion.Script.Quote
import ShellCompletion.Script.Table

/-!
# Scripts for zsh

Arrays of zsh start at one, so states, literals and patterns are written one higher than they are
numbered. The tables of a subword have names of their own, because variables of a function are seen by
the functions it calls.
-/

namespace ShellCompletion.Script.Zsh

/-- The function that runs a command. -/
def commandFunction (command : String) (routine : String × Nat) : List String :=
  [s!"_{command}_cmd_{routine.2} () \x7b",
  s!"    {routine.1}",
  "\x7d",
  ""]

/-- The function that matches and completes a word by the tables of a subword. -/
def subwordFunction (command : String) : List String :=
  [s!"_{command}_subword () \x7b",
  "    declare mode=$1",
  "    declare word=$2",
  "",
  "    declare char_index=0",
  "    declare matched=0",
  "    while true; do",
  "        if [[ $char_index -ge $\x7b#word\x7d ]]; then",
  "            matched=1",
  "            break",
  "        fi",
  "",
  "        declare subword=$\x7bword:$char_index\x7d",
  "",
  "        if [[ -v \"subword_literal_transitions[$subword_state]\" ]]; then",
  "            eval \"declare -A state_transitions=$\x7bsubword_literal_transitions[$subword_state]\x7d\"",
  "",
  "            declare literal_matched=0",
  "            for ((literal_id = 1; literal_id <= $#subword_literals; literal_id++)); do",
  "                declare literal=$\x7bsubword_literals[$literal_id]\x7d",
  "                declare literal_len=$\x7b#literal\x7d",
  "                if [[ $\x7bsubword:0:$literal_len\x7d = \"$literal\" ]]; then",
  "                    if [[ -v \"state_transitions[$literal_id]\" ]]; then",
  "                        subword_state=$\x7bstate_transitions[$literal_id]\x7d",
  "                        char_index=$((char_index + literal_len))",
  "                        literal_matched=1",
  "                    fi",
  "                fi",
  "            done",
  "            if [[ $literal_matched -ne 0 ]]; then",
  "                continue",
  "            fi",
  "        fi",
  "",
  "        if [[ -v \"subword_nontail_transitions[$subword_state]\" ]]; then",
  "            eval \"declare -A state_nontails=$\x7bsubword_nontail_transitions[$subword_state]\x7d\"",
  "",
  "            declare nontail_matched=0",
  "            for regex_id in \"$\x7b(k)state_nontails\x7d\"; do",
  "                declare regex=\"^($\x7bsubword_regexes[$regex_id]\x7d).*\"",
  "                if [[ $\x7bsubword\x7d =~ $regex && -n $\x7bmatch[1]\x7d ]]; then",
  "                    match=\"$\x7bmatch[1]\x7d\"",
  "                    match_len=$\x7b#match\x7d",
  "                    char_index=$((char_index + match_len))",
  "                    subword_state=$\x7bstate_nontails[$regex_id]\x7d",
  "                    nontail_matched=1",
  "                    break",
  "                fi",
  "            done",
  "            if [[ $nontail_matched -ne 0 ]]; then",
  "                continue",
  "            fi",
  "        fi",
  "",
  "        if [[ -v \"subword_match_anything_transitions[$subword_state]\" ]]; then",
  "            subword_state=$\x7bsubword_match_anything_transitions[$subword_state]\x7d",
  "            matched=1",
  "            break",
  "        fi",
  "",
  "        break",
  "    done",
  "",
  "    if [[ $mode = matches ]]; then",
  "        return $((1 - matched))",
  "    fi",
  "",
  "    declare matched_prefix=\"$\x7bword:0:$char_index\x7d\"",
  "    declare completed_prefix=\"$\x7bword:$char_index\x7d\"",
  "",
  "    subword_completions_no_description_trailing_space=()",
  "    subword_completions_trailing_space=()",
  "    subword_completions_no_trailing_space=()",
  "    subword_suffixes_trailing_space=()",
  "    subword_suffixes_no_trailing_space=()",
  "    subword_descriptions_trailing_space=()",
  "    subword_descriptions_no_trailing_space=()",
  "",
  "    for (( subword_fallback_level=0; subword_fallback_level <= subword_max_fallback_level; subword_fallback_level++ )); do",
  "        declare literal_transitions_name=subword_literal_transitions_level_$\x7bsubword_fallback_level\x7d",
  "        eval \"declare initializer=\\$\x7b$\x7bliteral_transitions_name\x7d[$subword_state]\x7d\"",
  "        eval \"declare -a transitions=($initializer)\"",
  "        for literal_id in \"$\x7btransitions[@]\x7d\"; do",
  "            declare literal=$\x7bsubword_literals[$literal_id]\x7d",
  "            if [[ $literal = \"$\x7bcompleted_prefix\x7d\"* ]]; then",
  "                declare completion=\"$matched_prefix$literal\"",
  "                if [[ -v \"subword_descr_id_from_literal_id[$literal_id]\" ]]; then",
  "                    declare descr_id=$subword_descr_id_from_literal_id[$literal_id]",
  "                    subword_completions_no_trailing_space+=(\"$\x7bcompletion\x7d\")",
  "                    subword_suffixes_no_trailing_space+=(\"$\x7bcompletion\x7d\")",
  "                    subword_descriptions_no_trailing_space+=(\"$\x7bsubword_descrs[$descr_id]\x7d\")",
  "                else",
  "                    subword_completions_no_trailing_space+=(\"$\x7bcompletion\x7d\")",
  "                    subword_suffixes_no_trailing_space+=(\"$\x7bliteral\x7d\")",
  "                    subword_descriptions_no_trailing_space+=('')",
  "                fi",
  "            fi",
  "        done",
  "",
  "        declare commands_name=subword_nontail_commands_level_$\x7bsubword_fallback_level\x7d",
  "        eval \"declare commands_initializer=\\$\x7b$\x7bcommands_name\x7d[$subword_state]\x7d\"",
  "        eval \"declare -a command_transitions=($commands_initializer)\"",
  "        declare regexes_name=subword_nontail_regexes_level_$\x7bsubword_fallback_level\x7d",
  "        eval \"declare regexes_initializer=\\$\x7b$\x7bregexes_name\x7d[$subword_state]\x7d\"",
  "        eval \"declare -a regexes_transitions=($regexes_initializer)\"",
  "        for (( i=1; i <= $\x7b#command_transitions[@]\x7d; i++ )); do",
  "            declare command_id=$\x7bcommand_transitions[$i]\x7d",
  "            declare regex_id=$\x7bregexes_transitions[$i]\x7d",
  "            declare regex=\"^($\x7bsubword_regexes[$regex_id]\x7d).*\"",
  "            declare candidates=()",
  s!"            declare output=$(_{command}_cmd_$\x7bcommand_id\x7d \"$matched_prefix\")",
  "            declare -a command_completions=(\"$\x7b(@f)output\x7d\")",
  "            for line in $\x7bcommand_completions[@]\x7d; do",
  "                if [[ $line = \"$\x7bcompleted_prefix\x7d\"* ]]; then",
  "                    declare parts=($\x7b(@s:\t:)line\x7d)",
  "                    if [[ $\x7bparts[1]\x7d =~ $regex && -n $\x7bmatch[1]\x7d ]]; then",
  "                        parts[1]=$\x7bmatch[1]\x7d",
  "                        if [[ -v \"parts[2]\" ]]; then",
  "                            declare completion=$matched_prefix$\x7bparts[1]\x7d",
  "                            subword_completions_trailing_space+=(\"$\x7bcompletion\x7d\")",
  "                            subword_suffixes_trailing_space+=(\"$\x7bparts[1]\x7d\")",
  "                            subword_descriptions_trailing_space+=(\"$\x7bparts[2]\x7d\")",
  "                        else",
  "                            subword_completions_no_description_trailing_space+=(\"$matched_prefix$\x7bparts[1]\x7d\")",
  "                        fi",
  "                    fi",
  "                fi",
  "            done",
  "        done",
  "",
  "        declare commands_name=subword_commands_level_$\x7bsubword_fallback_level\x7d",
  "        eval \"declare initializer=\\$\x7b$\x7bcommands_name\x7d[$subword_state]\x7d\"",
  "        eval \"declare -a transitions=($initializer)\"",
  "        for command_id in \"$\x7btransitions[@]\x7d\"; do",
  "            declare candidates=()",
  s!"            declare output=$(_{command}_cmd_$\x7bcommand_id\x7d \"$matched_prefix\")",
  "            declare -a command_completions=(\"$\x7b(@f)output\x7d\")",
  "            for line in $\x7bcommand_completions[@]\x7d; do",
  "                if [[ $line = \"$\x7bcompleted_prefix\x7d\"* ]]; then",
  "                    declare parts=($\x7b(@s:\t:)line\x7d)",
  "                    if [[ -v \"parts[2]\" ]]; then",
  "                        declare completion=$matched_prefix$\x7bparts[1]\x7d",
  "                        subword_completions_trailing_space+=(\"$\x7bcompletion\x7d\")",
  "                        subword_suffixes_trailing_space+=(\"$\x7bparts[1]\x7d\")",
  "                        subword_descriptions_trailing_space+=(\"$\x7bparts[2]\x7d\")",
  "                    else",
  "                        line=\"$matched_prefix$line\"",
  "                        subword_completions_no_description_trailing_space+=(\"$line\")",
  "                    fi",
  "                fi",
  "            done",
  "        done",
  "",
  "        declare specialized_commands_name=subword_specialized_commands_level_$\x7bsubword_fallback_level\x7d",
  "        eval \"declare initializer=\\$\x7b$\x7bspecialized_commands_name\x7d[$subword_state]\x7d\"",
  "        eval \"declare -a transitions=($initializer)\"",
  "        for command_id in \"$\x7btransitions[@]\x7d\"; do",
  s!"            declare output=$(_{command}_cmd_$\x7bcommand_id\x7d \"$matched_prefix\")",
  "            declare -a candidates=(\"$\x7b(@f)output\x7d\")",
  "            for line in $\x7bcandidates[@]\x7d; do",
  "                if [[ $line = \"$\x7bcompleted_prefix\x7d\"* ]]; then",
  "                    line=\"$matched_prefix$line\"",
  "                    declare parts=($\x7b(@s:\t:)line\x7d)",
  "                    if [[ -v \"parts[2]\" ]]; then",
  "                        subword_completions_trailing_space+=(\"$\x7bparts[1]\x7d\")",
  "                        subword_suffixes_trailing_space+=(\"$\x7bparts[1]\x7d\")",
  "                        subword_descriptions_trailing_space+=(\"$\x7bparts[2]\x7d\")",
  "                    else",
  "                        subword_completions_no_description_trailing_space+=(\"$line\")",
  "                    fi",
  "                fi",
  "            done",
  "        done",
  "",
  "        if [[ $\x7b#subword_completions_no_description_trailing_space\x7d -gt 0 || $\x7b#subword_completions_trailing_space\x7d -gt 0 || $\x7b#subword_completions_no_trailing_space\x7d -gt 0 ]]; then",
  "            break",
  "        fi",
  "    done",
  "    return 0",
  "\x7d",
  ""]

/-- Entries of an array, whose keys are given as they are written and whose values are states. -/
def pairs (entries : List (Nat × Nat)) : String :=
  spaced (entries.map fun e => s!"[{e.1}]={e.2 + 1}")

/-- Assignments of rows to an array. -/
def rowLines (name : String) (table : Table (Nat × Nat)) : List String :=
  table.map fun row => s!"    {name}[{row.1 + 1}]=\"({pairs row.2})\""

/-- Keys that are numbered from zero, as they are written. -/
def fromOne (entry : Nat × Nat) : Nat × Nat := (entry.1 + 1, entry.2)

/-- The tables for matching, with names that begin with the given text. -/
def matchingTables (tag : String) (a : Automaton Input) (routines : Matcher.Routines) :
    Result (List String) := do
  let literalRows := (← literalMoves a).mapEntries fromOne
  let patternRows := (← patternMoves a .zsh routines).mapEntries fromOne
  let words := spaced ((literals a).map fun l => Quote.zsh l.1)
  let patterns := spaced (routines.patterns.toList.map Quote.zsh)
  let described := spaced ((describedLiterals a).map fun d => s!"[{d.1 + 1}]={d.2}")
  let anything := pairs ((a.ambiguousMoves .zsh).map fromOne)
  return [s!"    declare -a {tag}literals=({words})",
      s!"    declare -A {tag}descrs=()"] ++
    (descriptions a).toList.zipIdx.map (fun (text, number) =>
      s!"    {tag}descrs[{number}]={Quote.zsh text}") ++
    [s!"    declare -A {tag}descr_id_from_literal_id=({described})",
      s!"    declare -a {tag}regexes=({patterns})",
      s!"    declare -A {tag}literal_transitions=()"] ++
    rowLines s!"{tag}literal_transitions" literalRows ++
    [s!"    declare -A {tag}nontail_transitions=()"] ++
    rowLines s!"{tag}nontail_transitions" patternRows ++
    [s!"    declare -A {tag}match_anything_transitions=({anything})"]

/-- The declaration of the table of one level. -/
def levelLine (name : String) (level : Nat) (table : Table Nat) : String :=
  let rows := spaced (table.map fun row => s!"[{row.1 + 1}]=\"{spacedNumbers row.2}\"")
  s!"    declare -A {name}_level_{level}=({rows})"

/-- The declarations of the tables of all levels. -/
def levelLines (name : String) (tables : List (Table Nat)) : List String :=
  tables.zipIdx.map fun (table, level) => levelLine name level table

/-- The declarations of the tables of literals. -/
def literalLines (tag : String) (tables : List (Table Nat)) : List String :=
  levelLines s!"{tag}literal_transitions" (tables.map (Table.mapEntries (· + 1)))

/-- The declarations of the tables of commands with patterns. -/
def filteredLines (tag : String) (tables : List (Table (Nat × Nat))) : List String :=
  tables.zipIdx.flatMap fun (table, level) =>
    [levelLine s!"{tag}nontail_commands" level (table.mapEntries Prod.fst),
      levelLine s!"{tag}nontail_regexes" level (table.mapEntries (·.2 + 1))]

/-- The function of a subword. -/
def subwordTables (command : String) (routines : Matcher.Routines) (number : Nat)
    (a : Automaton Input) : Result (List String) := do
  let matching ← matchingTables "subword_" a routines
  let maxLevel ← maxLevel a
  let literalLevels ← literalLevels a
  let commandLevels ← levels a (plainCommand routines)
  let specializedLevels ← levels a (specializedCommand .zsh routines)
  let filteredLevels ← levels a (filteredCommand .zsh routines)
  return [s!"_{command}_subword_{number} () \x7b"] ++ matching ++
    literalLines "subword_" literalLevels ++
    levelLines "subword_commands" commandLevels ++
    levelLines "subword_specialized_commands" specializedLevels ++
    filteredLines "subword_" filteredLevels ++
    [s!"    declare subword_max_fallback_level={maxLevel}",
      s!"    declare subword_state={a.start + 1}",
      s!"    _{command}_subword \"$@\"",
      "\x7d", ""]

/-- The loop over the words before the cursor, up to matching literals. -/
def matchLiterals (start : Nat) : List String :=
  ["",
  s!"    declare state={start}",
  "    declare word_index=2",
  "    while [[ $word_index -lt $CURRENT ]]; do",
  "        if [[ -v \"literal_transitions[$state]\" ]]; then",
  "            eval \"declare -A state_transitions=$\x7bliteral_transitions[$state]\x7d\"",
  "",
  "            declare word=$\x7bwords[$word_index]\x7d",
  "            declare word_matched=0",
  "            for ((literal_id = 1; literal_id <= $#literals; literal_id++)); do",
  "                if [[ $\x7bliterals[$literal_id]\x7d = \"$word\" ]]; then",
  "                    if [[ -v \"state_transitions[$literal_id]\" ]]; then",
  "                        state=$\x7bstate_transitions[$literal_id]\x7d",
  "                        word_index=$((word_index + 1))",
  "                        word_matched=1",
  "                        break",
  "                    fi",
  "                fi",
  "            done",
  "            if [[ $word_matched -ne 0 ]]; then",
  "                continue",
  "            fi",
  "        fi"]

/-- Matching commands by their patterns, in that loop. -/
def matchPatterns : List String :=
  ["",
  "        if [[ -v \"nontail_transitions[$state]\" ]]; then",
  "            eval \"declare -A state_nontails=$\x7bnontail_transitions[$state]\x7d\"",
  "            declare nontail_matched=0",
  "            for regex_id in \"$\x7b(k)state_nontails\x7d\"; do",
  "                declare regex=\"^($\x7bregexes[$regex_id]\x7d).*\"",
  "                if [[ $\x7bsubword\x7d =~ $regex && -n $\x7bmatch[1]\x7d ]]; then",
  "                    match=\"$\x7bmatch[1]\x7d\"",
  "                    match_len=$\x7b#match\x7d",
  "                    char_index=$((char_index + match_len))",
  "                    state=$\x7bstate_nontails[$regex_id]\x7d",
  "                    nontail_matched=1",
  "                    break",
  "                fi",
  "            done",
  "            if [[ $nontail_matched -ne 0 ]]; then",
  "                continue",
  "            fi",
  "        fi",
  ""]

/-- Matching subwords, in that loop. -/
def matchSubwords (command : String) : List String :=
  ["",
  "        if [[ -v \"subword_transitions[$state]\" ]]; then",
  "            eval \"declare -A state_transitions=$\x7bsubword_transitions[$state]\x7d\"",
  "",
  "            declare subword_matched=0",
  "            for subword_id in $\x7b(k)state_transitions\x7d; do",
  s!"                if _{command}_subword_\"$\x7bsubword_id\x7d\" matches \"$word\"; then",
  "                    subword_matched=1",
  "                    state=$\x7bstate_transitions[$subword_id]\x7d",
  "                    word_index=$((word_index + 1))",
  "                    break",
  "                fi",
  "            done",
  "            if [[ $subword_matched -ne 0 ]]; then",
  "                continue",
  "            fi",
  "        fi"]

/-- Matching anything, and the end of that loop. -/
def matchAnything : List String :=
  ["",
  "        if [[ -v \"match_anything_transitions[$state]\" ]]; then",
  "            state=$\x7bmatch_anything_transitions[$state]\x7d",
  "            word_index=$((word_index + 1))",
  "            continue",
  "        fi",
  "",
  "        return 1",
  "    done",
  ""]

/-- The loop over the fallback levels that offers candidates, and the end of the main function. -/
def complete (command : String) (maxLevel : Nat) : List String :=
  ["",
  s!"    declare max_fallback_level={maxLevel}",
  "    for (( fallback_level=0; fallback_level <= max_fallback_level; fallback_level++ )); do",
  "        completions_no_description_trailing_space=()",
  "        completions_no_description_no_trailing_space=()",
  "        completions_trailing_space=()",
  "        suffixes_trailing_space=()",
  "        descriptions_trailing_space=()",
  "        completions_no_trailing_space=()",
  "        suffixes_no_trailing_space=()",
  "        descriptions_no_trailing_space=()",
  "        matches=()",
  "",
  "        declare literal_transitions_name=literal_transitions_level_$\x7bfallback_level\x7d",
  "        eval \"declare initializer=\\$\x7b$\x7bliteral_transitions_name\x7d[$state]\x7d\"",
  "        eval \"declare -a transitions=($initializer)\"",
  "        for literal_id in \"$\x7btransitions[@]\x7d\"; do",
  "            if [[ -v \"descr_id_from_literal_id[$literal_id]\" ]]; then",
  "                declare descr_id=$descr_id_from_literal_id[$literal_id]",
  "                completions_trailing_space+=(\"$\x7bliterals[$literal_id]\x7d\")",
  "                suffixes_trailing_space+=(\"$\x7bliterals[$literal_id]\x7d\")",
  "                descriptions_trailing_space+=(\"$\x7bdescrs[$descr_id]\x7d\")",
  "            else",
  "                completions_no_description_trailing_space+=(\"$\x7bliterals[$literal_id]\x7d\")",
  "            fi",
  "        done",
  "",
  "        declare subword_transitions_name=subword_transitions_level_$\x7bfallback_level\x7d",
  "        eval \"declare initializer=\\$\x7b$\x7bsubword_transitions_name\x7d[$state]\x7d\"",
  "        eval \"declare -a transitions=($initializer)\"",
  "        for subword_id in \"$\x7btransitions[@]\x7d\"; do",
  s!"            _{command}_subword_$\x7bsubword_id\x7d complete \"$\x7bwords[$CURRENT]\x7d\"",
  "            completions_no_description_trailing_space+=(\"$\x7bsubword_completions_no_description_trailing_space[@]\x7d\")",
  "            completions_trailing_space+=(\"$\x7bsubword_completions_trailing_space[@]\x7d\")",
  "            completions_no_trailing_space+=(\"$\x7bsubword_completions_no_trailing_space[@]\x7d\")",
  "            suffixes_no_trailing_space+=(\"$\x7bsubword_suffixes_no_trailing_space[@]\x7d\")",
  "            suffixes_trailing_space+=(\"$\x7bsubword_suffixes_trailing_space[@]\x7d\")",
  "            descriptions_trailing_space+=(\"$\x7bsubword_descriptions_trailing_space[@]\x7d\")",
  "            descriptions_no_trailing_space+=(\"$\x7bsubword_descriptions_no_trailing_space[@]\x7d\")",
  "        done",
  "",
  "        declare commands_name=commands_level_$\x7bfallback_level\x7d",
  "        eval \"declare initializer=\\$\x7b$\x7bcommands_name\x7d[$state]\x7d\"",
  "        eval \"declare -a transitions=($initializer)\"",
  "        for command_id in \"$\x7btransitions[@]\x7d\"; do",
  s!"            declare output=$(_{command}_cmd_$\x7bcommand_id\x7d \"$\x7bwords[$CURRENT]\x7d\")",
  "            declare -a command_completions=(\"$\x7b(@f)output\x7d\")",
  "            for line in $\x7bcommand_completions[@]\x7d; do",
  "                declare parts=($\x7b(@s:\t:)line\x7d)",
  "                if [[ -v \"parts[2]\" ]]; then",
  "                    completions_trailing_space+=(\"$\x7bparts[1]\x7d\")",
  "                    suffixes_trailing_space+=(\"$\x7bparts[1]\x7d\")",
  "                    descriptions_trailing_space+=(\"$\x7bparts[2]\x7d\")",
  "                else",
  "                    completions_no_description_trailing_space+=(\"$\x7bparts[1]\x7d\")",
  "                fi",
  "            done",
  "        done",
  "",
  "        declare commands_name=nontail_commands_level_$\x7bfallback_level\x7d",
  "        eval \"declare command_initializer=\\$\x7b$\x7bcommands_name\x7d[$state]\x7d\"",
  "        eval \"declare -a command_transitions=($command_initializer)\"",
  "        declare regexes_name=nontail_regexes_level_$\x7bfallback_level\x7d",
  "        eval \"declare regexes_initializer=\\$\x7b$\x7bregexes_name\x7d[$state]\x7d\"",
  "        eval \"declare -a regexes_transitions=($regexes_initializer)\"",
  "        for (( i=1; i <= $\x7b#command_transitions[@]\x7d; i++ )); do",
  "            declare command_id=$\x7bcommand_transitions[$i]\x7d",
  "            declare regex_id=$\x7bregexes_transitions[$i]\x7d",
  "            declare regex=\"^($\x7bregexes[$regex_id]\x7d).*\"",
  s!"            declare output=$(_{command}_cmd_$\x7bcommand_id\x7d \"$\x7bwords[$CURRENT]\x7d\")",
  "            declare -a command_completions=(\"$\x7b(@f)output\x7d\")",
  "            for line in $\x7bcommand_completions[@]\x7d; do",
  "                declare parts=($\x7b(@s:\t:)line\x7d)",
  "                if [[ $\x7bparts[1]\x7d =~ $regex && -n $\x7bmatch[1]\x7d ]]; then",
  "                    parts[1]=$\x7bmatch[1]\x7d",
  "                    if [[ -v \"parts[2]\" ]]; then",
  "                        completions_trailing_space+=(\"$\x7bparts[1]\x7d\")",
  "                        suffixes_trailing_space+=(\"$\x7bparts[1]\x7d\")",
  "                        descriptions_trailing_space+=(\"$\x7bparts[2]\x7d\")",
  "                    else",
  "                        completions_no_description_trailing_space+=(\"$\x7bparts[1]\x7d\")",
  "                    fi",
  "                fi",
  "            done",
  "        done",
  "",
  "        declare specialized_commands_name=specialized_commands_level_$\x7bfallback_level\x7d",
  "        eval \"declare initializer=\\$\x7b$\x7bspecialized_commands_name\x7d[$state]\x7d\"",
  "        eval \"declare -a transitions=($initializer)\"",
  "        for command_id in \"$\x7btransitions[@]\x7d\"; do",
  s!"            _{command}_cmd_$\x7bcommand_id\x7d $\x7bwords[$CURRENT]\x7d",
  "        done",
  "",
  "        declare maxlen=0",
  "        for suffix in $\x7bsuffixes_trailing_space[@]\x7d; do",
  "            if [[ $\x7b#suffix\x7d -gt $maxlen ]]; then",
  "                maxlen=$\x7b#suffix\x7d",
  "            fi",
  "        done",
  "        for suffix in $\x7bsuffixes_no_trailing_space[@]\x7d; do",
  "            if [[ $\x7b#suffix\x7d -gt $maxlen ]]; then",
  "                maxlen=$\x7b#suffix\x7d",
  "            fi",
  "        done",
  "",
  "        for ((i = 1; i <= $#suffixes_trailing_space; i++)); do",
  "            if [[ -z $\x7bdescriptions_trailing_space[$i]\x7d ]]; then",
  "                descriptions_trailing_space[$i]=\"$\x7b(r($maxlen)( ))$\x7bsuffixes_trailing_space[$i]\x7d\x7d\"",
  "            else",
  "                descriptions_trailing_space[$i]=\"$\x7b(r($maxlen)( ))$\x7bsuffixes_trailing_space[$i]\x7d\x7d -- $\x7bdescriptions_trailing_space[$i]\x7d\"",
  "            fi",
  "        done",
  "",
  "        for ((i = 1; i <= $#suffixes_no_trailing_space; i++)); do",
  "            if [[ -z $\x7bdescriptions_no_trailing_space[$i]\x7d ]]; then",
  "                descriptions_no_trailing_space[$i]=\"$\x7b(r($maxlen)( ))$\x7bsuffixes_no_trailing_space[$i]\x7d\x7d\"",
  "            else",
  "                descriptions_no_trailing_space[$i]=\"$\x7b(r($maxlen)( ))$\x7bsuffixes_no_trailing_space[$i]\x7d\x7d -- $\x7bdescriptions_no_trailing_space[$i]\x7d\"",
  "            fi",
  "        done",
  "",
  "        compadd -O m -a completions_no_description_trailing_space; matches+=(\"$\x7bm[@]\x7d\")",
  "        compadd -O m -a completions_no_description_no_trailing_space; matches+=(\"$\x7bm[@]\x7d\")",
  "        compadd -O m -a completions_trailing_space; matches+=(\"$\x7bm[@]\x7d\")",
  "        compadd -O m -a completions_no_trailing_space; matches+=(\"$\x7bm[@]\x7d\")",
  "",
  "        if [[ $\x7b#matches\x7d -gt 0 ]]; then",
  "            compadd -Q -a completions_no_description_trailing_space",
  "            compadd -Q -S ' ' -a completions_no_description_no_trailing_space",
  "            compadd -l -Q -a -d descriptions_trailing_space completions_trailing_space",
  "            compadd -l -Q -S '' -a -d descriptions_no_trailing_space completions_no_trailing_space",
  "            return 0",
  "        fi",
  "    done",
  "\x7d"]

/-- The registration of the main function, or its call when it is loaded on demand. -/
def registration (command : String) : List String :=
  ["",
  "if [[ $ZSH_EVAL_CONTEXT =~ :file$ ]]; then",
  s!"    compdef _{command} {command}",
  "else",
  s!"    _{command}",
  "fi"]

/-- The completion script for zsh. -/
def script (command : String) (m : Matcher) : Result String := do
  let a := m.main
  let routines ← m.routines .zsh
  let numbers := a.numberedSubwords 1
  let subwords ← numbers.mapM fun (id, number) => do
    subwordTables command routines number (← m.subword id)
  let matching ← matchingTables "" a routines
  let subwordRows ← subwordMoves a numbers
  let maxLevel ← maxLevel a
  let literalLevels ← literalLevels a
  let subwordLevels ← levels a (offeredSubword numbers)
  let commandLevels ← levels a (plainCommand routines)
  let filteredLevels ← levels a (filteredCommand .zsh routines)
  let specializedLevels ← levels a (specializedCommand .zsh routines)
  return ofLines <|
    [s!"#compdef {command}", ""] ++
    routines.commands.toList.zipIdx.flatMap (commandFunction command) ++
    (if numbers.isEmpty then [] else subwordFunction command) ++
    subwords.flatten ++
    [s!"_{command} () \x7b"] ++ matching ++
    ["    declare -A subword_transitions=()"] ++ rowLines "subword_transitions" subwordRows ++
    matchLiterals (a.start + 1) ++ matchPatterns ++
    (if a.hasSubwords then matchSubwords command else []) ++
    matchAnything ++
    literalLines "" literalLevels ++
    levelLines "subword_transitions" subwordLevels ++
    levelLines "commands" commandLevels ++
    filteredLines "" filteredLevels ++
    levelLines "specialized_commands" specializedLevels ++
    complete command maxLevel ++ registration command

end ShellCompletion.Script.Zsh
