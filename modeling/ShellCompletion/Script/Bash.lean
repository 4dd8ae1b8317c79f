import ShellCompletion.Script.Quote
import ShellCompletion.Script.Table

/-!
# Scripts for bash

Arrays of bash start at zero, and tables are associative arrays from states to lists in quotes. One
function serves all subwords; the function of each subword sets its tables and calls it.
-/

namespace ShellCompletion.Script.Bash

/-- The lines that refuse a bash that is too old. -/
def versionGuard : List String :=
  ["if [[ $BASH_VERSINFO -lt 4 ]]; then",
  "    echo \"This completion script requires bash 4.0 or newer (current is $BASH_VERSION)\"",
  "    exit 1",
  "fi",
  ""]

/-- The function that filters candidates by what has been typed. -/
def matchFunction : List String :=
  ["__complgen_match () \x7b",
  "    [[ $# -lt 2 ]] && return 1",
  "    local ignore_case=$1",
  "    local prefix=$2",
  "    [[ -z $prefix ]] && cat",
  "    if [[ $ignore_case = on ]]; then",
  "        prefix=$\x7bprefix,,\x7d",
  "        prefix=$(printf '%q' \"$prefix\")",
  "        while read line; do",
  "            [[ $\x7bline,,\x7d = $\x7bprefix\x7d* ]] && echo $line",
  "        done",
  "    else",
  "        prefix=$(printf '%q' \"$prefix\")",
  "        while read line; do",
  "            [[ $line = $\x7bprefix\x7d* ]] && echo $line",
  "        done",
  "    fi",
  "\x7d",
  ""]

/-- The function that runs a command. -/
def commandFunction (command : String) (routine : String × Nat) : List String :=
  [s!"_{command}_cmd_{routine.2} () \x7b",
  s!"    {routine.1}",
  "\x7d",
  ""]

/-- The function that matches and completes a word by the tables of a subword. -/
def subwordFunction (command : String) : List String :=
  [s!"_{command}_subword () \x7b",
  "    [[ $# -ne 2 ]] && return 1",
  "    local mode=$1",
  "    local word=$2",
  "",
  "    local char_index=0",
  "    local matched=0",
  "    while true; do",
  "        if [[ $char_index -ge $\x7b#word\x7d ]]; then",
  "            matched=1",
  "            break",
  "        fi",
  "",
  "        local subword=$\x7bword:$char_index\x7d",
  "",
  "        if [[ -v \"literal_transitions[$state]\" ]]; then",
  "            declare -A state_transitions",
  "            eval \"state_transitions=$\x7bliteral_transitions[$state]\x7d\"",
  "",
  "            local literal_matched=0",
  "            for literal_id in $(seq 0 $(($\x7b#literals[@]\x7d - 1))); do",
  "                local literal=$\x7bliterals[$literal_id]\x7d",
  "                local literal_len=$\x7b#literal\x7d",
  "                if [[ $\x7bsubword:0:$literal_len\x7d = \"$literal\" ]]; then",
  "                    if [[ -v \"state_transitions[$literal_id]\" ]]; then",
  "                        state=$\x7bstate_transitions[$literal_id]\x7d",
  "                        char_index=$((char_index + literal_len))",
  "                        literal_matched=1",
  "                        break",
  "                    fi",
  "                fi",
  "            done",
  "            if [[ $literal_matched -ne 0 ]]; then",
  "                continue",
  "            fi",
  "        fi",
  "",
  "        if [[ -v \"nontail_transitions[$state]\" ]]; then",
  "            declare -A state_nontails",
  "            eval \"state_nontails=$\x7bnontail_transitions[$state]\x7d\"",
  "            local nontail_matched=0",
  "            for regex_id in \"$\x7b!state_nontails[@]\x7d\"; do",
  "                local regex=\"^($\x7bregexes[$regex_id]\x7d).*\"",
  "                if [[ $\x7bsubword\x7d =~ $regex && -n $\x7bBASH_REMATCH[1]\x7d ]]; then",
  "                    match=\"$\x7bBASH_REMATCH[1]\x7d\"",
  "                    match_len=$\x7b#match\x7d",
  "                    char_index=$((char_index + match_len))",
  "                    state=$\x7bstate_nontails[$regex_id]\x7d",
  "                    nontail_matched=1",
  "                    break",
  "                fi",
  "            done",
  "            if [[ $nontail_matched -ne 0 ]]; then",
  "                continue",
  "            fi",
  "        fi",
  "",
  "        if [[ -v \"match_anything_transitions[$state]\" ]]; then",
  "            matched=1",
  "            break",
  "        fi",
  "",
  "        break",
  "    done",
  "",
  "    if [[ $mode = matches ]]; then",
  "        return $((1 - matched))",
  "    fi",
  "",
  "",
  "    local matched_prefix=\"$\x7bword:0:$char_index\x7d\"",
  "    local completed_prefix=\"$\x7bword:$char_index\x7d\"",
  "",
  "    local -a candidates=()",
  "    local -a matches=()",
  "    local ignore_case=$(bind -v | grep completion-ignore-case | cut -d' ' -f3)",
  "    for (( subword_fallback_level=0; subword_fallback_level <= max_fallback_level; subword_fallback_level++ )) \x7b",
  "        eval \"declare literal_transitions_name=literal_transitions_level_$\x7bsubword_fallback_level\x7d\"",
  "        eval \"declare -a transitions=(\\$\x7b$literal_transitions_name[$state]\x7d)\"",
  "        for literal_id in \"$\x7btransitions[@]\x7d\"; do",
  "            local literal=$\x7bliterals[$literal_id]\x7d",
  "            candidates+=(\"$matched_prefix$literal\")",
  "        done",
  "        if [[ $\x7b#candidates[@]\x7d -gt 0 ]]; then",
  "            readarray -t matches < <(printf \"%s\\n\" \"$\x7bcandidates[@]\x7d\" | __complgen_match \"$ignore_case\" \"$matched_prefix$completed_prefix\")",
  "        fi",
  "",
  "        eval \"declare commands_name=commands_level_$\x7bsubword_fallback_level\x7d\"",
  "        eval \"declare -a transitions=(\\$\x7b$commands_name[$state]\x7d)\"",
  "        for command_id in \"$\x7btransitions[@]\x7d\"; do",
  s!"            readarray -t candidates < <(_{command}_cmd_$command_id \"$matched_prefix\" | cut -f1)",
  "            for item in \"$\x7bcandidates[@]\x7d\"; do",
  "                matches+=(\"$matched_prefix$item\")",
  "            done",
  "        done",
  "",
  "        eval \"declare commands_name=nontail_commands_level_$\x7bsubword_fallback_level\x7d\"",
  "        eval \"declare -a command_transitions=(\\$\x7b$commands_name[$state]\x7d)\"",
  "        eval \"declare regexes_name=nontail_regexes_level_$\x7bfallback_level\x7d\"",
  "        eval \"declare -a regexes_transitions=(\\$\x7b$regexes_name[$state]\x7d)\"",
  "        for (( i = 0; i < $\x7b#command_transitions[@]\x7d; i++ )); do",
  "            local command_id=$\x7bcommand_transitions[$i]\x7d",
  s!"            readarray -t output < <(_{command}_cmd_$command_id \"$matched_prefix\" | cut -f1)",
  "            local regex_id=$\x7bregexes_transitions[$i]\x7d",
  "            local regex=\"^($\x7bregexes[$regex_id]\x7d).*\"",
  "            declare -a candidates=()",
  "            for line in $\x7boutput[@]\x7d; do",
  "                if [[ $\x7bline\x7d =~ $regex && -n $\x7bBASH_REMATCH[1]\x7d ]]; then",
  "                    match=\"$\x7bBASH_REMATCH[1]\x7d\"",
  "                    candidates+=(\"$match\")",
  "                fi",
  "            done",
  "            for item in \"$\x7bcandidates[@]\x7d\"; do",
  "                matches+=(\"$matched_prefix$item\")",
  "            done",
  "        done",
  "",
  "        if [[ $\x7b#matches[@]\x7d -gt 0 ]]; then",
  "            printf '%s\\n' \"$\x7bmatches[@]\x7d\"",
  "            break",
  "        fi",
  "    \x7d",
  "    return 0",
  "\x7d",
  ""]

/-- Entries of an array whose keys are states. -/
def pairs (entries : List (Nat × Nat)) : String :=
  spaced (entries.map fun e => s!"[{e.1}]={e.2}")

/-- Assignments of rows to an array. -/
def rowLines (name : String) (table : Table (Nat × Nat)) : List (Nat × String) :=
  table.map fun row => (row.1, s!"    {name}[{row.1}]=\"({pairs row.2})\"")

/-- The tables for matching. The rows of a state stand together. -/
def matchingTables (a : Automaton Input) (routines : Matcher.Routines) : Result (List String) := do
  let literalRows := rowLines "literal_transitions" (← literalMoves a)
  let patternRows := rowLines "nontail_transitions" (← patternMoves a .bash routines)
  let words := spaced ((literals a).map fun l => Quote.bash l.1)
  let patterns := spaced (routines.patterns.toList.map Quote.bash)
  let rows := a.states.toList.flatMap fun state =>
    (literalRows.lookup state).toList ++ (patternRows.lookup state).toList
  return [s!"    declare -a literals=({words})",
      s!"    declare -a regexes=({patterns})",
      "    declare -A literal_transitions=()",
      "    declare -A nontail_transitions=()"] ++ rows ++
    [s!"    declare -A match_anything_transitions=({pairs (a.ambiguousMoves .bash)})"]

/-- The declaration of the table of one level. -/
def levelLine (name : String) (level : Nat) (table : Table Nat) : String :=
  let rows := spaced (table.map fun row => s!"[{row.1}]=\"{spacedNumbers row.2}\"")
  s!"    declare -A {name}_level_{level}=({rows})"

/-- The declarations of the tables of all levels. -/
def levelLines (name : String) (tables : List (Table Nat)) : List String :=
  tables.zipIdx.map fun (table, level) => levelLine name level table

/-- The declarations of the tables of commands with patterns. -/
def filteredLines (tables : List (Table (Nat × Nat))) : List String :=
  tables.zipIdx.flatMap fun (table, level) =>
    [levelLine "nontail_commands" level (table.mapEntries Prod.fst),
      levelLine "nontail_regexes" level (table.mapEntries Prod.snd)]

/-- The function of a subword. -/
def subwordTables (command : String) (routines : Matcher.Routines) (number : Nat)
    (a : Automaton Input) : Result (List String) := do
  let matching ← matchingTables a routines
  let maxLevel ← maxLevel a
  let literalLevels ← literalLevels a
  let filteredLevels ← levels a (filteredCommand .bash routines)
  let commandLevels ← levels a (anyCommand .bash routines)
  return [s!"_{command}_subword_{number} () \x7b"] ++ matching ++
    levelLines "literal_transitions" literalLevels ++
    filteredLines filteredLevels ++
    levelLines "commands" commandLevels ++
    [s!"    declare max_fallback_level={maxLevel}",
      s!"    declare state={a.start}",
      s!"    _{command}_subword \"$1\" \"$2\"",
      "\x7d", ""]

/-- The start of the main function: what has been typed. -/
def mainOpening (command : String) : List String :=
  [s!"_{command} () \x7b",
  "    if [[ $(type -t _get_comp_words_by_ref) != function ]]; then",
  "        echo _get_comp_words_by_ref: function not defined.  Make sure the bash-completion system package is installed",
  "        return 1",
  "    fi",
  "",
  "    local words cword",
  "    _get_comp_words_by_ref -n \"$COMP_WORDBREAKS\" words cword",
  ""]

/-- The loop over the words before the cursor, up to matching literals. -/
def matchLiterals (start : Nat) : List String :=
  ["",
  s!"    local state={start}",
  "    local word_index=1",
  "    while [[ $word_index -lt $cword ]]; do",
  "        local word=$\x7bwords[$word_index]\x7d",
  "",
  "        if [[ -v \"literal_transitions[$state]\" ]]; then",
  "            declare -A state_transitions",
  "            eval \"state_transitions=$\x7bliteral_transitions[$state]\x7d\"",
  "",
  "            local word_matched=0",
  "            for literal_id in $(seq 0 $(($\x7b#literals[@]\x7d - 1))); do",
  "                if [[ $\x7bliterals[$literal_id]\x7d = \"$word\" ]]; then",
  "                    if [[ -v \"state_transitions[$literal_id]\" ]]; then",
  "                        state=$\x7bstate_transitions[$literal_id]\x7d",
  "                        word_index=$((word_index + 1))",
  "                        word_matched=1",
  "                        break",
  "                    fi",
  "                fi",
  "            done",
  "            if [[ $word_matched -ne 0 ]]; then",
  "                continue",
  "            fi",
  "        fi"]

/-- Matching subwords, in that loop. -/
def matchSubwords (command : String) : List String :=
  ["",
  "        if [[ -v \"subword_transitions[$state]\" ]]; then",
  "            declare -A state_transitions",
  "            eval \"state_transitions=$\x7bsubword_transitions[$state]\x7d\"",
  "",
  "            local subword_matched=0",
  "            for subword_id in \"$\x7b!state_transitions[@]\x7d\"; do",
  s!"                if _{command}_subword_\"$\x7bsubword_id\x7d\" matches \"$word\"; then",
  "                    subword_matched=1",
  "                    state=$\x7bstate_transitions[$subword_id]\x7d",
  "                    word_index=$((word_index + 1))",
  "                    break",
  "                fi",
  "            done",
  "            if [[ $subword_matched -ne 0 ]]; then",
  "                continue",
  "            fi",
  "        fi"]

/-- Matching anything, and the end of that loop. -/
def matchAnything : List String :=
  ["",
  "        if [[ -v \"match_anything_transitions[$state]\" ]]; then",
  "            state=$\x7bmatch_anything_transitions[$state]\x7d",
  "            word_index=$((word_index + 1))",
  "            continue",
  "        fi",
  "",
  "        return 1",
  "    done",
  ""]

/-- The loop over the fallback levels that collects candidates. -/
def complete (command : String) (maxLevel : Nat) : List String :=
  ["",
  "    local -a candidates=()",
  "    local -a matches=()",
  "    local ignore_case=$(bind -v | grep completion-ignore-case | cut -d' ' -f3)",
  s!"    local max_fallback_level={maxLevel}",
  "    local prefix=\"$\x7bwords[$cword]\x7d\"",
  "    for (( fallback_level=0; fallback_level <= max_fallback_level; fallback_level++ )) \x7b",
  "        eval \"declare literal_transitions_name=literal_transitions_level_$\x7bfallback_level\x7d\"",
  "        eval \"declare -a transitions=(\\$\x7b$literal_transitions_name[$state]\x7d)\"",
  "        for literal_id in \"$\x7btransitions[@]\x7d\"; do",
  "            local literal=\"$\x7bliterals[$literal_id]\x7d\"",
  "            candidates+=(\"$literal \")",
  "        done",
  "        if [[ $\x7b#candidates[@]\x7d -gt 0 ]]; then",
  "            readarray -t matches < <(printf \"%s\\n\" \"$\x7bcandidates[@]\x7d\" | __complgen_match \"$ignore_case\" \"$prefix\")",
  "        fi",
  "",
  "        eval \"declare subword_transitions_name=subword_transitions_level_$\x7bfallback_level\x7d\"",
  "        eval \"declare -a transitions=(\\$\x7b$subword_transitions_name[$state]\x7d)\"",
  "        for subword_id in \"$\x7btransitions[@]\x7d\"; do",
  s!"            readarray -t -O \"$\x7b#matches[@]\x7d\" matches < <(_{command}_subword_$subword_id complete \"$prefix\")",
  "        done",
  "",
  "        eval \"declare commands_name=commands_level_$\x7bfallback_level\x7d\"",
  "        eval \"declare -a transitions=(\\$\x7b$commands_name[$state]\x7d)\"",
  "        for command_id in \"$\x7btransitions[@]\x7d\"; do",
  s!"            readarray -t candidates < <(_{command}_cmd_$command_id \"$prefix\" | cut -f1)",
  "            if [[ $\x7b#candidates[@]\x7d -gt 0 ]]; then",
  "                readarray -t -O \"$\x7b#matches[@]\x7d\" matches < <(printf \"%s\\n\" \"$\x7bcandidates[@]\x7d\" | __complgen_match \"$ignore_case\" \"$prefix\")",
  "            fi",
  "        done",
  "",
  "        eval \"declare commands_name=nontail_commands_level_$\x7bfallback_level\x7d\"",
  "        eval \"declare -a command_transitions=(\\$\x7b$commands_name[$state]\x7d)\"",
  "        eval \"declare regexes_name=nontail_regexes_level_$\x7bfallback_level\x7d\"",
  "        eval \"declare -a regexes_transitions=(\\$\x7b$regexes_name[$state]\x7d)\"",
  "        for (( i = 0; i < $\x7b#command_transitions[@]\x7d; i++ )); do",
  "            local command_id=$\x7bcommand_transitions[$i]\x7d",
  "            local regex_id=$\x7bregexes_transitions[$i]\x7d",
  "            local regex=\"^($\x7bregexes[$regex_id]\x7d).*\"",
  s!"            readarray -t output < <(_{command}_cmd_$command_id \"$prefix\" | cut -f1)",
  "            declare -a candidates=()",
  "            for line in $\x7boutput[@]\x7d; do",
  "                if [[ $\x7bline\x7d =~ $regex && -n $\x7bBASH_REMATCH[1]\x7d ]]; then",
  "                    match=\"$\x7bBASH_REMATCH[1]\x7d\"",
  "                    candidates+=(\"$match\")",
  "                fi",
  "            done",
  "            if [[ $\x7b#candidates[@]\x7d -gt 0 ]]; then",
  "                readarray -t -O \"$\x7b#matches[@]\x7d\" matches < <(printf \"%s\\n\" \"$\x7bcandidates[@]\x7d\" | __complgen_match \"$ignore_case\" \"$prefix\")",
  "            fi",
  "        done",
  "",
  "        if [[ $\x7b#matches[@]\x7d -gt 0 ]]; then",
  "            local shortest_suffix=\"$prefix\"",
  "            for ((i=0; i < $\x7b#COMP_WORDBREAKS\x7d; i++)); do",
  "                local char=\"$\x7bCOMP_WORDBREAKS:$i:1\x7d\"",
  "                local candidate=$\x7bprefix##*$char\x7d",
  "                if [[ $\x7b#candidate\x7d -lt $\x7b#shortest_suffix\x7d ]]; then",
  "                    shortest_suffix=$candidate",
  "                fi",
  "            done",
  "            local superfluous_prefix=\"\"",
  "            if [[ \"$shortest_suffix\" != \"$prefix\" ]]; then",
  "                local superfluous_prefix=$\x7bprefix%$shortest_suffix\x7d",
  "            fi",
  "            COMPREPLY=(\"$\x7bmatches[@]#$superfluous_prefix\x7d\")",
  "            break",
  "        fi",
  "    \x7d"]

/-- The end of the main function and its registration. -/
def registration (command : String) : List String :=
  ["",
  "    return 0",
  "\x7d",
  "",
  s!"complete -o nospace -F _{command} {command}"]

/-- The completion script for bash. -/
def script (command : String) (m : Matcher) : Result String := do
  let a := m.main
  let routines ← m.routines .bash
  let numbers := a.numberedSubwords 0
  let subwords ← numbers.mapM fun (id, number) => do
    subwordTables command routines number (← m.subword id)
  let matching ← matchingTables a routines
  let subwordRows := rowLines "subword_transitions" (← subwordMoves a numbers)
  let maxLevel ← maxLevel a
  let literalLevels ← literalLevels a
  let subwordLevels ← levels a (offeredSubword numbers)
  let commandLevels ← levels a (anyCommand .bash routines)
  let filteredLevels ← levels a (filteredCommand .bash routines)
  return ofLines <|
    versionGuard ++ matchFunction ++
    routines.commands.toList.zipIdx.flatMap (commandFunction command) ++
    (if numbers.isEmpty then [] else subwordFunction command) ++
    subwords.flatten ++
    mainOpening command ++ matching ++
    ["    declare -A subword_transitions"] ++ subwordRows.map Prod.snd ++
    matchLiterals a.start ++
    (if a.hasSubwords then matchSubwords command else []) ++
    matchAnything ++
    levelLines "literal_transitions" literalLevels ++
    levelLines "subword_transitions" subwordLevels ++
    levelLines "commands" commandLevels ++
    filteredLines filteredLevels ++
    complete command maxLevel ++ registration command

end ShellCompletion.Script.Bash
