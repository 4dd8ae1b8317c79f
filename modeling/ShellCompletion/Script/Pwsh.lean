import ShellCompletion.Script.Quote
import ShellCompletion.Script.Table

/-!
# Scripts for PowerShell

The script registers one block that offers all literals, and what all commands print, whatever the
words before the cursor.
-/

namespace ShellCompletion.Script.Pwsh

/-- The items of an array, with commas between them. -/
def itemLines (texts : List String) : List String :=
  texts.zipIdx.map fun (text, number) =>
    let comma := if number + 1 < texts.length then "," else ""
    s!"        {Quote.pwsh text}{comma}"

/-- The comment and the start of the block. -/
def opening (command : String) : List String :=
  [s!"# PowerShell completion script for {command}",
  "# Generated by complgen",
  "",
  s!"Register-ArgumentCompleter -CommandName '{command}' -ScriptBlock \x7b",
  "    param($CommandName, $WordToComplete, $CommandAst, $FakeBoundParameters)",
  ""]

/-- The function that runs commands by number. -/
def commandFunction (commands : List String) : List String :=
  ["    function Invoke-Command \x7b",
  "        param($CommandId, $Input)",
  "        switch ($CommandId) \x7b"] ++
  commands.zipIdx.map (fun (text, number) =>
    s!"            {number} \x7b & {Quote.pwsh text} $Input \x7d") ++
  (if commands.isEmpty then ["            default \x7b return @() \x7d"] else []) ++
  ["        \x7d",
  "    \x7d",
  ""]

/-- The arrays of literals, descriptions and patterns. -/
def tables (a : Automaton Input) (patterns : List String) : List String :=
  ["    $literals = @("] ++ itemLines ((literals a).map Prod.fst) ++
  ["    )", "    $descriptions = @\x7b\x7d"] ++
  (descriptions a).toList.zipIdx.map (fun (text, number) =>
    s!"    $descriptions[{number}] = {Quote.pwsh text}") ++
  ["    $regexes = @("] ++ itemLines patterns ++ ["    )"]

/-- The loop over the words before the cursor. -/
def traversal (start : Nat) : List String :=
  ["",
  "    # State machine traversal",
  "    $words = $CommandAst.CommandElements | ForEach-Object \x7b $_.ToString() \x7d",
  s!"    $state = {start}",
  "    $wordIndex = 1  # Skip command name",
  "",
  "    # Traverse through completed words",
  "    while ($wordIndex -lt $words.Count - 1) \x7b",
  "        $word = $words[$wordIndex]",
  "        $matched = $false",
  "",
  "        # Try literal transitions",
  "        for ($i = 0; $i -lt $literals.Count; $i++) \x7b",
  "            if ($literals[$i] -eq $word) \x7b",
  "                # Check if this literal transition exists from current state",
  "                # (Simplified - would need state transition tables here)",
  "                $matched = $true",
  "                break",
  "            \x7d",
  "        \x7d",
  "",
  "        if (-not $matched) \x7b",
  "            break",
  "        \x7d",
  "        $wordIndex++",
  "    \x7d",
  ""]

/-- Offering literals. -/
def completeLiterals : List String :=
  ["    # Generate completions for current position",
  "    $completions = @()",
  "",
  "    # Add literal completions",
  "    foreach ($literal in $literals) \x7b",
  "        if ($literal -like \"$WordToComplete*\") \x7b",
  "            $completions += [System.Management.Automation.CompletionResult]::new($literal, $literal, 'ParameterValue', $literal)",
  "        \x7d",
  "    \x7d",
  ""]

/-- Offering the output of commands, of which the last has the given number. -/
def completeCommands (last : Nat) : List String :=
  ["    # Execute command completions",
  s!"    foreach ($cmdId in 0..{last}) \x7b",
  "        try \x7b",
  "            $output = Invoke-Command -CommandId $cmdId -Input $WordToComplete",
  "            if ($output) \x7b",
  "                $lines = $output -split \"`n\"",
  "                foreach ($line in $lines) \x7b",
  "                    if ($line.Trim()) \x7b",
  "                        $parts = $line -split \"`t\"",
  "                        $completion = $parts[0]",
  "                        $description = if ($parts.Count -gt 1) \x7b $parts[1] \x7d else \x7b $completion \x7d",
  "                        if ($completion -like \"$WordToComplete*\") \x7b",
  "                            $completions += [System.Management.Automation.CompletionResult]::new($completion, $completion, 'ParameterValue', $description)",
  "                        \x7d",
  "                    \x7d",
  "                \x7d",
  "            \x7d",
  "        \x7d catch \x7b",
  "            # Ignore command execution errors",
  "        \x7d",
  "    \x7d",
  ""]

/-- The completion script for PowerShell. -/
def script (command : String) (m : Matcher) : Result String := do
  let routines ← m.routines .pwsh
  let commands := routines.commands.toList
  return ofLines <|
    opening command ++ commandFunction commands ++
    tables m.main routines.patterns.toList ++
    traversal m.main.start ++ completeLiterals ++
    (if commands.isEmpty then [] else completeCommands (commands.length - 1)) ++
    ["    return $completions",
  "\x7d"]

end ShellCompletion.Script.Pwsh
