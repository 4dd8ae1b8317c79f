import ShellCompletion.Proofs.PlainDefinitions

/-!
# Generic commands

A name with definitions for some shells may have a plain definition for the others. It has to be a command
then, which is kept with the name and travels with each input that stands for it. A script is meant to
hold it if its own shell has no definition. But scripts take the commands of nonterminals only from the
definitions for their shell. So the generic command is held exactly if it comes from somewhere else: from
a command in the grammar, or from another name that has it for the shell.
-/

namespace ShellCompletion

/-- The command that a script for a shell runs for an input. -/
def Input.command? (shell : Shell) : Input → Option String
  | .reference _ commands _ _ => commands.bind (·.shells.get? shell)
  | .command text _ _ _ => some text
  | .literal .. | .subword .. => none

namespace Matcher

/-- An input adds its command for the shell. -/
theorem Routines.mem_commands_add {found : Routines} {shell : Shell} {input : Input} {text : String} :
    text ∈ (found.add shell input).commands.toList ↔
      text ∈ found.commands.toList ∨ input.command? shell = some text := by
  cases input with
  | literal => simp [add, Input.command?]
  | subword => simp [add, Input.command?]
  | reference name commands level span =>
    cases commands with
    | none => simp [add, Input.command?]
    | some commands => cases h : commands.shells.get? shell <;> simp [add, Input.command?, h, eq_comm]
  | command text patterns level span =>
    cases h : patterns.bind (·.get? shell) <;> simp [add, Input.command?, h, eq_comm]

/-- The commands taken up from inputs are those that a script runs for them. -/
theorem Routines.mem_commands_foldl_add {shell : Shell} {text : String} (inputs : List Input)
    (found : Routines) : text ∈ (inputs.foldl (add shell) found).commands.toList ↔
      text ∈ found.commands.toList ∨ ∃ input ∈ inputs, input.command? shell = some text := by
  induction inputs generalizing found with
  | nil => simp
  | cons input inputs ih =>
    rw [List.foldl_cons, ih, mem_commands_add, or_assoc]
    simp only [List.mem_cons, exists_eq_or_imp]

/-- The inputs on the transitions of a matcher, those inside subwords included. -/
def inputs (m : Matcher) : List Input := m.main.transitions.flatMap fun t => m.inputsOf t.symbol

/-- The commands of a script are those that it runs for the inputs of its matcher. -/
theorem exists_commands_iff {m : Matcher} (h : m.KnowsSubwords) (shell : Shell) :
    ∃ routines, m.routines shell = .ok routines ∧ ∀ text, text ∈ routines.commands.toList ↔
      ∃ input ∈ m.inputs, input.command? shell = some text := by
  refine ⟨_, m.routines_eq h shell, fun text => ?_⟩
  rw [Routines.mem_commands_foldl_add]
  simp [inputs, OrderedSet.empty]

end Matcher

/-- Whether an input that stands for a nonterminal carries the commands of its name. -/
def Input.Carries (specializations : Specializations) : Input → Prop
  | .reference name commands _ _ => commands = specializations.get? name
  | _ => True

/-- The inputs in the pattern of an expression carry the commands of their names. -/
theorem Expr.carries_of_mem_symbols {check : Positions Input → Result Unit}
    {specializations : Specializations} {e : Expr} {s t : Interner Input} {p : Pattern Input}
    (h : e.toPattern check specializations s = .ok (t, p)) :
    ∀ input ∈ p.symbols, input.Carries specializations := by
  have hall : ∀ (es : List Expr) ps,
      List.Forall₂ (fun _ (p : Pattern Input) => ∀ input ∈ p.symbols, input.Carries specializations)
        es ps → ∀ input ∈ Pattern.symbolsAll ps, input.Carries specializations := by
    intro es ps hes
    induction hes with
    | nil => simp [Pattern.symbolsAll]
    | cons hp _ ih =>
      intro input hinput
      exact (List.mem_append.mp hinput).elim (hp input) (ih input)
  refine toPattern_induction ?_ ?_ ?_ hall hall hall (fun _ _ hitem => hitem)
    (fun _ _ hitem => hitem) ?_ h
  · simp [Pattern.symbols, Input.Carries]
  · simp [Pattern.symbols, Input.Carries]
  · simp [Pattern.symbols, Input.Carries]
  · simp [Pattern.symbols, Input.Carries]

namespace Grammar

variable {g : Grammar} {shell : Shell}

/-- The inputs of a compiled grammar carry the commands of their names. -/
theorem carries_of_mem_inputs (hfilled : ∀ s ∈ g.statements, s.body.Filled True) {minimized : Bool}
    {c : CompiledGrammar} (hcompile : g.compile shell minimized = .ok c)
    {specializations : Specializations} (hspecializations : g.specializations = .ok specializations)
    {input : Input} (hinput : input ∈ c.matcher.inputs) : input.Carries specializations := by
  obtain ⟨valid, d, hvalid, hd, hsubwords, hmain⟩ := compile_eq_ok hcompile
  have hresolve : ∀ {resolved}, g.resolve = .ok resolved →
      resolved.specializations = specializations := by
    intro resolved hresolved
    obtain ⟨-, -, hfound, -⟩ := resolve_eq_ok hresolved
    exact Except.ok.inj (hfound.symm.trans hspecializations)
  obtain ⟨t, ht, hinput⟩ := List.mem_flatMap.mp hinput
  have hsymbol := Pattern.mem_symbols_of_transition hd (trim_of_validate hfilled hvalid hd) hmain ht
  obtain ⟨resolved, hresolved, hpattern⟩ := validate_eq_ok hvalid
  have hcarries := Expr.carries_of_mem_symbols hpattern t.symbol hsymbol
  rw [hresolve hresolved] at hcarries
  cases heq : t.symbol with
  | subword id level span =>
    obtain ⟨a, ha⟩ := (wellFormed_of_compile hfilled hcompile).known t ht id level span heq
    rw [heq, Matcher.inputsOf, ha] at hinput
    obtain ⟨u, hu, rfl⟩ := List.mem_map.mp hinput
    rw [hsubwords] at ha
    obtain ⟨q, hq, hminimal⟩ := (mem_subwords_iff hfilled hvalid a).mp (Array.mem_of_getElem? ha)
    obtain ⟨dq, hdq, hm⟩ := Result.bind_eq_ok.mp hminimal
    have hinside := Pattern.mem_symbols_of_transition hdq (trim_of_subwordPattern hfilled hq hdq)
      (Or.inr hm) hu
    obtain ⟨resolved, hresolved, body, -, hpattern⟩ := hq
    rw [← hresolve hresolved]
    exact Expr.carries_of_mem_symbols hpattern u.symbol hinside
  | _ =>
    rw [heq] at hinput hcarries
    rw [List.mem_singleton.mp hinput]
    exact hcarries

/-- Whether a name has a command for a shell: that of its definition for the shell, or, if it has no
definitions for shells, the one that it has from the start. -/
def Serves (g : Grammar) (name : String) (shell : Shell) (text : String) : Prop :=
  g.Gives name (some shell.name) text ∨ ¬ g.Specializes name ∧
    ∃ commands, predefined.lookup name = some commands ∧ commands.shells.get? shell = some text

/-- The command of a specialized name for a shell is the one that serves it there. -/
theorem serves_iff {definitions : Definitions} (hdefinitions : g.definitions = .ok definitions)
    {specializations : Specializations} (hspecializations : g.specializations = .ok specializations)
    {name text : String} :
    (specializations.get? name).bind (·.shells.get? shell) = some text ↔ g.Serves name shell text := by
  rw [Serves]
  by_cases hname : g.Specializes name
  · obtain ⟨commands, hcommands, hshells, -⟩ := exists_commands hspecializations hdefinitions hname
    simp [hcommands, hshells, hname]
  · have hnone : ¬ g.Gives name (some shell.name) text := by
      rintro ⟨patterns, level, span, hdefinition⟩
      exact hname ⟨_, _, hdefinition⟩
    rw [get?_of_not_specializes hspecializations hname, Option.bind_eq_some_iff]
    simp only [hnone, hname, not_false_eq_true, true_and, false_or]

/-- The generic command of a name without a definition for the shell is kept with each input that stands
for the name, but none of them brings it into the script: it is there exactly if it is a command of the
grammar or serves another name for the shell. -/
theorem generic_command_mem_iff {source : String} (hparse : Grammar.parse source = .ok g)
    {minimized : Bool} {c : CompiledGrammar} (hcompile : g.compile shell minimized = .ok c)
    {name command : String} (hgeneric : g.Gives name none command) (hspecializes : g.Specializes name)
    (hshell : ∀ text, ¬ g.Gives name (some shell.name) text) :
    (∀ input ∈ c.matcher.inputs, input.Names name → ∃ commands level span,
      input = .reference name (some commands) level span ∧ commands.generic = some command) ∧
    ∃ routines, c.matcher.routines shell = .ok routines ∧
      (command ∈ routines.commands.toList ↔
        (∃ patterns level span, .command command patterns level span ∈ c.matcher.inputs) ∨
        ∃ input ∈ c.matcher.inputs, ∃ other, other ≠ name ∧ input.Names other ∧
          g.Serves other shell command) := by
  have hfilled := filled_of_parse hparse
  obtain ⟨valid, d, hvalid, -⟩ := compile_eq_ok hcompile
  obtain ⟨resolved, hresolved, -⟩ := validate_eq_ok hvalid
  obtain ⟨r, -⟩ := exists_resolution_of_resolve hresolved
  obtain ⟨-, -, hspecializations, -⟩ := resolve_eq_ok hresolved
  obtain ⟨commands, hcommands, -, hkept⟩ :=
    exists_commands hspecializations r.definitions_eq hspecializes
  have hcarries : ∀ input ∈ c.matcher.inputs, input.Carries resolved.specializations :=
    fun input hinput => carries_of_mem_inputs hfilled hcompile hspecializations hinput
  constructor
  · intro input hinput hnames
    cases input with
    | reference other found level span =>
      cases hnames
      have hfound : found = resolved.specializations.get? name := hcarries _ hinput
      exact ⟨commands, level, span, by rw [hfound, hcommands], (hkept command).mpr hgeneric⟩
    | _ => exact hnames.elim
  · obtain ⟨routines, hroutines, hmem⟩ :=
      Matcher.exists_commands_iff (wellFormed_of_compile hfilled hcompile).known shell
    refine ⟨routines, hroutines, (hmem command).trans ⟨?_, ?_⟩⟩
    · rintro ⟨input, hinput, hcommand⟩
      cases input with
      | literal => cases hcommand
      | subword => cases hcommand
      | command text patterns level span =>
        cases hcommand
        exact Or.inl ⟨patterns, level, span, hinput⟩
      | reference other found level span =>
        have hfound : found = resolved.specializations.get? other := hcarries _ hinput
        rw [Input.command?, hfound, serves_iff r.definitions_eq hspecializations] at hcommand
        refine Or.inr ⟨_, hinput, other, ?_, rfl, hcommand⟩
        -- the name itself has neither a definition for the shell nor a command from the start
        rintro rfl
        rcases hcommand with hgives | ⟨hnot, -⟩
        · exact hshell command hgives
        · exact hnot hspecializes
    · rintro (⟨patterns, level, span, hinput⟩ | ⟨input, hinput, other, -, hnames, hserves⟩)
      · exact ⟨_, hinput, rfl⟩
      · cases input with
        | reference name' found level span =>
          cases hnames
          have hfound : found = resolved.specializations.get? other := hcarries _ hinput
          refine ⟨_, hinput, ?_⟩
          rw [Input.command?, hfound, serves_iff r.definitions_eq hspecializations]
          exact hserves
        | _ => exact hnames.elim

/-- A valid grammar whose positions pass the checks is compiled. -/
theorem compile_of_validate {valid : ValidGrammar} (hvalid : g.validate shell = .ok valid)
    (hwords : valid.pattern.positions.checkWords shell = .ok ())
    (hvariants : valid.pattern.positions.checkVariants = .ok ()) {d a : Automaton Input}
    (hd : valid.pattern.positions.automaton = .ok d) {minimized : Bool}
    (ha : (if minimized then d.minimize else pure d) = .ok a) :
    g.compile shell minimized = .ok ⟨valid.command, a, valid.subwords⟩ := by
  have hcheck : g.check shell = .ok valid := by
    rw [check, hvalid, Result.ok_bind]
    dsimp only
    rw [hwords, Result.ok_bind, hvariants]
    rfl
  rw [compile, hcheck, Result.ok_bind, hd, Result.ok_bind]
  cases minimized with
  | false =>
    cases ha
    rfl
  | true =>
    have hm : d.minimize = .ok a := ha
    rw [if_pos rfl, hm]
    rfl

/-- The grammar of `cmd a <FOO> | b {{{ echo generic }}}; <FOO> ::= {{{ echo generic }}};
<FOO@bash> ::= {{{ echo bash }}};`, in one line. -/
def repeatedCommand : Grammar := ⟨[
  .call "cmd" (.alternative [
    .sequence [.literal "a" none 0 (some ⟨0, 4, 5⟩), .reference "FOO" 0 (some ⟨0, 6, 11⟩)],
    .sequence [.literal "b" none 0 (some ⟨0, 14, 15⟩),
      .command "echo generic" none 0 (some ⟨0, 16, 36⟩)]]),
  .definition "FOO" none (.command "echo generic" none 0 (some ⟨0, 48, 68⟩)),
  .definition "FOO" (some "bash") (.command "echo bash" none 0 (some ⟨0, 85, 102⟩))]⟩

/-- The commands of its name. -/
def genericCommands : Specialization := ⟨{ bash := some "echo bash" }, some "echo generic"⟩

/-- The pattern of its words. -/
def repeatedCommandPattern : Pattern Input := .alternative [
  .sequence [.symbol (.literal "a" none 0 (some ⟨0, 4, 5⟩)),
    .symbol (.reference "FOO" (some genericCommands) 0 (some ⟨0, 6, 11⟩))],
  .sequence [.symbol (.literal "b" none 0 (some ⟨0, 14, 15⟩)),
    .symbol (.command "echo generic" none 0 (some ⟨0, 16, 36⟩))]]

/-- The automaton of its words. -/
def repeatedCommandAutomaton : Automaton Input :=
  let a : Input := .literal "a" none 0 (some ⟨0, 4, 5⟩)
  let b : Input := .literal "b" none 0 (some ⟨0, 14, 15⟩)
  let foo : Input := .reference "FOO" (some genericCommands) 0 (some ⟨0, 6, 11⟩)
  let echo : Input := .command "echo generic" none 0 (some ⟨0, 16, 36⟩)
  ⟨1, .ofList [(1, .ofList [(a, 2), (b, 3)]), (2, .ofList [(foo, 4)]), (3, .ofList [(echo, 4)]),
    (4, .empty)], .ofList [4], .ofList [a, foo, b, echo]⟩

/-- Its generic command is listed, since it is written out in the call too. -/
theorem generic_command_repeatedCommand :
    Grammar.parse ("cmd a <FOO> | b \x7b\x7b\x7b echo generic \x7d\x7d\x7d; " ++
        "<FOO> ::= \x7b\x7b\x7b echo generic \x7d\x7d\x7d; " ++
        "<FOO@bash> ::= \x7b\x7b\x7b echo bash \x7d\x7d\x7d;") = .ok repeatedCommand ∧
      repeatedCommand.Gives "FOO" none "echo generic" ∧ repeatedCommand.Specializes "FOO" ∧
      (∀ text, ¬ repeatedCommand.Gives "FOO" (some Shell.fish.name) text) ∧
      ∃ c routines, repeatedCommand.compile .fish false = .ok c ∧
        c.matcher.routines .fish = .ok routines ∧ "echo generic" ∈ routines.commands.toList := by
  have hparse : Grammar.parse ("cmd a <FOO> | b \x7b\x7b\x7b echo generic \x7d\x7d\x7d; " ++
      "<FOO> ::= \x7b\x7b\x7b echo generic \x7d\x7d\x7d; " ++
      "<FOO@bash> ::= \x7b\x7b\x7b echo bash \x7d\x7d\x7d;") = .ok repeatedCommand := by
    decide +kernel
  have hgeneric : repeatedCommand.Gives "FOO" none "echo generic" := by
    simp [Gives, repeatedCommand]
  have hspecializes : repeatedCommand.Specializes "FOO" := by simp [Specializes, repeatedCommand]
  have hshell : ∀ text, ¬ repeatedCommand.Gives "FOO" (some Shell.fish.name) text := by
    simp [Gives, repeatedCommand, Shell.name]
  have hcommand : repeatedCommand.command = .ok "cmd" := command_of_calls rfl
  obtain ⟨valid, hvalid, hpattern⟩ : ∃ valid, repeatedCommand.validate .fish = .ok valid ∧
      valid.pattern = repeatedCommandPattern := by
    rw [validate, resolve, hcommand]
    exact ⟨_, rfl, rfl⟩
  have hcompile : repeatedCommand.compile .fish false =
      .ok ⟨valid.command, repeatedCommandAutomaton, valid.subwords⟩ := by
    refine compile_of_validate (d := repeatedCommandAutomaton) hvalid ?_ ?_ ?_ rfl <;> rw [hpattern]
    · decide +kernel
    · exact Positions.checkVariants_eq_ok (by decide +kernel)
    · decide +kernel
  have hecho : ⟨3, .command "echo generic" none 0 (some ⟨0, 16, 36⟩), 4⟩ ∈
      repeatedCommandAutomaton.transitions := by decide +kernel
  obtain ⟨-, routines, hroutines, hiff⟩ :=
    generic_command_mem_iff hparse hcompile hgeneric hspecializes hshell
  refine ⟨hparse, hgeneric, hspecializes, hshell, _, routines, hcompile, hroutines, hiff.mpr ?_⟩
  exact Or.inl ⟨_, _, _, List.mem_flatMap.mpr ⟨_, hecho, List.mem_singleton.mpr rfl⟩⟩

/-- The grammar of `cmd <FOO>; <FOO> ::= {{{ echo generic }}}; <FOO@bash> ::= {{{ echo bash }}};`. -/
def genericName : Grammar := ⟨[
  .call "cmd" (.reference "FOO" 0 (some ⟨0, 4, 9⟩)),
  .definition "FOO" none (.command "echo generic" none 0 (some ⟨0, 21, 41⟩)),
  .definition "FOO" (some "bash") (.command "echo bash" none 0 (some ⟨0, 58, 75⟩))]⟩

/-- The automaton of its words. -/
def genericNameAutomaton : Automaton Input :=
  let foo : Input := .reference "FOO" (some genericCommands) 0 (some ⟨0, 4, 9⟩)
  ⟨1, .ofList [(1, .ofList [(foo, 2)]), (2, .empty)], .ofList [2], .ofList [foo]⟩

/-- A script for a shell without a definition holds no command for a name that has a generic one. -/
theorem not_mem_commands_genericName :
    Grammar.parse ("cmd <FOO>; <FOO> ::= \x7b\x7b\x7b echo generic \x7d\x7d\x7d; " ++
        "<FOO@bash> ::= \x7b\x7b\x7b echo bash \x7d\x7d\x7d;") = .ok genericName ∧
      genericName.Gives "FOO" none "echo generic" ∧ genericName.Specializes "FOO" ∧
      (∀ text, ¬ genericName.Gives "FOO" (some Shell.fish.name) text) ∧
      ∃ c routines, genericName.compile .fish true = .ok c ∧
        (∃ t ∈ c.matcher.main.transitions, t.symbol.Names "FOO") ∧
        c.matcher.routines .fish = .ok routines ∧ "echo generic" ∉ routines.commands.toList := by
  have hparse : Grammar.parse ("cmd <FOO>; <FOO> ::= \x7b\x7b\x7b echo generic \x7d\x7d\x7d; " ++
      "<FOO@bash> ::= \x7b\x7b\x7b echo bash \x7d\x7d\x7d;") = .ok genericName := by
    decide +kernel
  have hcommand : genericName.command = .ok "cmd" := command_of_calls rfl
  obtain ⟨valid, hvalid, hpattern⟩ : ∃ valid, genericName.validate .fish = .ok valid ∧
      valid.pattern = .symbol (.reference "FOO" (some genericCommands) 0 (some ⟨0, 4, 9⟩)) := by
    rw [validate, resolve, hcommand]
    exact ⟨_, rfl, rfl⟩
  have hd : valid.pattern.positions.automaton = .ok genericNameAutomaton := by
    rw [hpattern]
    decide +kernel
  have htrim := trim_of_validate (filled_of_parse hparse) hvalid hd
  obtain ⟨m, hm, -⟩ := htrim.exists_minimize
  have hcompile : genericName.compile .fish true = .ok ⟨valid.command, m, valid.subwords⟩ := by
    refine compile_of_validate hvalid ?_ ?_ hd hm <;> rw [hpattern]
    · decide +kernel
    · exact Positions.checkVariants_eq_ok (by decide +kernel)
  -- nothing but the name stands on the transitions, and it has no command for the shell
  have hsymbol : ∀ t ∈ m.transitions,
      t.symbol = .reference "FOO" (some genericCommands) 0 (some ⟨0, 4, 9⟩) := by
    intro t ht
    have hmem := Pattern.mem_symbols_of_transition hd htrim (Or.inr hm) ht
    rw [hpattern] at hmem
    exact List.mem_singleton.mp hmem
  have hwell := wellFormed_of_compile (filled_of_parse hparse) hcompile
  obtain ⟨routines, hroutines, hmem⟩ := Matcher.exists_commands_iff hwell.known .fish
  obtain ⟨t, ht⟩ := hwell.moves
  refine ⟨hparse, by simp [Gives, genericName], by simp [Specializes, genericName],
    by simp [Gives, genericName, Shell.name], _, routines, hcompile, ⟨t, ht, ?_⟩, hroutines, ?_⟩
  · rw [hsymbol t ht]
    rfl
  · rw [hmem]
    rintro ⟨input, hinput, hruns⟩
    obtain ⟨u, hu, hinput⟩ := List.mem_flatMap.mp hinput
    rw [hsymbol u hu] at hinput
    rw [List.mem_singleton.mp hinput] at hruns
    cases hruns

end Grammar

end ShellCompletion
