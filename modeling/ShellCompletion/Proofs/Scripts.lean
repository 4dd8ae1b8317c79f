import ShellCompletion.Proofs.ScriptTables
import ShellCompletion.Proofs.TextMatching

/-!
# Scripts of compiled grammars

The script of a compiled grammar can be written. The commands and patterns are collected from the same
transitions that are looked up later, those of the subwords included. Only known symbols stand on
transitions, which minimization keeps, and it leaves at least one transition. Subwords have no others
inside, since they are flattened before they are compiled, and the automata of those in the pattern of
the words are numbered.
-/

namespace ShellCompletion

namespace Matcher

/-! ### The routines of a script -/

/-- Whether the command and the pattern of an input are among the routines. -/
def Routines.Has (found : Routines) (shell : Shell) : Input → Prop
  | .reference _ specialization _ _ =>
    ∀ command ∈ specialization.bind (·.shells.get? shell), command ∈ found.commands.toList
  | .command text patterns _ _ => text ∈ found.commands.toList ∧
    ∀ pattern ∈ patterns.bind (·.get? shell), pattern ∈ found.patterns.toList
  | .literal .. | .subword .. => True

/-- Routines are at most added. -/
def Routines.Within (found more : Routines) : Prop :=
  (∀ text ∈ found.commands.toList, text ∈ more.commands.toList) ∧
    ∀ text ∈ found.patterns.toList, text ∈ more.patterns.toList

variable {found more : Routines} {shell : Shell}

theorem Routines.Within.refl (found : Routines) : found.Within found :=
  ⟨fun _ h => h, fun _ h => h⟩

theorem Routines.Within.trans {most : Routines} (h : found.Within more) (h' : more.Within most) :
    found.Within most :=
  ⟨fun text ht => h'.1 text (h.1 text ht), fun text ht => h'.2 text (h.2 text ht)⟩

/-- What is found among routines is found among more of them. -/
theorem Routines.Has.mono {input : Input} (h : found.Has shell input) (hwithin : found.Within more) :
    more.Has shell input := by
  cases input with
  | literal => trivial
  | subword => trivial
  | reference => exact fun command hcommand => hwithin.1 _ (h command hcommand)
  | command => exact ⟨hwithin.1 _ h.1, fun pattern hpattern => hwithin.2 _ (h.2 pattern hpattern)⟩

/-- Taking up an input keeps the routines and adds those of the input. -/
theorem Routines.has_add (found : Routines) (shell : Shell) (input : Input) :
    found.Within (found.add shell input) ∧ (found.add shell input).Has shell input := by
  cases input with
  | literal => exact ⟨.refl found, trivial⟩
  | subword => exact ⟨.refl found, trivial⟩
  | reference name specialization level span =>
    cases specialization with
    | none => exact ⟨.refl found, by simp [Has]⟩
    | some specialization =>
      cases htext : specialization.shells.get? shell with
      | none => simp [add, Has, Within, htext]
      | some text => simp +contextual [add, Has, Within, htext]
  | command text patterns level span =>
    cases hpattern : patterns.bind (·.get? shell) with
    | none => simp +contextual [add, Has, Within, hpattern]
    | some pattern => simp +contextual [add, Has, Within, hpattern]

/-- Taking up inputs keeps the routines and adds those of the inputs. -/
theorem Routines.has_foldl_add (shell : Shell) (inputs : List Input) (found : Routines) :
    found.Within (inputs.foldl (add shell) found) ∧
      ∀ input ∈ inputs, (inputs.foldl (add shell) found).Has shell input := by
  induction inputs generalizing found with
  | nil => exact ⟨.refl found, by simp⟩
  | cons input inputs ih =>
    obtain ⟨hwithin, hhas⟩ := found.has_add shell input
    obtain ⟨hothers, hall⟩ := ih (found.add shell input)
    refine ⟨hwithin.trans hothers, fun other hother => ?_⟩
    rcases List.mem_cons.mp hother with rfl | hother
    · exact hhas.mono hothers
    · exact hall other hother

/-- The inputs that an input stands for: those on the transitions of a subword, and else itself. -/
def inputsOf (m : Matcher) : Input → List Input
  | .subword id _ _ => ((m.subwords.get? id).map fun a => a.transitions.map (·.symbol)).getD []
  | input => [input]

/-- Whether the automata of all subwords on transitions are known. -/
def KnowsSubwords (m : Matcher) : Prop :=
  ∀ t ∈ m.main.transitions, ∀ id level span, t.symbol = .subword id level span →
    ∃ a, m.subwords.get? id = some a

/-- If all subwords are known, the routines of a matcher are those of the inputs that stand on its
transitions. -/
theorem routines_eq {m : Matcher} (h : m.KnowsSubwords) (shell : Shell) :
    m.routines shell = .ok ((m.main.transitions.flatMap fun t => m.inputsOf t.symbol).foldl
      (Routines.add shell) {}) := by
  rw [List.foldl_flatMap]
  refine Result.foldlM_eq_ok (fun found t ht => ?_) _
  split
  · next id level span hsubword =>
    obtain ⟨a, ha⟩ := h t ht id level span hsubword
    rw [hsubword, subword, inputsOf, ha]
    rfl
  · next input hother =>
    rw [inputsOf]
    · rfl
    · exact hother

/-- If all subwords are known, the routines of what stands on the transitions are collected. -/
theorem exists_routines {m : Matcher} (h : m.KnowsSubwords) (shell : Shell) :
    ∃ routines, m.routines shell = .ok routines ∧
      ∀ t ∈ m.main.transitions, ∀ input ∈ m.inputsOf t.symbol, routines.Has shell input := by
  refine ⟨_, m.routines_eq h shell, fun t ht input hinput => ?_⟩
  exact (Routines.has_foldl_add shell _ {}).2 input (List.mem_flatMap.mpr ⟨t, ht, hinput⟩)

end Matcher

/-! ### The tables of an automaton -/

/-- An automaton with transitions has a greatest level. -/
theorem Automaton.exists_maxLevel {a : Automaton Input} (h : ∃ t, t ∈ a.transitions) :
    ∃ greatest, a.maxLevel? = some greatest ∧ ∀ t ∈ a.transitions, t.symbol.level ≤ greatest := by
  obtain ⟨t, ht⟩ := h
  have hsome : a.maxLevel?.isSome = true :=
    List.isSome_max?_of_mem (List.mem_map.mpr ⟨t, ht, rfl⟩)
  obtain ⟨greatest, hgreatest⟩ := Option.isSome_iff_exists.mp hsome
  refine ⟨greatest, hgreatest, fun u hu => ?_⟩
  exact (List.max?_eq_some_iff.mp hgreatest).2 _ (List.mem_map.mpr ⟨u, hu, rfl⟩)

/-- The tables of an automaton can be written if its symbols are known, it has transitions, their
routines are collected and their subwords are numbered. -/
theorem Script.writable {a : Automaton Input} {shell : Shell} {routines : Matcher.Routines}
    {numbers : List (ℕ × ℕ)} (hknows : a.KnowsSymbols) (hmoves : ∃ t, t ∈ a.transitions)
    (hroutines : ∀ t ∈ a.transitions, routines.Has shell t.symbol)
    (hsubwords : ∀ t ∈ a.transitions, ∀ id level span, t.symbol = .subword id level span →
      (numbers.lookup id).isSome = true) : Writable a shell routines numbers := by
  have hplace : ∀ {s : OrderedSet String} {text : String}, text ∈ s.toList →
      (s.indexOf? text).isSome = true := by
    intro s text htext
    obtain ⟨i, hi, -⟩ := OrderedSet.exists_indexOf? htext
    rw [hi]
    rfl
  refine ⟨fun t ht => ?_, Automaton.exists_maxLevel hmoves⟩
  have hhas := hroutines t ht
  have hsymbol := hknows t.source t.symbol t.target ((a.mem_transitions t).mp ht)
  cases heq : t.symbol with
  | literal text description level span =>
    rw [heq] at hsymbol
    have hmem : (text, description.getD "") ∈ literals a :=
      List.mem_map.mpr ⟨(text, description), List.mem_filterMap.mpr ⟨_, hsymbol, rfl⟩, rfl⟩
    rw [Finds, (lookup_literalNumbers hmem).1]
    rfl
  | subword id level span => exact hsubwords t ht id level span heq
  | reference name specialization level span =>
    rw [heq] at hhas
    exact fun command hcommand => hplace (hhas command hcommand)
  | command text patterns level span =>
    rw [heq] at hhas
    exact ⟨hplace hhas.1, fun pattern hpattern => hplace (hhas.2 pattern hpattern)⟩

/-- The subwords of an automaton are those on its transitions. -/
theorem Automaton.mem_subwordIds {a : Automaton Input} {id : ℕ} : id ∈ a.subwordIds.toList ↔
    ∃ t ∈ a.transitions, ∃ level span, t.symbol = .subword id level span := by
  rw [subwordIds, OrderedSet.mem_ofList, List.mem_filterMap]
  refine exists_congr fun t => and_congr_right fun _ => ?_
  constructor
  · intro h
    split at h
    · next level span hsubword =>
      cases h
      exact ⟨level, span, hsubword⟩
    · cases h
  · rintro ⟨level, span, hsubword⟩
    rw [hsubword]

/-- Every subword of an automaton has a number. -/
theorem Automaton.isSome_lookup_numberedSubwords {a : Automaton Input} {t : Transition Input}
    (ht : t ∈ a.transitions) {id level : ℕ} {span : Option Span}
    (hsubword : t.symbol = .subword id level span) (first : ℕ) :
    ((a.numberedSubwords first).lookup id).isSome = true := by
  have hmem := mem_subwordIds.mpr ⟨t, ht, level, span, hsubword⟩
  rw [← List.zipIdx_map_fst first a.subwordIds.toList] at hmem
  obtain ⟨entry, hentry, rfl⟩ := List.mem_map.mp hmem
  exact List.lookup_isSome_iff.mpr ⟨entry, hentry, by simp⟩

/-- What holds of the matcher of a grammar: its automata have transitions, all of them on known symbols,
and subwords stand only on those of the words, with automata that are known. -/
structure Matcher.WellFormed (m : Matcher) : Prop where
  symbols : m.main.KnowsSymbols
  moves : ∃ t, t ∈ m.main.transitions
  known : m.KnowsSubwords
  subwords : ∀ a ∈ m.subwords.automata, a.KnowsSymbols ∧ (∃ t, t ∈ a.transitions) ∧
    ∀ t ∈ a.transitions, ∀ id level span, t.symbol ≠ .subword id level span

/-- All that the script of a well-formed matcher looks up is found. -/
theorem Matcher.WellFormed.exists_writable {m : Matcher} (h : m.WellFormed) (shell : Shell) :
    ∃ routines, m.Writable shell routines := by
  obtain ⟨routines, hroutines, hhas⟩ := Matcher.exists_routines h.known shell
  refine ⟨routines, hroutines, fun first => ?_, fun id hid => ?_⟩
  · refine Script.writable h.symbols h.moves (fun t ht => ?_) fun t ht id level span hsubword =>
      Automaton.isSome_lookup_numberedSubwords ht hsubword first
    cases heq : t.symbol with
    | subword => trivial
    | _ => exact hhas t ht _ (by simp [heq, inputsOf])
  · obtain ⟨t, ht, level, span, hsubword⟩ := Automaton.mem_subwordIds.mp hid
    obtain ⟨a, ha⟩ := h.known t ht id level span hsubword
    obtain ⟨hknows, hmoves, hflat⟩ := h.subwords a (Array.mem_of_getElem? ha)
    refine ⟨a, ha, Script.writable hknows hmoves (fun u hu => hhas t ht u.symbol ?_) ?_⟩
    · rw [hsubword, inputsOf, ha]
      exact List.mem_map.mpr ⟨u, hu, rfl⟩
    · exact fun u hu id level span hsubword => (hflat u hu id level span hsubword).elim

/-! ### Subwords in patterns -/

namespace Expr

variable {check : Positions Input → Result Unit} {specializations : Specializations}

mutual

/-- A subword in the pattern of an expression has an automaton, and comes from a subword of the
expression. -/
theorem exists_automaton_of_mem_symbols {s t : Interner Input} {id level : ℕ} {span : Option Span} :
    {e : Expr} → {p : Pattern Input} → e.toPattern check specializations s = .ok (t, p) →
      Input.subword id level span ∈ p.symbols →
      (∃ a, t.get? id = some a) ∧ e.subwordBodies ≠ []
  | .literal .., _, h, hmem => by cases h; simp [Pattern.symbols] at hmem
  | .reference .., _, h, hmem => by cases h; simp [Pattern.symbols] at hmem
  | .command .., _, h, hmem => by cases h; simp [Pattern.symbols] at hmem
  | .sequence _, _, h, hmem => by
    obtain ⟨-, ps, hps, rfl⟩ := toPattern_sequence h
    exact exists_automaton_of_mem_symbolsAll hps hmem
  | .alternative _, _, h, hmem => by
    obtain ⟨ps, hps, rfl⟩ := toPattern_alternative h
    exact exists_automaton_of_mem_symbolsAll hps hmem
  | .fallback _, _, h, hmem => by
    obtain ⟨ps, hps, rfl⟩ := toPattern_fallback h
    exact exists_automaton_of_mem_symbolsAll hps hmem
  | .optional _, _, h, hmem => by
    obtain ⟨q, hq, rfl⟩ := toPattern_optional h
    obtain ⟨hknown, hbodies⟩ := exists_automaton_of_mem_symbols hq hmem
    exact ⟨hknown, hbodies⟩
  | .repeated _, _, h, hmem => by
    obtain ⟨q, hq, rfl⟩ := toPattern_repeated h
    obtain ⟨hknown, hbodies⟩ := exists_automaton_of_mem_symbols hq hmem
    exact ⟨hknown, hbodies⟩
  | .described .., _, h, _ => by cases h
  | .subword .., _, h, hmem => by
    obtain ⟨u, q, a, -, -, -, rfl, rfl⟩ := toPattern_subword h
    cases List.mem_singleton.mp hmem
    exact ⟨⟨a, u.get?_intern a⟩, List.cons_ne_nil _ _⟩

/-- The automaton of a subword is among those that were taken up. -/
theorem exists_automaton_of_mem_symbolsAll {s t : Interner Input} {id level : ℕ}
    {span : Option Span} : {es : List Expr} → {ps : List (Pattern Input)} →
      toPatterns check specializations s es = .ok (t, ps) →
      Input.subword id level span ∈ Pattern.symbolsAll ps →
      (∃ a, t.get? id = some a) ∧ subwordBodiesAll es ≠ []
  | [], _, h, hmem => by cases h; simp [Pattern.symbolsAll] at hmem
  | _ :: _, _, h, hmem => by
    obtain ⟨u, p, qs, he, hes, rfl⟩ := toPatterns_cons h
    rcases List.mem_append.mp hmem with hmem | hmem
    · obtain ⟨⟨a, ha⟩, hbodies⟩ := exists_automaton_of_mem_symbols he hmem
      exact ⟨⟨a, (toPatterns_extends hes).get?_eq_some ha⟩, by simp [subwordBodiesAll, hbodies]⟩
    · obtain ⟨hknown, hbodies⟩ := exists_automaton_of_mem_symbolsAll hes hmem
      exact ⟨hknown, by simp [subwordBodiesAll, hbodies]⟩

end

end Expr

/-- The inputs on the transitions of a pattern's automaton stand in the pattern, also after
minimization. -/
theorem Pattern.mem_symbols_of_transition {q : Pattern Input} {d a : Automaton Input}
    (hd : q.positions.automaton = .ok d) (htrim : d.Trim) (ha : a = d ∨ d.minimize = .ok a)
    {t : Transition Input} (ht : t ∈ a.transitions) : t.symbol ∈ q.symbols := by
  have hsymbols : a.symbols = d.symbols := ha.elim (fun heq => heq ▸ rfl) htrim.symbols_minimize
  have hknows : a.KnowsSymbols :=
    ha.elim (fun heq => heq ▸ htrim.knowsSymbols) htrim.knowsSymbols_minimize
  obtain ⟨number, hrep⟩ := Positions.exists_represents hd
  have hmem := hknows t.source t.symbol t.target ((a.mem_transitions t).mp ht)
  rw [hsymbols, hrep.symbols, OrderedSet.mem_ofList] at hmem
  simpa [Pattern.positions] using hmem

namespace Grammar

variable {g : Grammar} {shell : Shell}

/-- A grammar that passes all checks is valid. -/
theorem validate_of_check {valid : ValidGrammar} (h : g.check shell = .ok valid) :
    g.validate shell = .ok valid := by
  obtain ⟨valid', hvalid, h⟩ := Result.bind_eq_ok.mp h
  obtain ⟨⟨⟩, -, h⟩ := Result.bind_eq_ok.mp h
  obtain ⟨⟨⟩, -, h⟩ := Result.bind_eq_ok.mp h
  cases h
  exact hvalid

/-- The steps in which a grammar is compiled. -/
theorem compile_eq_ok {minimized : Bool} {c : CompiledGrammar}
    (h : g.compile shell minimized = .ok c) :
    ∃ valid d, g.validate shell = .ok valid ∧ valid.pattern.positions.automaton = .ok d ∧
      c.matcher.subwords = valid.subwords ∧ (c.matcher.main = d ∨ d.minimize = .ok c.matcher.main) := by
  obtain ⟨valid, hcheck, h⟩ := Result.bind_eq_ok.mp h
  obtain ⟨d, hd, h⟩ := Result.bind_eq_ok.mp h
  refine ⟨valid, d, validate_of_check hcheck, hd, ?_⟩
  cases minimized with
  | false =>
    cases h
    exact ⟨rfl, Or.inl rfl⟩
  | true =>
    obtain ⟨a, ha, h⟩ := Result.bind_eq_ok.mp h
    cases h
    exact ⟨rfl, Or.inr ha⟩

/-- The matcher of a compiled grammar is well-formed. -/
theorem wellFormed_of_compile {minimized : Bool} {c : CompiledGrammar}
    (hfilled : ∀ s ∈ g.statements, s.body.Filled True)
    (hcompile : g.compile shell minimized = .ok c) : c.matcher.WellFormed := by
  obtain ⟨valid, d, hvalid, hd, hsubwords, hmain⟩ := compile_eq_ok hcompile
  have htrim := trim_of_validate hfilled hvalid hd
  refine ⟨?_, ?_, ?_, fun a ha => ?_⟩
  · exact hmain.elim (fun heq => heq ▸ htrim.knowsSymbols) htrim.knowsSymbols_minimize
  · exact hmain.elim (fun heq => heq ▸ htrim.exists_transition) htrim.exists_transition_minimize
  · intro t ht id level span hsubword
    have hmem := Pattern.mem_symbols_of_transition hd htrim hmain ht
    obtain ⟨resolved, -, hpattern⟩ := validate_eq_ok hvalid
    rw [hsubword] at hmem
    rw [hsubwords]
    exact (Expr.exists_automaton_of_mem_symbols hpattern hmem).1
  · rw [hsubwords] at ha
    obtain ⟨q, hq, hminimal⟩ := (mem_subwords_iff hfilled hvalid a).mp ha
    obtain ⟨dq, hdq, hm⟩ := Result.bind_eq_ok.mp hminimal
    have htrim := trim_of_subwordPattern hfilled hq hdq
    refine ⟨htrim.knowsSymbols_minimize hm, htrim.exists_transition_minimize hm, ?_⟩
    intro t ht id level span hsubword
    have hmem := Pattern.mem_symbols_of_transition hdq htrim (Or.inr hm) ht
    obtain ⟨resolved, -, body, hbody, hpattern⟩ := hq
    rw [hsubword] at hmem
    exact (Expr.exists_automaton_of_mem_symbols hpattern hmem).2
      (Expr.flat_of_mem_flattenSubwords hbody)

end Grammar

/-- A script that can be written is refused for fish if the name of the command has a slash in it, and
else there is one. -/
theorem CompiledGrammar.script_cases {c : CompiledGrammar} {shell : Shell}
    {routines : Matcher.Routines} (h : c.matcher.Writable shell routines) :
    shell = .fish ∧ '/' ∈ c.command.toList ∧
        c.script shell = reject (.invalidCommandName c.command) ∨
      (shell = .fish → ¬ '/' ∈ c.command.toList) ∧ ∃ script, c.script shell = .ok script := by
  cases shell with
  | bash => exact Or.inr ⟨nofun, Script.Bash.succeeds_script c.command h⟩
  | fish =>
    by_cases hslash : '/' ∈ c.command.toList
    · exact Or.inl ⟨rfl, hslash, Script.Fish.script_of_slash hslash _⟩
    · exact Or.inr ⟨fun _ => hslash, Script.Fish.succeeds_script hslash h⟩
  | zsh => exact Or.inr ⟨nofun, Script.Zsh.succeeds_script c.command h⟩
  | pwsh => exact Or.inr ⟨nofun, Script.Pwsh.succeeds_script c.command h⟩

/-- Whatever text is read as a grammar: if it can be compiled for a shell, all that its script looks up
is there, the levels of each of its automata go up to a greatest one, no subword has another inside, and
there is a script, unless it is one for fish and the name of the command has a slash in it. -/
theorem Grammar.exists_script_of_compile {text : String} {g : Grammar} {shell : Shell}
    {minimized : Bool} {c : CompiledGrammar} (hparse : Grammar.parse text = .ok g)
    (hcompile : g.compile shell minimized = .ok c) :
    (∃ routines, c.matcher.Writable shell routines) ∧
      (∀ a ∈ c.matcher.subwords.automata,
        (∃ greatest, a.maxLevel? = some greatest ∧
          ∀ t ∈ a.transitions, t.symbol.level ≤ greatest) ∧
        ∀ t ∈ a.transitions, ∀ id level span, t.symbol ≠ .subword id level span) ∧
      (shell = .fish ∧ '/' ∈ c.command.toList ∧
          c.script shell = reject (.invalidCommandName c.command) ∨
        (shell = .fish → ¬ '/' ∈ c.command.toList) ∧ ∃ script, c.script shell = .ok script) := by
  have hwell := wellFormed_of_compile (filled_of_parse hparse) hcompile
  obtain ⟨routines, hwritable⟩ := hwell.exists_writable shell
  refine ⟨⟨routines, hwritable⟩, fun a ha => ?_, CompiledGrammar.script_cases hwritable⟩
  obtain ⟨-, hmoves, hflat⟩ := hwell.subwords a ha
  exact ⟨Automaton.exists_maxLevel hmoves, hflat⟩

/-- A script is written for it. -/
theorem Grammar.exists_script_optionalParts :
    Grammar.parse "cmd [a][b] (foo x | bar x);" = .ok optionalParts ∧
      ∃ c, optionalParts.compile .bash true = .ok c ∧ ∃ script, c.script .bash = .ok script := by
  have hparse : Grammar.parse "cmd [a][b] (foo x | bar x);" = .ok optionalParts := by decide +kernel
  obtain ⟨valid, hcheck, hpattern⟩ := check_optionalParts
  have hd : valid.pattern.positions.automaton = .ok optionalPartsAutomaton := by
    rw [hpattern, automaton_optionalParts]
  have htrim := trim_of_validate (filled_of_parse hparse) (validate_of_check hcheck) hd
  obtain ⟨m, hm, -⟩ := htrim.exists_minimize
  have hcompile : optionalParts.compile .bash true =
      .ok ⟨valid.command, m, valid.subwords⟩ := by
    rw [compile, hcheck, Result.ok_bind, hd, Result.ok_bind, if_pos rfl, hm]
    rfl
  exact ⟨hparse, _, hcompile,
    ((exists_script_of_compile hparse hcompile).2.2.resolve_left (by simp)).2⟩

end ShellCompletion
