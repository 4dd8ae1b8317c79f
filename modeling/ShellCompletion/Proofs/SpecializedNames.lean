import ShellCompletion.Proofs.Circles

/-!
# Specialized names

A name is specialized from the start or by its definitions for shells. In the second case its commands
are those of its definitions: the command for a shell stands in the definition for the shell, and the
generic command in the plain definition. A name without definitions for shells has the commands, if any,
that it has from the start.
-/

namespace ShellCompletion

/-- Shells have different names. -/
theorem Shell.name_injective : Function.Injective Shell.name := by
  intro shell other h
  cases shell <;> cases other <;> simp_all [Shell.name]

/-- A shell is found by its own name only. -/
theorem Shell.name_of_ofGrammarName? {name : String} {shell : Shell}
    (h : Shell.ofGrammarName? name = some shell) : shell.name = name := by
  obtain ⟨h, -⟩ := Option.filter_eq_some_iff.mp h
  simpa using List.find?_some h

/-- The name that a statement defines plainly. -/
def Statement.plainName? : Statement → Option String
  | .definition name none _ => some name
  | _ => none

/-- The commands found so far for a name. -/
def Specializations.commands (found : Specializations) (name : String) : Specialization :=
  (found.get? name).getD {}

namespace Specializations

variable (found : Specializations) (name other : String) (commands : Specialization)

/-- Commands that are put in for a name are found under it. -/
theorem commands_insert : Specializations.commands (found.insert name commands) other =
    if other = name then commands else found.commands other := by
  rw [Specializations.commands, OrderedMap.get?_insert]
  split <;> rfl

/-- A name for which commands are put in is one more. -/
theorem contains_insert : (found.insert name commands).contains other =
    (decide (other = name) || found.contains other) := by
  rw [OrderedMap.contains, OrderedMap.get?_insert, OrderedMap.contains]
  split <;> simp [*]

end Specializations

namespace Grammar

/-! ### The definitions of a name -/

/-- Whether a name has a definition for some shell. -/
def Specializes (g : Grammar) (name : String) : Prop :=
  ∃ shell body, Statement.definition name (some shell) body ∈ g.statements

/-- Whether a name is defined as a command, for the given shell or plainly. -/
def Gives (g : Grammar) (name : String) (shell : Option String) (command : String) : Prop :=
  ∃ patterns level span,
    Statement.definition name shell (.command command patterns level span) ∈ g.statements

/-- Whether a name is specialized from the start. -/
def Predefined (name : String) : Prop := name ∈ predefined.map Prod.fst

instance (name : String) : Decidable (Predefined name) :=
  inferInstanceAs (Decidable (name ∈ predefined.map Prod.fst))

/-- Whether a name is specialized by its definitions or from the start. -/
def Specialized (g : Grammar) (name : String) : Prop := g.Specializes name ∨ Predefined name

/-- A name is specialized before a statement or by it. -/
theorem specializes_append {before : List Statement} {s : Statement} {name : String} :
    Specializes ⟨before ++ [s]⟩ name ↔
      Specializes ⟨before⟩ name ∨ ∃ shell body, s = .definition name (some shell) body := by
  simp only [Specializes, List.mem_append, List.mem_singleton, exists_or, eq_comm]

/-- A command is given before a statement or by it. -/
theorem gives_append {before : List Statement} {s : Statement} {name command : String}
    {shell : Option String} : Gives ⟨before ++ [s]⟩ name shell command ↔
      Gives ⟨before⟩ name shell command ∨
        ∃ patterns level span, s = .definition name shell (.command command patterns level span) := by
  simp only [Gives, List.mem_append, List.mem_singleton, exists_or, eq_comm]

/-- A name is defined before a statement or by it. -/
theorem defines_append {before : List Statement} {s : Statement} {name : String} :
    Defines ⟨before ++ [s]⟩ name ↔ Defines ⟨before⟩ name ∨ ∃ body, s = .definition name none body := by
  simp only [Defines, List.mem_append, List.mem_singleton, exists_or, eq_comm]

/-- The plainly defined names, in order. -/
def plainNames (g : Grammar) : List String := g.statements.filterMap Statement.plainName?

/-- The definitions are found exactly if no name is plainly defined twice. -/
theorem definitions_cases (g : Grammar) :
    (g.plainNames.Nodup ∧ ∃ definitions, g.definitions = .ok definitions) ∨
      (¬ g.plainNames.Nodup ∧ ∃ name, g.definitions = reject (.duplicateDefinition name none)) := by
  have hfold : (∃ found : Definitions, g.definitions = .ok found ∧ g.plainNames = found.keys) ∨
      ∃ e, g.definitions = .error e ∧
        (¬ g.plainNames.Nodup ∧ ∃ name, e = .rejected (.duplicateDefinition name none)) := by
    apply Result.foldlM_cases (P := fun before (found : Definitions) =>
      before.filterMap Statement.plainName? = found.keys)
    · rfl
    · intro before statement behind found hsplit hfound
      rw [List.filterMap_append]
      split
      · next name body =>
        split
        · next hold =>
          refine Or.inr ⟨_, rfl, ?_, name, rfl⟩
          rw [plainNames, hsplit, List.filterMap_append, hfound, List.nodup_append]
          intro hnodup
          exact hnodup.2.2 name ((found.contains_iff name).mp hold) name (by simp [Statement.plainName?])
            rfl
        · next hnew =>
          refine Or.inl ⟨_, rfl, ?_⟩
          rw [hfound, OrderedMap.keys_insert, if_neg]
          · rfl
          · exact fun hmem => hnew ((found.contains_iff name).mpr hmem)
      · next hother =>
        refine Or.inl ⟨_, rfl, ?_⟩
        have hnone : statement.plainName? = none := by
          cases statement with
          | call => rfl
          | definition name shell body =>
            cases shell with
            | none => exact (hother name body rfl).elim
            | some => rfl
        rw [hfound, List.filterMap_cons, hnone, List.filterMap_nil, List.append_nil]
  rcases hfold with ⟨found, hok, hkeys⟩ | ⟨e, herror, hrepeated, name, rfl⟩
  · refine Or.inl ⟨?_, found, hok⟩
    rw [hkeys]
    exact found.nodup
  · exact Or.inr ⟨hrepeated, name, herror⟩

/-! ### One definition -/

section

variable {found next : Specializations} {name other shell : String} {body : Expr}

/-- A definition for a shell is taken up if it is a command for a known shell that has none. -/
theorem addShellDefinition_eq_ok (h : addShellDefinition found other shell body = .ok next) :
    ∃ text patterns level span known, body = .command text patterns level span ∧
      Shell.name known = shell ∧ (found.commands other).shells.get? known = none ∧
      next = found.insert other { found.commands other with
        shells := (found.commands other).shells.set known text } := by
  unfold addShellDefinition at h
  split at h
  · next text patterns level span =>
    split at h
    · cases h
    · next known hknown =>
      dsimp only at h
      split at h
      · cases h
      · next hfree =>
        cases h
        exact ⟨text, patterns, level, span, known, rfl, Shell.name_of_ofGrammarName? hknown,
          Option.not_isSome_iff_eq_none.mp hfree, rfl⟩
  · cases h

/-- A plain definition is taken up if its name is specialized, and has to be a command then. -/
theorem addGenericDefinition_eq_ok (h : addGenericDefinition found other body = .ok next) :
    found.contains other = false ∧ next = found ∨
      ∃ text patterns level span, body = .command text patterns level span ∧
        found.contains other = true ∧
        next = found.insert other { found.commands other with generic := some text } := by
  unfold addGenericDefinition at h
  rw [OrderedMap.contains, Specializations.commands]
  split at h
  · next hnone =>
    cases h
    exact Or.inl ⟨by rw [hnone]; rfl, rfl⟩
  · next commands hsome =>
    split at h
    · next text patterns level span =>
      cases h
      exact Or.inr ⟨text, patterns, level, span, rfl, by rw [hsome]; rfl, by rw [hsome]; rfl⟩
    · cases h

/-- A definition for a shell leaves other names alone. -/
theorem get?_addShellDefinition (h : addShellDefinition found other shell body = .ok next)
    (hother : name ≠ other) : next.get? name = found.get? name := by
  obtain ⟨text, patterns, level, span, known, -, -, -, rfl⟩ := addShellDefinition_eq_ok h
  rw [OrderedMap.get?_insert, if_neg hother]

/-- A plain definition leaves other names alone. -/
theorem get?_addGenericDefinition (h : addGenericDefinition found other body = .ok next)
    (hother : name ≠ other) : next.get? name = found.get? name := by
  obtain ⟨-, rfl⟩ | ⟨text, patterns, level, span, -, -, rfl⟩ := addGenericDefinition_eq_ok h
  · rfl
  · rw [OrderedMap.get?_insert, if_neg hother]

end

/-! ### All definitions -/

/-- Whether the commands found are those of the definitions for shells. -/
structure FromShells (g : Grammar) (found : Specializations) : Prop where
  contains_iff (name : String) : found.contains name = true ↔ g.Specializes name
  shells (name : String) (shell : Shell) (text : String) :
    (found.commands name).shells.get? shell = some text ↔ g.Gives name (some shell.name) text
  generic (name : String) : (found.commands name).generic = none

/-- Whether more commands are found than before, those of the plain definitions of specialized names. -/
structure FromPlain (found : Specializations) (g : Grammar) (next : Specializations) : Prop where
  contains (name : String) : next.contains name = found.contains name
  shells (name : String) : (next.commands name).shells = (found.commands name).shells
  gives {name text : String} : (next.commands name).generic = some text → g.Gives name none text
  isSome {name : String} : found.contains name = true → g.Defines name →
    (next.commands name).generic.isSome = true

section

variable {before : List Statement} {found first next : Specializations}

/-- A definition for a shell adds its command. -/
theorem FromShells.addShellDefinition {other shell : String} {body : Expr}
    (h : FromShells ⟨before⟩ found) (hnext : addShellDefinition found other shell body = .ok next) :
    FromShells ⟨before ++ [.definition other (some shell) body]⟩ next := by
  obtain ⟨text, patterns, level, span, known, rfl, rfl, hfree, rfl⟩ := addShellDefinition_eq_ok hnext
  refine ⟨fun name => ?_, fun name shell command => ?_, fun name => ?_⟩
  · rw [Specializations.contains_insert, specializes_append, Bool.or_eq_true, h.contains_iff,
      decide_eq_true_iff]
    simp [or_comm, eq_comm]
  · rw [Specializations.commands_insert, gives_append, ← h.shells]
    by_cases hname : name = other
    · rw [if_pos hname, hname, ShellTexts.get?_set]
      by_cases hshell : shell = known
      · simp [hshell, hfree]
      · simp [hshell, Shell.name_injective.eq_iff, Ne.symm hshell]
    · simp [hname, Ne.symm hname]
  · rw [Specializations.commands_insert]
    split
    · exact h.generic other
    · exact h.generic name

/-- Statements that are no definitions for shells add no commands for shells. -/
theorem FromShells.skip (h : FromShells ⟨before⟩ found) {s : Statement}
    (hs : ∀ name shell body, s ≠ .definition name (some shell) body) :
    FromShells ⟨before ++ [s]⟩ found := by
  refine ⟨fun name => ?_, fun name shell command => ?_, h.generic⟩
  · simp [specializes_append, h.contains_iff, hs]
  · simp [gives_append, h.shells, hs]

/-- Statements that are no plain definitions of specialized names add no generic commands. -/
theorem FromPlain.skip (h : FromPlain first ⟨before⟩ found) {s : Statement}
    (hs : ∀ name body, s = .definition name none body → found.contains name = false) :
    FromPlain first ⟨before ++ [s]⟩ found := by
  refine ⟨h.contains, h.shells, fun hgeneric => gives_append.mpr (Or.inl (h.gives hgeneric)), ?_⟩
  intro name hname hdefines
  rcases defines_append.mp hdefines with hdefines | ⟨body, heq⟩
  · exact h.isSome hname hdefines
  · rw [← h.contains, hs name body heq] at hname
    cases hname

/-- A plain definition of a specialized name adds its command. -/
theorem FromPlain.addGenericDefinition {other : String} {body : Expr}
    (h : FromPlain first ⟨before⟩ found) (hnext : addGenericDefinition found other body = .ok next) :
    FromPlain first ⟨before ++ [.definition other none body]⟩ next := by
  obtain ⟨hcontains, rfl⟩ | ⟨text, patterns, level, span, rfl, hcontains, rfl⟩ :=
    addGenericDefinition_eq_ok hnext
  · refine h.skip fun name written heq => ?_
    cases heq
    exact hcontains
  · refine ⟨fun name => ?_, fun name => ?_, fun {name} command hgeneric => ?_,
      fun {name} hname hdefines => ?_⟩
    · rw [Specializations.contains_insert, ← h.contains]
      by_cases hname : name = other
      · simp [hname, hcontains]
      · simp [hname]
    · rw [Specializations.commands_insert]
      split
      · next hname => rw [hname, ← h.shells]
      · exact h.shells name
    · rw [Specializations.commands_insert] at hgeneric
      rw [gives_append]
      split at hgeneric
      · next hname =>
        cases hgeneric
        exact Or.inr ⟨patterns, level, span, by rw [hname]⟩
      · exact Or.inl (h.gives hgeneric)
    · rw [Specializations.commands_insert]
      split
      · rfl
      · next hother =>
        rcases defines_append.mp hdefines with hdefines | ⟨written, heq⟩
        · exact h.isSome hname hdefines
        · cases heq
          exact (hother rfl).elim

end

/-- The generic command that a plain definition gives replaces no other: where the definition is taken up,
there is none. A second plain definition of a name is rejected with the plain definitions, which are listed
before the specialized names. -/
theorem generic_eq_none {g : Grammar} {definitions : Definitions}
    (hdefinitions : g.definitions = .ok definitions) {before behind : List Statement} {name : String}
    {body : Expr} (hsplit : g.statements = before ++ .definition name none body :: behind)
    {first found : Specializations} (hplain : FromPlain first ⟨before⟩ found) :
    (found.commands name).generic = none := by
  rw [Option.eq_none_iff_forall_ne_some]
  intro text hgeneric
  obtain ⟨patterns, level, span, hwritten⟩ := hplain.gives hgeneric
  have hbefore : name ∈ before.filterMap Statement.plainName? :=
    List.mem_filterMap.mpr ⟨_, hwritten, rfl⟩
  rcases g.definitions_cases with ⟨hnodup, -⟩ | ⟨-, repeated, hrejected⟩
  · rw [plainNames, hsplit, List.filterMap_append, List.nodup_append] at hnodup
    exact hnodup.2.2 name hbefore name (by simp [Statement.plainName?]) rfl
  · rw [hdefinitions] at hrejected
    cases hrejected

section

variable {g : Grammar} {specializations : Specializations}
  (hspecializations : g.specializations = .ok specializations)

include hspecializations

/-- The specialized names are found in three steps: the definitions for shells, the plain definitions of
their names, and the names that are specialized from the start. -/
theorem exists_fromPlain : ∃ first found, g.FromShells first ∧ FromPlain first g found ∧
    ∀ name, specializations.get? name = (found.get? name).or (predefined.lookup name) := by
  obtain ⟨first, hfirst, h⟩ := Result.bind_eq_ok.mp hspecializations
  obtain ⟨found, hfound, h⟩ := Result.bind_eq_ok.mp h
  have hshells : g.FromShells first := by
    refine Result.foldlM_invariant (P := fun before found => FromShells ⟨before⟩ found) hfirst ?_ ?_
    · refine ⟨fun name => ?_, fun name shell text => ?_, fun name => rfl⟩
      · simp [OrderedMap.contains, Specializes]
      · cases shell <;> simp [Specializations.commands, ShellTexts.get?, Gives]
    · intro before s found next hbefore hnext
      split at hnext
      · exact hbefore.addShellDefinition hnext
      · next hother =>
        cases hnext
        exact hbefore.skip hother
  refine ⟨first, found, hshells, ?_, fun name => by
    rw [← Except.ok.inj h, OrderedMap.get?_foldl_insertNew]⟩
  refine Result.foldlM_invariant (P := fun before found => FromPlain first ⟨before⟩ found) hfound ?_ ?_
  · refine ⟨fun _ => rfl, fun _ => rfl, fun {name} text hgeneric => ?_,
      fun _ hdefines => ?_⟩
    · rw [hshells.generic] at hgeneric
      cases hgeneric
    · simp [Defines] at hdefines
  · intro before s found next hbefore hnext
    split at hnext
    · exact hbefore.addGenericDefinition hnext
    · next hother =>
      cases hnext
      exact hbefore.skip fun name body heq => (hother name body heq).elim

/-- A name without definitions for shells has the commands that it has from the start. -/
theorem get?_of_not_specializes {name : String} (h : ¬ g.Specializes name) :
    specializations.get? name = predefined.lookup name := by
  obtain ⟨first, found, hshells, hplain, hget⟩ := exists_fromPlain hspecializations
  rw [← hshells.contains_iff, ← hplain.contains, OrderedMap.contains,
    Option.not_isSome_iff_eq_none] at h
  rw [hget, h, Option.none_or]

/-- The specialized names are those with definitions for shells and those that are specialized from the
start. -/
theorem contains_specializations_iff {name : String} :
    specializations.contains name = true ↔ g.Specialized name := by
  obtain ⟨first, found, hshells, hplain, hget⟩ := exists_fromPlain hspecializations
  rw [Specialized, ← hshells.contains_iff, ← hplain.contains, OrderedMap.contains, hget,
    Option.isSome_or, Bool.or_eq_true, OrderedMap.contains, List.lookup_isSome_iff, Predefined,
    List.mem_map]
  simp only [beq_iff_eq, eq_comm (a := name)]

/-- The commands of a name with definitions for shells are those of its definitions. -/
theorem exists_commands {definitions : Definitions} (hdefinitions : g.definitions = .ok definitions)
    {name : String} (h : g.Specializes name) : ∃ commands, specializations.get? name = some commands ∧
      (∀ (shell : Shell) text,
        commands.shells.get? shell = some text ↔ g.Gives name (some shell.name) text) ∧
      ∀ text, commands.generic = some text ↔ g.Gives name none text := by
  obtain ⟨first, found, hshells, hplain, hget⟩ := exists_fromPlain hspecializations
  have hfirst := (hshells.contains_iff name).mpr h
  have hcontains := hfirst
  rw [← hplain.contains, OrderedMap.contains, Option.isSome_iff_exists] at hcontains
  obtain ⟨commands, hcommands⟩ := hcontains
  have heq : found.commands name = commands := by rw [Specializations.commands, hcommands]; rfl
  refine ⟨commands, by rw [hget, hcommands, Option.some_or], fun shell text => ?_, fun text => ?_⟩
  · rw [← heq, hplain.shells, hshells.shells]
  · rw [← heq]
    refine ⟨hplain.gives, ?_⟩
    rintro ⟨patterns, level, span, hwritten⟩
    obtain ⟨generic, hgeneric⟩ := Option.isSome_iff_exists.mp (hplain.isSome hfirst ⟨_, hwritten⟩)
    -- a name has one plain definition, so the command that was taken up is the one written here
    obtain ⟨patterns', level', span', hwritten'⟩ := hplain.gives hgeneric
    have hget' := (get?_definitions hdefinitions).mpr ⟨_, hwritten', rfl⟩
    rw [(get?_definitions hdefinitions).mpr ⟨_, hwritten, rfl⟩] at hget'
    cases Option.some.inj hget'
    exact hgeneric

end

end Grammar

end ShellCompletion
