import ShellCompletion.Proofs.PlainDefinitions

/-!
# Warnings about names

Validation reports the plainly defined names that are not used and the names in the calls that are not
defined. A name counts as used when a reference to it is replaced. So a specialized name never counts as
used, since references to it stay in place, and neither does a name that only definitions out of sight
mention, since those are not resolved. A name counts as undefined when a reference to it is left at the end
and it is not specialized. This misses the names to which only definitions of specialized names lead, and
it takes up names that a definition out of sight mentions, although they are defined.
-/

namespace ShellCompletion

/-- A defined name is unused unless it is mentioned in one of the given definitions or in the given
expression and there is something to put in its place. -/
theorem Definitions.mem_unused {definitions : Definitions} {specializations : Specializations}
    {order : List String} {e : Expr} {name : String} :
    name ∈ definitions.unused specializations order e ↔ name ∈ definitions.keys ∧
      ¬ (((∃ other ∈ order, name ∈ ((definitions.get? other).map Expr.references).getD []) ∨
        name ∈ e.references) ∧ (definitions.replacement? specializations name).isSome = true) := by
  rw [unused, List.mem_filter, Bool.not_eq_true', ← Bool.not_eq_true, Bool.and_eq_true,
    List.contains_iff_mem, List.mem_append, List.mem_flatMap]

namespace Grammar

open Relation (ReflTransGen)

/-- Whether a name occurs in a call or in a plain definition. -/
def Mentioned (g : Grammar) (name : String) : Prop :=
  name ∈ g.body.references ∨ ∃ other, g.DependsOn other name

/-- Whether a name occurs in a call or in a plain definition in sight. -/
def MentionedInSight (g : Grammar) (name : String) : Prop :=
  name ∈ g.body.references ∨ ∃ other, g.InSight other ∧ g.DependsOn other name

/-- Whether no call mentions a name out of sight whose definition mentions a name that is to be replaced. -/
def ReplacesAll (g : Grammar) : Prop :=
  ∀ mentioned ∈ g.body.references, ¬ g.InSight mentioned →
    ∀ name, g.Unfolds mentioned name → g.Defines name → g.Specialized name

/-- Whether definitions of names that are not specialized lead from a call to a name. -/
def CalledPlainly (g : Grammar) (name : String) : Prop :=
  ∃ mentioned ∈ g.body.references, ReflTransGen g.Unfolds mentioned name

variable {g : Grammar}

theorem MentionedInSight.mentioned {name : String} (h : g.MentionedInSight name) : g.Mentioned name := by
  rcases h with hbody | ⟨other, -, hdepends⟩
  · exact Or.inl hbody
  · exact Or.inr ⟨other, hdepends⟩

theorem CalledPlainly.called {name : String} (h : g.CalledPlainly name) : g.Called name := by
  obtain ⟨mentioned, hmentioned, hpath⟩ := h
  exact ⟨mentioned, hmentioned, ReflTransGen.mono (fun _ _ hunfolds => hunfolds.2) _ _ hpath⟩

/-! ### What is reported -/

/-- A name is mentioned in a definition that is resolved exactly if it is mentioned in one in sight. -/
theorem Resolution.exists_mem_order_iff (r : g.Resolution) {name : String} (hname : g.Defines name) :
    (∃ other ∈ r.order, name ∈ ((r.definitions.get? other).map Expr.references).getD []) ↔
      ∃ other, g.InSight other ∧ g.DependsOn other name := by
  constructor
  · rintro ⟨other, horder, hmem⟩
    cases hbody : r.definitions.get? other with
    | none => simp [hbody] at hmem
    | some body =>
      rw [r.resolves.order_eq, List.mem_filter] at horder
      rw [hbody, Option.map_some, Option.getD_some] at hmem
      exact ⟨other, (mem_names_iff.mp horder.1).2, dependsOn_of_get? hbody hmem⟩
  · rintro ⟨other, hsight, hdepends⟩
    obtain ⟨written, hwritten, hmem⟩ := hdepends
    have hedge := (edge_iff_dependsOn r.definitions_eq other name).mpr
      ⟨⟨written, hwritten, hmem⟩, hname⟩
    refine ⟨other, ?_, ?_⟩
    · rw [r.resolves.order_eq, List.mem_filter]
      refine ⟨mem_names_iff.mpr ⟨⟨written, hwritten⟩, hsight⟩, ?_⟩
      have hne := List.ne_nil_of_mem hedge
      simpa using hne
    · rw [(get?_definitions r.definitions_eq).mpr ⟨written, hwritten, rfl⟩]
      simpa [Expr.references_distributed] using hmem

section

variable {shell : Shell} {valid : ValidGrammar} (h : g.validate shell = .ok valid)

include h

/-- A valid grammar was resolved, and its unused names are those found then. -/
theorem exists_resolved_of_validate : ∃ resolved, g.resolve = .ok resolved ∧
    valid.unused = resolved.unused ∧ valid.specializations = resolved.specializations := by
  obtain ⟨resolved, hresolved, h⟩ := Result.bind_eq_ok.mp h
  obtain ⟨compiled, -, h⟩ := Result.bind_eq_ok.mp h
  cases h
  exact ⟨resolved, hresolved, rfl, rfl⟩

/-- The specialized names of a valid grammar are those of the grammar. -/
theorem contains_specializations_valid_iff {name : String} :
    valid.specializations.contains name = true ↔ g.Specialized name := by
  obtain ⟨resolved, hresolved, -, heq⟩ := exists_resolved_of_validate h
  obtain ⟨-, -, hspecializations, -⟩ := resolve_eq_ok hresolved
  rw [heq, contains_specializations_iff hspecializations]

/-- The names that are reported as unused. -/
theorem mem_unused_iff {name : String} : name ∈ valid.unused ↔
    g.Defines name ∧ (g.Specialized name ∨ ¬ g.MentionedInSight name) := by
  obtain ⟨resolved, hresolved, hunused, -⟩ := exists_resolved_of_validate h
  obtain ⟨r, -⟩ := exists_resolution_of_resolve hresolved
  obtain ⟨-, -, hspecializations, -⟩ := resolve_eq_ok hresolved
  have hlist : resolved.unused =
      sortedNames (r.definitions.unused resolved.specializations r.order g.body.distributed) := by
    obtain ⟨command, -, h⟩ := Result.bind_eq_ok.mp hresolved
    rw [r.definitions_eq, Result.ok_bind, hspecializations, Result.ok_bind, r.order_eq,
      Result.ok_bind] at h
    obtain ⟨⟨⟩, -, h⟩ := Result.bind_eq_ok.mp h
    rw [← Except.ok.inj h]
  have hreplaced : (r.definitions.replacement? resolved.specializations name).isSome = true ↔
      ¬ g.Specialized name ∧ g.Defines name := by
    rw [← contains_specializations_iff hspecializations, ← mem_keys_iff_defines r.definitions_eq,
      ← OrderedMap.contains_iff, Definitions.replacement?]
    split
    · next hspecialized => simp [hspecialized]
    · next hplain => exact (and_iff_right hplain).symm
  rw [hunused, hlist, sortedNames, List.mem_mergeSort, List.mem_eraseDups, Definitions.mem_unused,
    hreplaced, mem_keys_iff_defines r.definitions_eq, Expr.references_distributed]
  refine and_congr_right fun hname => ?_
  rw [r.exists_mem_order_iff hname, or_comm, ← MentionedInSight, and_iff_left hname, not_and_or,
    not_not, or_comm]

/-- The names that are reported as undefined. -/
theorem mem_undefined_valid_iff {name : String} : name ∈ valid.undefined ↔
    ¬ g.Specialized name ∧ ∃ mentioned ∈ g.body.references,
      ¬ g.Defines name ∧ (mentioned = name ∨
        g.InSight mentioned ∧ ReflTransGen g.Unfolds mentioned name) ∨
      ¬ g.InSight mentioned ∧ g.Unfolds mentioned name := by
  obtain ⟨resolved, hresolved, hundefined⟩ := mem_undefined_iff h
  obtain ⟨-, -, hspecializations, -⟩ := resolve_eq_ok hresolved
  rw [hundefined, ← Bool.not_eq_true, contains_specializations_iff hspecializations,
    mem_references_resolved hresolved, and_comm]
  refine and_congr_right fun hplain => ?_
  simp only [hplain, false_or]

/-! ### When the reports are right -/

/-- The warnings of unused names are right exactly if each mentioned name is replaced where it is
seen. -/
theorem unused_right_iff :
    (∀ name, name ∈ valid.unused ↔ g.Defines name ∧ ¬ g.Mentioned name) ↔
      ∀ name, g.Defines name → g.Mentioned name → ¬ g.Specialized name ∧ g.MentionedInSight name := by
  constructor
  · intro hright name hname hmentioned
    have hused : name ∉ valid.unused := fun hmem => ((hright name).mp hmem).2 hmentioned
    rw [mem_unused_iff h, not_and, not_or, not_not] at hused
    exact hused hname
  · intro hseen name
    rw [mem_unused_iff h]
    refine and_congr_right fun hname => ?_
    constructor
    · intro hunused hmentioned
      obtain ⟨hplain, hsight⟩ := hseen name hname hmentioned
      exact hunused.elim hplain (absurd hsight)
    · intro hunmentioned
      exact Or.inr (mt MentionedInSight.mentioned hunmentioned)

/-- Where no definition out of sight gets in the way, the names left are those that are called plainly. -/
theorem mem_undefined_of_replacesAll (hall : g.ReplacesAll) {name : String} :
    name ∈ valid.undefined ↔ g.CalledPlainly name ∧ ¬ g.Defines name ∧ ¬ g.Specialized name := by
  rw [mem_undefined_valid_iff h]
  constructor
  · rintro ⟨hplain, mentioned, hmentioned, ⟨hundefined, rfl | ⟨-, hpath⟩⟩ | ⟨hhidden, hunfolds⟩⟩
    · exact ⟨⟨mentioned, hmentioned, .refl⟩, hundefined, hplain⟩
    · exact ⟨⟨mentioned, hmentioned, hpath⟩, hundefined, hplain⟩
    · exact ⟨⟨mentioned, hmentioned, .single hunfolds⟩,
        fun hdefines => hplain (hall mentioned hmentioned hhidden name hunfolds hdefines), hplain⟩
  · rintro ⟨⟨mentioned, hmentioned, hpath⟩, hundefined, hplain⟩
    refine ⟨hplain, mentioned, hmentioned, ?_⟩
    by_cases hsight : g.InSight mentioned
    · exact Or.inl ⟨hundefined, Or.inr ⟨hsight, hpath⟩⟩
    -- a name behind the first one would be one that is to be replaced
    rcases hpath.cases_head with rfl | ⟨next, hfirst, hothers⟩
    · exact Or.inl ⟨hundefined, Or.inl rfl⟩
    rcases hothers.cases_head with rfl | ⟨_, hsecond, -⟩
    · exact Or.inr ⟨hsight, hfirst⟩
    · exact (hsecond.1 (hall mentioned hmentioned hsight next hfirst hsecond.2.defines)).elim

/-- The warnings of undefined names are right exactly if all is replaced and what is called is called
plainly. -/
theorem undefined_right_iff :
    (∀ name, name ∈ valid.undefined ↔
        g.Called name ∧ ¬ g.Defines name ∧ valid.specializations.contains name = false) ↔
      g.ReplacesAll ∧
        ∀ name, g.Called name → ¬ g.Defines name → ¬ g.Specialized name → g.CalledPlainly name := by
  simp only [← Bool.not_eq_true, contains_specializations_valid_iff h]
  constructor
  · intro hright
    have hall : g.ReplacesAll := by
      intro mentioned hmentioned hhidden name hunfolds hdefines
      by_contra hplain
      have hmem := (mem_undefined_valid_iff h).mpr
        ⟨hplain, mentioned, hmentioned, Or.inr ⟨hhidden, hunfolds⟩⟩
      exact ((hright name).mp hmem).2.1 hdefines
    refine ⟨hall, fun name hcalled hundefined hplain => ?_⟩
    exact ((mem_undefined_of_replacesAll h hall).mp
      ((hright name).mpr ⟨hcalled, hundefined, hplain⟩)).1
  · rintro ⟨hall, hplainly⟩ name
    rw [mem_undefined_of_replacesAll h hall]
    constructor
    · rintro ⟨hcalled, hundefined, hplain⟩
      exact ⟨hcalled.called, hundefined, hplain⟩
    · rintro ⟨hcalled, hundefined, hplain⟩
      exact ⟨hplainly name hcalled hundefined hplain, hundefined, hplain⟩

/-- Without circles no definition is out of sight. -/
theorem Acyclic.replacesAll (hacyclic : g.Acyclic) : g.ReplacesAll := by
  obtain ⟨resolved, hresolved, -⟩ := exists_resolved_of_validate h
  obtain ⟨r, -⟩ := exists_resolution_of_resolve hresolved
  intro mentioned _ hhidden name hunfolds
  exact (hhidden (hacyclic.inSight r.definitions_eq hunfolds.2.defines)).elim

/-- Without circles all that is mentioned is mentioned in sight. -/
theorem Acyclic.mentionedInSight_iff (hacyclic : g.Acyclic) {name : String} :
    g.MentionedInSight name ↔ g.Mentioned name := by
  obtain ⟨resolved, hresolved, -⟩ := exists_resolved_of_validate h
  obtain ⟨r, -⟩ := exists_resolution_of_resolve hresolved
  refine ⟨MentionedInSight.mentioned, fun hmentioned => ?_⟩
  rcases hmentioned with hbody | ⟨other, hdepends⟩
  · exact Or.inl hbody
  · exact Or.inr ⟨other, hacyclic.inSight r.definitions_eq hdepends.defines, hdepends⟩

end

/-- When the warnings of a valid grammar are right. Those about unused names are, if each plainly defined
name that is mentioned is not specialized and is mentioned in a call or in a definition in sight. Those
about undefined names are, if no call leads to a definition out of sight that mentions a name to be
replaced, and the calls lead to each undefined name without definitions of specialized names. Without
circles both come down to what specialized names have to do with it. -/
theorem warnings_right_iff {shell : Shell} {valid : ValidGrammar} (h : g.validate shell = .ok valid) :
    ((∀ name, name ∈ valid.unused ↔ g.Defines name ∧ ¬ g.Mentioned name) ↔
      ∀ name, g.Defines name → g.Mentioned name →
        ¬ g.Specialized name ∧ g.MentionedInSight name) ∧
    ((∀ name, name ∈ valid.undefined ↔
        g.Called name ∧ ¬ g.Defines name ∧ valid.specializations.contains name = false) ↔
      g.ReplacesAll ∧
        ∀ name, g.Called name → ¬ g.Defines name → ¬ g.Specialized name → g.CalledPlainly name) ∧
    (g.Acyclic →
      ((∀ name, name ∈ valid.unused ↔ g.Defines name ∧ ¬ g.Mentioned name) ↔
        ∀ name, g.Defines name → g.Mentioned name → ¬ g.Specialized name) ∧
      ((∀ name, name ∈ valid.undefined ↔
          g.Called name ∧ ¬ g.Defines name ∧ valid.specializations.contains name = false) ↔
        ∀ name, g.Called name → ¬ g.Defines name → ¬ g.Specialized name → g.CalledPlainly name)) := by
  refine ⟨unused_right_iff h, undefined_right_iff h, fun hacyclic => ⟨?_, ?_⟩⟩
  · rw [unused_right_iff h]
    simp only [Acyclic.mentionedInSight_iff h hacyclic]
    exact forall_congr' fun name => forall_congr' fun _ => forall_congr' fun hmentioned =>
      and_iff_left hmentioned
  · rw [undefined_right_iff h, and_iff_right (Acyclic.replacesAll h hacyclic)]

/-- The grammar of `cmd <A> <B>; <A> ::= <C> | x; <D> ::= y;`. -/
def someMissing : Grammar := ⟨[
  .call "cmd" (.sequence [.reference "A" 0 (some ⟨0, 4, 7⟩), .reference "B" 0 (some ⟨0, 8, 11⟩)]),
  .definition "A" none (.alternative [.reference "C" 0 (some ⟨0, 21, 24⟩),
    .literal "x" none 0 (some ⟨0, 27, 28⟩)]),
  .definition "D" none (.literal "y" none 0 (some ⟨0, 38, 39⟩))]⟩

/-- Its warnings are right. -/
theorem warnings_right_someMissing :
    Grammar.parse "cmd <A> <B>; <A> ::= <C> | x; <D> ::= y;" = .ok someMissing ∧
      ∃ valid, someMissing.validate .bash = .ok valid ∧
        (∀ name, name ∈ valid.unused ↔ someMissing.Defines name ∧ ¬ someMissing.Mentioned name) ∧
        ∀ name, name ∈ valid.undefined ↔ someMissing.Called name ∧ ¬ someMissing.Defines name ∧
          valid.specializations.contains name = false := by
  refine ⟨by decide +kernel, ?_⟩
  obtain ⟨valid, hvalid⟩ : ∃ valid, someMissing.validate .bash = .ok valid := by
    have hcommand : someMissing.command = .ok "cmd" := command_of_calls rfl
    rw [validate, resolve, hcommand]
    exact ⟨_, rfl⟩
  have hdefines : ∀ name, someMissing.Defines name → name = "A" ∨ name = "D" := by
    rintro name ⟨body, hbody⟩
    simp only [someMissing, List.mem_cons, reduceCtorEq, Statement.definition.injEq, true_and,
      List.not_mem_nil, or_false, false_or] at hbody
    exact hbody.imp And.left And.left
  have hplain : ∀ name, someMissing.Defines name → ¬ someMissing.Specialized name := by
    rintro name hname (⟨shell, body, hbody⟩ | hpredefined)
    · simp [someMissing] at hbody
    · rcases hdefines name hname with rfl | rfl <;> revert hpredefined <;> decide
  have hacyclic : someMissing.Acyclic := by
    refine acyclic_of_rank (fun name => if name = "A" then 1 else 0) ?_
    rintro name other ⟨body, hbody, hmem⟩
    simp only [someMissing, List.mem_cons, reduceCtorEq, Statement.definition.injEq, true_and,
      List.not_mem_nil, or_false, false_or] at hbody
    rcases hbody with ⟨rfl, rfl⟩ | ⟨rfl, rfl⟩ <;>
      simp [Expr.references, Expr.referencesAll] at hmem
    simp [hmem]
  obtain ⟨hunused, hundefined⟩ := (warnings_right_iff hvalid).2.2 hacyclic
  refine ⟨valid, hvalid, hunused.mpr fun name hname _ => hplain name hname, hundefined.mpr ?_⟩
  rintro name ⟨mentioned, hmentioned, hpath⟩ - -
  exact ⟨mentioned, hmentioned, ReflTransGen.mono
    (fun _ _ hdepends => ⟨hplain _ hdepends.defines, hdepends⟩) _ _ hpath⟩

/-- The grammar of `cmd <FOO>; <FOO> ::= {{{ a }}}; <FOO@bash> ::= {{{ b }}};`. -/
def usedCommand : Grammar := ⟨[
  .call "cmd" (.reference "FOO" 0 (some ⟨0, 4, 9⟩)),
  .definition "FOO" none (.command "a" none 0 (some ⟨0, 21, 30⟩)),
  .definition "FOO" (some "bash") (.command "b" none 0 (some ⟨0, 47, 56⟩))]⟩

/-- The grammar of `cmd <PATH>; <PATH> ::= <Q>;`. -/
def redirectedPath : Grammar := ⟨[
  .call "cmd" (.reference "PATH" 0 (some ⟨0, 4, 10⟩)),
  .definition "PATH" none (.reference "Q" 0 (some ⟨0, 23, 26⟩))]⟩

/-- A specialized name is reported as unused although a call mentions it, and a name that a specialized
one leads to is not reported although it is undefined. -/
theorem warnings_wrong_specialized :
    (∃ valid, usedCommand.validate .bash = .ok valid ∧ "FOO" ∈ valid.unused ∧
      usedCommand.Mentioned "FOO") ∧
    ∃ valid, redirectedPath.validate .bash = .ok valid ∧ "Q" ∉ valid.undefined ∧
      redirectedPath.Called "Q" ∧ ¬ redirectedPath.Defines "Q" ∧
      valid.specializations.contains "Q" = false := by
  constructor
  · obtain ⟨valid, hvalid⟩ : ∃ valid, usedCommand.validate .bash = .ok valid := by
      have hcommand : usedCommand.command = .ok "cmd" := command_of_calls rfl
      rw [validate, resolve, hcommand]
      exact ⟨_, rfl⟩
    refine ⟨valid, hvalid, (mem_unused_iff hvalid).mpr ⟨?_, Or.inl (Or.inl ?_)⟩, Or.inl ?_⟩
    · simp [Defines, usedCommand]
    · simp [Specializes, usedCommand]
    · decide
  · obtain ⟨valid, hvalid⟩ : ∃ valid, redirectedPath.validate .bash = .ok valid := by
      have hcommand : redirectedPath.command = .ok "cmd" := command_of_calls rfl
      rw [validate, resolve, hcommand]
      exact ⟨_, rfl⟩
    have hstays : ∀ other, ¬ redirectedPath.Unfolds "PATH" other :=
      fun other hunfolds => hunfolds.1 (Or.inr (by decide))
    refine ⟨valid, hvalid, ?_, ⟨"PATH", by decide, .single ⟨.reference "Q" 0 (some ⟨0, 23, 26⟩), ?_⟩⟩,
      by simp [Defines, redirectedPath], ?_⟩
    · rw [mem_undefined_valid_iff hvalid]
      rintro ⟨-, mentioned, hmentioned, hleft⟩
      obtain rfl : mentioned = "PATH" := List.mem_singleton.mp hmentioned
      rcases hleft with ⟨-, heq | ⟨-, hpath⟩⟩ | ⟨-, hunfolds⟩
      · exact absurd heq (by decide)
      · rcases hpath.cases_head with heq | ⟨other, hunfolds, -⟩
        · exact absurd heq (by decide)
        · exact hstays other hunfolds
      · exact hstays "Q" hunfolds
    · simp [redirectedPath, Expr.references]
    · rw [← Bool.not_eq_true, contains_specializations_valid_iff hvalid]
      rintro (⟨shell, body, hbody⟩ | hpredefined)
      · simp [redirectedPath] at hbody
      · exact absurd hpredefined (by decide)

end Grammar

end ShellCompletion
