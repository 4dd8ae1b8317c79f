import ShellCompletion.Proofs.Substitution

/-!
# Resolved grammars

Once the definitions of a grammar are found and no circle of them is in sight, there is an order in which
they are resolved. The definitions in sight are then made of each other, those out of sight stay as they
were, and validation comes down to the check of the neighbours inside words and to the compilation of what
may follow the command.
-/

namespace ShellCompletion.Grammar

open Relation (TransGen)

variable {g : Grammar}

/-- The definitions of a grammar and an order in which they are resolved. -/
structure Resolution (g : Grammar) where
  /-- The definitions as they are found. -/
  definitions : Definitions
  /-- The names in sight, each after those it depends on. -/
  names : List String
  /-- Those of them that depend on others. -/
  order : List String
  definitions_eq : g.definitions = .ok definitions
  order_eq : definitions.dependencies.resolutionOrder = .ok order
  resolves : definitions.dependencies.Resolves names order

namespace Resolution

variable (r : g.Resolution) (specializations : Specializations)

/-- The resolved definitions. -/
def final : Definitions := r.definitions.resolve specializations r.order

/-- What is put in the place of a name. -/
def replacement? : String → Option Expr :=
  (r.final specializations).replacement? specializations

variable {r specializations}

theorem get?_final_eq_none_iff {other : String} :
    (r.final specializations).get? other = none ↔ r.definitions.get? other = none :=
  Definitions.get?_resolve_eq_none

/-- Resolved definitions are those of the defined names. -/
theorem mem_keys_final_iff {other : String} :
    other ∈ (r.final specializations).keys ↔ g.Defines other := by
  rw [← not_iff_not, ← get?_eq_none_iff r.definitions_eq,
    ← r.get?_final_eq_none_iff, OrderedMap.mem_keys_iff, not_exists, Option.eq_none_iff_forall_ne_some]

/-- A name with a definition is defined. -/
theorem defines_of_get? {other : String} {body : Expr} (h : r.definitions.get? other = some body) :
    g.Defines other :=
  (mem_keys_iff_defines r.definitions_eq other).mp ((r.definitions.mem_keys_iff other).mpr ⟨body, h⟩)

/-- A name depends on those that its definition mentions. -/
theorem dependsOn_of_get? {other mentioned : String} {body : Expr}
    (h : r.definitions.get? other = some body) (hmentioned : mentioned ∈ body.references) :
    g.DependsOn other mentioned := by
  obtain ⟨written, hwritten, rfl⟩ := (get?_definitions r.definitions_eq).mp h
  rw [Expr.references_distributed] at hmentioned
  exact ⟨written, hwritten, hmentioned⟩

/-- The names that are ordered are the defined names in sight. -/
theorem mem_names_iff {other : String} :
    other ∈ r.names ↔ g.Defines other ∧ g.InSight other := by
  have hdefines : r.definitions.dependencies.InSight other → g.Defines other := by
    rintro ⟨root, hroot, hreach⟩
    rw [← mem_keys_iff_defines r.definitions_eq, ← Definitions.keys_dependencies]
    rcases hreach.cases_tail with rfl | ⟨last, -, hlast⟩
    · exact hroot.1
    · exact r.definitions.closed_dependencies last other hlast
  rw [r.resolves.mem_iff]
  constructor
  · intro h
    exact ⟨hdefines h, (inSight_iff r.definitions_eq (hdefines h)).mp h⟩
  · rintro ⟨hother, h⟩
    exact (inSight_iff r.definitions_eq hother).mpr h

/-- A definition in sight is resolved. -/
theorem get?_final_of_inSight {other : String} (h : g.InSight other) :
    (r.final specializations).get? other =
      (r.definitions.get? other).map (Expr.substitute (r.replacement? specializations)) := by
  cases hbody : r.definitions.get? other with
  | none => exact get?_final_eq_none_iff.mpr hbody
  | some body =>
    have hmem : other ∈ r.names := mem_names_iff.mpr ⟨defines_of_get? hbody, h⟩
    rw [final, Definitions.get?_resolve_of_mem r.resolves other hmem, hbody]
    rfl

/-- A definition out of sight is not resolved. -/
theorem get?_final_of_not_inSight {other : String} (h : ¬ g.InSight other) :
    (r.final specializations).get? other = r.definitions.get? other := by
  cases hbody : r.definitions.get? other with
  | none => exact get?_final_eq_none_iff.mpr hbody
  | some body =>
    obtain ⟨written, hwritten, rfl⟩ := (get?_definitions r.definitions_eq).mp hbody
    exact get?_resolve_of_not_inSight r.definitions_eq r.resolves hwritten h specializations

/-- Nothing is put in the place of a name exactly if it is not to be replaced. -/
theorem replacement?_eq_none_iff {other : String} :
    r.replacement? specializations other = none ↔
      ∀ body, ¬ g.Replaces specializations other body := by
  rw [replacement?, Definitions.replacement?]
  cases hspecialized : specializations.contains other with
  | true => simp [Replaces, hspecialized]
  | false =>
    rw [if_neg Bool.false_ne_true, get?_final_eq_none_iff, get?_eq_none_iff r.definitions_eq]
    simp [Defines, Replaces, hspecialized]

/-- What is put in the place of a name in sight mentions nothing that is replaced. -/
theorem replacement?_of_mem_references {other mentioned : String} {body : Expr}
    (h : g.InSight other) (hbody : r.replacement? specializations other = some body)
    (hmentioned : mentioned ∈ body.references) : r.replacement? specializations mentioned = none := by
  have hsettled : g.Settled specializations (r.final specializations) other :=
    settled_of_resolves r.definitions_eq r.resolves (Or.inl h)
  rw [Settled, ← replacement?, hbody] at hsettled
  obtain ⟨written, -, hexpands⟩ := hsettled
  exact replacement?_eq_none_iff.mpr (hexpands.not_replaced mentioned hmentioned)

/-- Where all names are in sight, one replacement leaves nothing to be replaced. -/
theorem substitute_substitute {x : Expr} (h : ∀ other ∈ x.references, g.InSight other) :
    (x.substitute (r.replacement? specializations)).substitute (r.replacement? specializations) =
      x.substitute (r.replacement? specializations) := by
  refine Expr.substitute_eq_self fun mentioned hmentioned => ?_
  rw [Expr.references_substitute, List.mem_flatMap] at hmentioned
  obtain ⟨other, hother, hmentioned⟩ := hmentioned
  rw [Expr.leftBy] at hmentioned
  split at hmentioned
  · next body hbody => exact replacement?_of_mem_references (h other hother) hbody hmentioned
  · next hnone =>
    rw [List.mem_singleton.mp hmentioned]
    exact hnone

end Resolution

/-- Whether the definitions and the specialized names of a grammar are found. -/
def Consistent (g : Grammar) : Prop :=
  (∃ definitions, g.definitions = .ok definitions) ∧
    ∃ specializations, g.specializations = .ok specializations

/-- Without a circle in sight the definitions are resolved. -/
theorem exists_resolution {definitions : Definitions} (hdefinitions : g.definitions = .ok definitions)
    (hcircle : ¬ g.CircleInSight) : Nonempty g.Resolution := by
  rcases Dependencies.resolutionOrder_cases definitions.closed_dependencies with
    ⟨-, hsight⟩ | ⟨names, order, horder, hresolves, -⟩
  · exact (hcircle ((circleInSight_iff hdefinitions).mp hsight)).elim
  · exact ⟨⟨definitions, names, order, hdefinitions, horder, hresolves⟩⟩

/-- Definitions are resolved only if they are consistent and no circle is in sight. -/
theorem consistent_of_unfolding {final : Definitions} (h : g.unfolding = .ok final) :
    g.Consistent ∧ ¬ g.CircleInSight := by
  obtain ⟨command, definitions, specializations, order, -, hdefinitions, hspecializations, horder, -⟩ :=
    unfolding_eq_ok.mp h
  refine ⟨⟨⟨definitions, hdefinitions⟩, specializations, hspecializations⟩, ?_⟩
  rw [← circleInSight_iff hdefinitions]
  rcases Dependencies.resolutionOrder_cases definitions.closed_dependencies with
    ⟨hcycle, -⟩ | ⟨-, -, -, -, hsight⟩
  · rw [horder] at hcycle
    cases hcycle
  · exact hsight

/-! ### Validation of a resolved grammar -/

/-- The compilation of what may follow the command. -/
def complete (shell : Shell) (command : String) (specializations : Specializations) (body : Expr)
    (unused : List String) : Result ValidGrammar := do
  let compiled ← body.flattenSubwords.toPattern (Positions.checkSubwordFor shell) specializations {}
  return {
    command, specializations, unused
    pattern := compiled.2
    subwords := compiled.1
    undefined := sortedNames (body.references.filter (!specializations.contains ·)) }

section

variable (r : g.Resolution) {command : String} (hcommand : g.command = .ok command)
  {specializations : Specializations} (hspecializations : g.specializations = .ok specializations)

include hcommand hspecializations

/-- The unfolded definitions are the resolved ones. -/
theorem Resolution.unfolding_eq : g.unfolding = .ok (r.final specializations) :=
  unfolding_eq_ok.mpr ⟨command, r.definitions, specializations, r.order, hcommand, r.definitions_eq,
    hspecializations, r.order_eq, rfl⟩

variable (hfilled : ∀ s ∈ g.statements, s.body.Filled True)
  (hclear : ∀ name, g.Called name → ¬ TransGen g.DependsOn name name)

include hfilled hclear

/-- A grammar whose calls do not lead into a circle is validated by checking the pairs of neighbours and
compiling what may follow the command. -/
theorem Resolution.validate_eq (shell : Shell) : ∃ unused, g.validate shell =
    forM (g.contacts (r.final specializations)) Contact.check >>= fun _ =>
      complete shell command specializations ((g.body.distributed.substitute
        (r.replacement? specializations)).assignLevels 0) unused := by
  refine ⟨sortedNames (r.definitions.unused specializations r.order g.body.distributed), ?_⟩
  rw [← refuseTouchingLiterals_eq hfilled (r.unfolding_eq hcommand hspecializations) hclear,
    validate, resolve, hcommand, Result.ok_bind, r.definitions_eq, Result.ok_bind,
    hspecializations, Result.ok_bind, r.order_eq, Result.ok_bind, ← final]
  dsimp only
  cases g.body.distributed.refuseTouchingLiterals (r.final specializations) with
  | error e => rfl
  | ok => rfl

/-- A grammar is resolved if its pairs of neighbours pass. -/
theorem Resolution.exists_resolved
    (hcheck : forM (g.contacts (r.final specializations)) Contact.check = .ok ()) :
    ∃ resolved, g.resolve = .ok resolved ∧ resolved.specializations = specializations := by
  rw [← refuseTouchingLiterals_eq hfilled (r.unfolding_eq hcommand hspecializations) hclear] at hcheck
  rw [resolve, hcommand, Result.ok_bind, r.definitions_eq, Result.ok_bind, hspecializations,
    Result.ok_bind, r.order_eq, Result.ok_bind, ← final]
  dsimp only
  rw [hcheck]
  exact ⟨_, rfl, rfl⟩

end

/-- Compiling what may follow the command fails for its subwords only. -/
theorem failsWithin_complete {body : Expr} (hbody : body.Filled False) (shell : Shell)
    (command : String) (specializations : Specializations) (unused : List String) :
    Result.FailsWithin SubwordFailure (complete shell command specializations body unused) :=
  (hbody.flattenSubwords.failsWithin_toPattern (fun _ => Expr.flat_of_mem_flattenSubwords) shell _
    _).bind fun _ _ => Result.failsWithin_ok _

/-- The undefined names of a valid grammar are those left in what may follow the command that are not
specialized. -/
theorem mem_undefined_iff {shell : Shell} {v : ValidGrammar} (h : g.validate shell = .ok v) :
    ∃ resolved, g.resolve = .ok resolved ∧ ∀ other, other ∈ v.undefined ↔
      other ∈ resolved.body.references ∧ resolved.specializations.contains other = false := by
  obtain ⟨resolved, hresolve, h⟩ := Result.bind_eq_ok.mp h
  obtain ⟨compiled, -, h⟩ := Result.bind_eq_ok.mp h
  cases h
  refine ⟨resolved, hresolve, fun other => ?_⟩
  obtain ⟨command, -, h⟩ := Result.bind_eq_ok.mp hresolve
  obtain ⟨definitions, -, h⟩ := Result.bind_eq_ok.mp h
  obtain ⟨specializations, -, h⟩ := Result.bind_eq_ok.mp h
  obtain ⟨order, -, h⟩ := Result.bind_eq_ok.mp h
  obtain ⟨⟨⟩, -, h⟩ := Result.bind_eq_ok.mp h
  cases h
  simp [sortedNames]

end ShellCompletion.Grammar
