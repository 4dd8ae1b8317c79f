import ShellCompletion.Proofs.Contacts
import ShellCompletion.Proofs.Definitions
import ShellCompletion.Proofs.ParsedExpressions
import ShellCompletion.Proofs.Rejections
import ShellCompletion.Proofs.SubwordBodies
import ShellCompletion.Proofs.Unfolding

/-!
# Validation without faults

The validation of a grammar that was read and has no circle of definitions ends with a value or a
rejection, apart from two situations: the check for touching literals meets a subword inside a word
before it meets touching literals, or the first subword that is not compiled has more sets of
positions than there are numbers for states. No other fault is possible: no sequence is without items,
no description is left undistributed, no reference unfolds without end, every dependency is defined and
every automaton of a subword can be minimized.
-/

namespace ShellCompletion.Grammar

open Result (Faultless)

/-- The definitions into which the check for touching literals looks, once the command, the
definitions, the specialized names and the order of resolution are found. -/
def unfolding (g : Grammar) : Result Definitions := do
  let _ ← g.command
  let definitions ← g.definitions
  let specializations ← g.specializations
  let order ← definitions.dependencies.resolutionOrder
  return definitions.resolve specializations order

/-- The pairs of neighbours inside the words of a grammar, in the order in which they are checked. -/
def contacts (g : Grammar) (definitions : Definitions) : List Contact :=
  definitions.contacts definitions.size g.body.distributed false []

/-- Whether the first pair of neighbours inside words that does not pass has a subword where the two
items meet. -/
def MeetsNestedSubword (g : Grammar) : Prop :=
  ∃ definitions, g.unfolding = .ok definitions ∧ Contact.MeetsNested (g.contacts definitions)

/-- Whether the first subword that is not compiled has too many sets of positions. -/
def MeetsOverflow (g : Grammar) (shell : Shell) : Prop :=
  ∃ resolved, g.resolve = .ok resolved ∧
    Expr.MeetsOverflow (Positions.checkSubwordFor shell) resolved.specializations
      resolved.body.flattenSubwords.subwordBodies

variable {g : Grammar}

/-- The steps in which the definitions are resolved. -/
theorem unfolding_eq_ok {resolved : Definitions} : g.unfolding = .ok resolved ↔
    ∃ command definitions specializations order, g.command = .ok command ∧
      g.definitions = .ok definitions ∧ g.specializations = .ok specializations ∧
      definitions.dependencies.resolutionOrder = .ok order ∧
      resolved = definitions.resolve specializations order := by
  constructor
  · intro h
    obtain ⟨command, hcommand, h⟩ := Result.bind_eq_ok.mp h
    obtain ⟨definitions, hdefinitions, h⟩ := Result.bind_eq_ok.mp h
    obtain ⟨specializations, hspecializations, h⟩ := Result.bind_eq_ok.mp h
    obtain ⟨order, horder, h⟩ := Result.bind_eq_ok.mp h
    cases h
    exact ⟨command, definitions, specializations, order, hcommand, hdefinitions, hspecializations,
      horder, rfl⟩
  · rintro ⟨command, definitions, specializations, order, hcommand, hdefinitions, hspecializations,
      horder, rfl⟩
    rw [unfolding, hcommand, Result.ok_bind, hdefinitions, Result.ok_bind, hspecializations,
      Result.ok_bind, horder]
    rfl

/-- Resolving a grammar has a fault exactly if the check for touching literals has one. -/
theorem resolve_eq_fault_iff {f : Fault} : g.resolve = .error (.fault f) ↔
    ∃ definitions, g.unfolding = .ok definitions ∧
      g.body.distributed.refuseTouchingLiterals definitions = .error (.fault f) := by
  constructor
  · intro h
    rcases Result.bind_eq_error.mp h with h | ⟨command, hcommand, h⟩
    · exact (g.faultless_command f h).elim
    rcases Result.bind_eq_error.mp h with h | ⟨definitions, hdefinitions, h⟩
    · exact (g.faultless_definitions f h).elim
    rcases Result.bind_eq_error.mp h with h | ⟨specializations, hspecializations, h⟩
    · exact (g.faultless_specializations f h).elim
    rcases Result.bind_eq_error.mp h with h | ⟨order, horder, h⟩
    · exact (definitions.faultless_resolutionOrder f h).elim
    rcases Result.bind_eq_error.mp h with h | ⟨⟨⟩, -, h⟩
    · exact ⟨_, unfolding_eq_ok.mpr ⟨command, definitions, specializations, order, hcommand,
        hdefinitions, hspecializations, horder, rfl⟩, h⟩
    · cases h
  · rintro ⟨definitions, hunfolding, h⟩
    obtain ⟨command, written, specializations, order, hcommand, hwritten, hspecializations, horder,
      rfl⟩ := unfolding_eq_ok.mp hunfolding
    rw [resolve, hcommand, Result.ok_bind, hwritten, Result.ok_bind, hspecializations,
      Result.ok_bind, horder, Result.ok_bind]
    exact Result.bind_eq_error.mpr (Or.inl h)

/-- The steps after which a grammar is resolved. -/
theorem resolve_eq_ok {resolved : ResolvedGrammar} (h : g.resolve = .ok resolved) :
    ∃ definitions, g.unfolding = .ok definitions ∧ g.specializations = .ok resolved.specializations ∧
      resolved.body = (g.body.distributed.substitute
        (definitions.replacement? resolved.specializations)).assignLevels 0 := by
  obtain ⟨command, hcommand, h⟩ := Result.bind_eq_ok.mp h
  obtain ⟨definitions, hdefinitions, h⟩ := Result.bind_eq_ok.mp h
  obtain ⟨specializations, hspecializations, h⟩ := Result.bind_eq_ok.mp h
  obtain ⟨order, horder, h⟩ := Result.bind_eq_ok.mp h
  obtain ⟨⟨⟩, -, h⟩ := Result.bind_eq_ok.mp h
  cases h
  exact ⟨_, unfolding_eq_ok.mpr ⟨command, definitions, specializations, order, hcommand, hdefinitions,
    hspecializations, horder, rfl⟩, hspecializations, rfl⟩

/-- The calls are statements of the grammar. -/
theorem call_mem_statements {name : String} {e : Expr} (h : (name, e) ∈ g.calls) :
    Statement.call name e ∈ g.statements := by
  obtain ⟨s, hs, hcall⟩ := List.mem_filterMap.mp h
  cases s with
  | call head body =>
    cases hcall
    exact hs
  | definition => cases hcall

section

variable {P : Expr → Prop} (hstatements : ∀ s ∈ g.statements, P s.body.distributed)
  (hsubstitute : ∀ (replacement : String → Option Expr) (e : Expr),
    (∀ name body, replacement name = some body → P body) → P e → P (e.substitute replacement))
  {definitions : Definitions}

include hstatements hsubstitute

/-- What holds of the statements and is kept when references are replaced holds of the definitions,
however many of them are resolved. -/
theorem forall_resolve (hdefinitions : g.definitions = .ok definitions)
    (specializations : Specializations) (order : List String) {name : String} {body : Expr}
    (hbody : (definitions.resolve specializations order).get? name = some body) : P body := by
  revert name body
  apply Definitions.resolve_induction
  · intro name body hbody
    obtain ⟨plain, hplain, rfl⟩ := exists_statement hdefinitions hbody
    exact hstatements _ hplain
  · intro current name body hcurrent hbody
    refine hsubstitute _ body (fun other replaced hreplaced => ?_) (hcurrent name body hbody)
    exact hcurrent other replaced (Definitions.get?_of_replacement? hreplaced)

/-- Such a property also passes to an expression in which they are put in place of references. -/
theorem forall_substitute (hdefinitions : g.definitions = .ok definitions)
    (specializations others : Specializations) (order : List String) {e : Expr} (he : P e) :
    P (e.substitute ((definitions.resolve specializations order).replacement? others)) :=
  hsubstitute _ e (fun _ _ hreplaced => forall_resolve hstatements hsubstitute hdefinitions
    specializations order (Definitions.get?_of_replacement? hreplaced)) he

/-- Among the expressions with such a property are the unfolded definitions. -/
theorem forall_unfolding (hunfolding : g.unfolding = .ok definitions) {name : String} {body : Expr}
    (hbody : definitions.get? name = some body) : P body := by
  obtain ⟨command, written, specializations, order, -, hwritten, -, -, rfl⟩ :=
    unfolding_eq_ok.mp hunfolding
  exact forall_resolve hstatements hsubstitute hwritten specializations order hbody

/-- What may follow the command has the property when its references are replaced. -/
theorem forall_substituted (hunfolding : g.unfolding = .ok definitions) (hbody : P g.body.distributed)
    (specializations : Specializations) :
    P (g.body.distributed.substitute (definitions.replacement? specializations)) := by
  obtain ⟨command, written, others, order, -, hwritten, -, -, rfl⟩ := unfolding_eq_ok.mp hunfolding
  exact forall_substitute hstatements hsubstitute hwritten others specializations order hbody

end

section

variable (hfilled : ∀ s ∈ g.statements, s.body.Filled True)

include hfilled

/-- What may follow the command has no gaps if there is a command. -/
theorem filled_body {command : String} (hcommand : g.command = .ok command) :
    g.body.Filled True := by
  have hcalls : ∀ c ∈ g.calls, c.2.Filled True := fun c hc => hfilled _ (call_mem_statements hc)
  rw [body]
  split
  · next name e hsingle => exact hcalls (name, e) (by simp [hsingle])
  · refine .alternative ?_ ?_
    · intro hnone
      rw [List.map_eq_nil_iff] at hnone
      rw [Grammar.command, hnone] at hcommand
      simp [sortedNames, reject] at hcommand
    · intro e he
      obtain ⟨c, hc, rfl⟩ := List.mem_map.mp he
      exact hcalls c hc

variable {definitions : Definitions} (hunfolding : g.unfolding = .ok definitions)

include hunfolding

/-- The unfolded definitions have no gaps and no described groups. -/
theorem filled_unfolding {name : String} {body : Expr} (hbody : definitions.get? name = some body) :
    body.Filled False :=
  forall_unfolding (fun s hs => (hfilled s hs).distributed)
    (fun _ _ hreplacement he => he.substitute hreplacement) hunfolding hbody

/-- What may follow the command has no gaps and no described groups when its descriptions are
distributed. -/
theorem filled_distributed : g.body.distributed.Filled False := by
  obtain ⟨command, _, _, _, hcommand, -⟩ := unfolding_eq_ok.mp hunfolding
  exact (filled_body hfilled hcommand).distributed

/-- The pairs of neighbours inside words have no gaps and no described groups. -/
theorem filled_contacts :
    ∀ c ∈ g.contacts definitions, c.left.Filled False ∧ c.right.Filled False := by
  intro c hc
  exact Definitions.filled_of_mem_contacts (fun name body => filled_unfolding hfilled hunfolding)
    definitions.size (filled_distributed hfilled hunfolding) hc

/-- The check for touching literals is the check of the pairs of neighbours, unless the calls lead into a
circle. -/
theorem refuseTouchingLiterals_eq
    (hclear : ∀ name, g.Called name → ¬ Relation.TransGen g.DependsOn name name) :
    g.body.distributed.refuseTouchingLiterals definitions =
      forM (g.contacts definitions) Contact.check := by
  obtain ⟨command, written, specializations, order, hcommand, hwritten, -, -, hresolved⟩ :=
    unfolding_eq_ok.mp hunfolding
  obtain ⟨rank, hbound, hlower⟩ := g.exists_rank definitions.keys
  have hcheck : definitions.checkTouching definitions.size g.body.distributed false [] =
      forM (g.contacts definitions) Contact.check := by
    apply Definitions.checkTouching_eq (C := g.Called)
      (fun name body => filled_unfolding hfilled hunfolding)
    · rintro name body ⟨mentioned, hmentioned, hreach⟩ hbody other hother hdefined
      rw [hresolved] at hbody
      have hdepends := depends_of_mem_resolve hwritten hbody hother
      have hcalled : g.Called other := ⟨mentioned, hmentioned, hreach.trans hdepends.to_reflTransGen⟩
      exact ⟨hcalled, hlower name other ((definitions.contains_iff other).mp hdefined) hdepends
        (hclear other hcalled)⟩
    · exact filled_distributed hfilled hunfolding
    · intro name hname hdefined
      rw [Expr.references_distributed] at hname
      have hcalled : g.Called name := ⟨name, hname, .refl⟩
      have hlt := hbound name ((definitions.contains_iff name).mp hdefined) (hclear name hcalled)
      rw [OrderedMap.keys, List.length_map] at hlt
      exact ⟨hcalled, hlt⟩
  -- pairs that are checked one after the other come to an end, so the check needs no more depth
  have hends : ¬ Result.Endless
      (definitions.checkTouching definitions.size g.body.distributed false []) := by
    rw [hcheck]
    intro hendless
    obtain ⟨hfault, -⟩ :=
      (Contact.forM_check_eq_fault_iff (filled_contacts hfilled hunfolding)).mp hendless
    cases hfault
  rw [Expr.refuseTouchingLiterals, Definitions.checkTouching_of_le (by omega) hends, hcheck]

end

/-- Resolving a grammar has a fault exactly if a subword is met inside a word before touching
literals. -/
theorem resolve_eq_fault_iff_meetsNestedSubword (hfilled : ∀ s ∈ g.statements, s.body.Filled True)
    (hacyclic : g.Acyclic) {f : Fault} :
    g.resolve = .error (.fault f) ↔ f = .nestedSubword ∧ g.MeetsNestedSubword := by
  rw [resolve_eq_fault_iff]
  constructor
  · rintro ⟨definitions, hunfolding, h⟩
    rw [refuseTouchingLiterals_eq hfilled hunfolding fun name _ => hacyclic name,
      Contact.forM_check_eq_fault_iff (filled_contacts hfilled hunfolding)] at h
    exact ⟨h.1, definitions, hunfolding, h.2⟩
  · rintro ⟨rfl, definitions, hunfolding, h⟩
    refine ⟨definitions, hunfolding, ?_⟩
    rw [refuseTouchingLiterals_eq hfilled hunfolding fun name _ => hacyclic name,
      Contact.forM_check_eq_fault_iff (filled_contacts hfilled hunfolding)]
    exact ⟨rfl, h⟩

/-- What may follow the command has no gaps when its references are replaced. -/
theorem filled_substituted (hfilled : ∀ s ∈ g.statements, s.body.Filled True)
    {definitions : Definitions} (hunfolding : g.unfolding = .ok definitions)
    (specializations : Specializations) :
    ((g.body.distributed.substitute (definitions.replacement? specializations)).assignLevels 0).Filled
      False := by
  refine Expr.Filled.assignLevels ?_ 0
  exact forall_substituted (fun s hs => (hfilled s hs).distributed)
    (fun _ _ hreplacement he => he.substitute hreplacement) hunfolding
    (filled_distributed hfilled hunfolding) specializations

/-- The resolved expression has no gaps. -/
theorem filled_resolved (hfilled : ∀ s ∈ g.statements, s.body.Filled True)
    {resolved : ResolvedGrammar} (h : g.resolve = .ok resolved) : resolved.body.Filled False := by
  obtain ⟨definitions, hunfolding, -, hbody⟩ := resolve_eq_ok h
  rw [hbody]
  exact filled_substituted hfilled hunfolding resolved.specializations

/-- A resolved grammar is valid if all of its subwords can be compiled. -/
theorem exists_valid_of_compilable (hfilled : ∀ s ∈ g.statements, s.body.Filled True) {shell : Shell}
    {resolved : ResolvedGrammar} (hresolve : g.resolve = .ok resolved)
    (h : ∀ body ∈ resolved.body.flattenSubwords.subwordBodies,
      Expr.Compilable (Positions.checkSubwordFor shell) resolved.specializations body) :
    ∃ valid, g.validate shell = .ok valid := by
  have hbody := (filled_resolved hfilled hresolve).flattenSubwords
  rw [validate, hresolve, Result.ok_bind]
  cases hpattern : resolved.body.flattenSubwords.toPattern (Positions.checkSubwordFor shell)
      resolved.specializations {} with
  | ok compiled => exact ⟨_, rfl⟩
  | error e =>
    rw [← Result.verdict_eq_error, hbody.verdict_toPattern fun _ => Expr.flat_of_mem_flattenSubwords,
      Result.forM_eq_error] at hpattern
    obtain ⟨before, body, after, hbodies, -, hfail⟩ := hpattern
    have hmem : body ∈ resolved.body.flattenSubwords.subwordBodies := by simp [hbodies]
    rw [((hbody.of_mem_subwordBodies hmem).compileSubword_eq_ok_iff
      (Expr.flat_of_mem_flattenSubwords hmem)).mpr (h body hmem)] at hfail
    cases hfail

/-- The faults of a validation and when they occur. -/
theorem validate_eq_fault_iff (hfilled : ∀ s ∈ g.statements, s.body.Filled True)
    (hacyclic : g.Acyclic) (shell : Shell) {f : Fault} :
    g.validate shell = .error (.fault f) ↔
      (f = .nestedSubword ∧ g.MeetsNestedSubword) ∨
        (f = .tooManyStates ∧ g.MeetsOverflow shell) := by
  have hcompile : ∀ resolved, g.resolve = .ok resolved →
      (resolved.body.flattenSubwords.toPattern (Positions.checkSubwordFor shell)
          resolved.specializations {} = .error (.fault f) ↔
        f = .tooManyStates ∧ Expr.MeetsOverflow (Positions.checkSubwordFor shell)
          resolved.specializations resolved.body.flattenSubwords.subwordBodies) := by
    intro resolved hresolved
    exact (filled_resolved hfilled hresolved).flattenSubwords.toPattern_eq_fault_iff
      (fun body => Expr.flat_of_mem_flattenSubwords) (Positions.faultless_checkSubwordFor shell)
  rw [validate, Result.bind_eq_error, resolve_eq_fault_iff_meetsNestedSubword hfilled hacyclic]
  refine or_congr Iff.rfl ?_
  constructor
  · rintro ⟨resolved, hresolved, h⟩
    rcases Result.bind_eq_error.mp h with h | ⟨found, -, h⟩
    · obtain ⟨hf, hover⟩ := (hcompile resolved hresolved).mp h
      exact ⟨hf, resolved, hresolved, hover⟩
    · cases h
  · rintro ⟨hf, resolved, hresolved, hover⟩
    refine ⟨resolved, hresolved, Result.bind_eq_error.mpr (Or.inl ?_)⟩
    exact (hcompile resolved hresolved).mpr ⟨hf, hover⟩

/-- The validation of a grammar that was read and has no circle of definitions ends with a value or a
rejection exactly if the first pair of neighbours inside words that does not pass, if there is one, has
no subword where the two items meet, and the first subword that is not compiled, if there is one, does
not have too many sets of positions. -/
theorem validate_faultless_iff {text : String} (hparse : Grammar.parse text = .ok g)
    (hacyclic : g.Acyclic) (shell : Shell) :
    Faultless (g.validate shell) ↔ ¬ g.MeetsNestedSubword ∧ ¬ g.MeetsOverflow shell := by
  have hfaults := fun f => validate_eq_fault_iff (filled_of_parse hparse) hacyclic shell (f := f)
  constructor
  · intro h
    constructor
    · intro hnested
      exact h _ ((hfaults .nestedSubword).mpr (Or.inl ⟨rfl, hnested⟩))
    · intro hover
      exact h _ ((hfaults .tooManyStates).mpr (Or.inr ⟨rfl, hover⟩))
  · rintro ⟨hnested, hover⟩ f hfault
    rcases (hfaults f).mp hfault with ⟨-, h⟩ | ⟨-, h⟩
    · exact hnested h
    · exact hover h

/-- No described group is met where references are listed or replaced and where levels are assigned: the
descriptions of a grammar that was read are distributed before that, in its calls and in its definitions,
however many of these are resolved. -/
theorem undescribed_of_parse {text : String} {last : Text.LastReturn}
    (hparse : Grammar.parse text last = .ok g) {command : String}
    (hcommand : g.command = .ok command) {definitions : Definitions}
    (hdefinitions : g.definitions = .ok definitions) (specializations : Specializations)
    (order : List String) :
    g.body.distributed.Filled False ∧
      (∀ name body, (definitions.resolve specializations order).get? name = some body →
        body.Filled False) ∧
      (g.body.distributed.substitute ((definitions.resolve specializations order).replacement?
        specializations)).Filled False := by
  have hfilled := filled_of_parse hparse
  have hbody := (filled_body hfilled hcommand).distributed
  have hstatements : ∀ s ∈ g.statements, s.body.distributed.Filled False :=
    fun s hs => (hfilled s hs).distributed
  have hsubstitute : ∀ (replacement : String → Option Expr) (e : Expr),
      (∀ name body, replacement name = some body → body.Filled False) → e.Filled False →
        (e.substitute replacement).Filled False :=
    fun _ _ hreplacement he => he.substitute hreplacement
  refine ⟨hbody, fun name body => ?_, ?_⟩
  · exact forall_resolve hstatements hsubstitute hdefinitions specializations order
  · exact forall_substitute hstatements hsubstitute hdefinitions specializations specializations order
      hbody

/-- The command of a grammar with a single call. -/
theorem command_of_calls {name : String} {e : Expr} (h : g.calls = [(name, e)]) :
    g.command = .ok name := by
  have hsorted : sortedNames [name] = [name] := by
    rw [sortedNames, List.eraseDups_cons, List.filter_nil, List.eraseDups_nil]
    exact List.mergeSort_singleton name
  rw [command, h, List.map_singleton, hsorted]

/-- The grammar of `cmd a=<W> <V>; <W> ::= on | <V>; <V> ::= v;`. -/
def chosenValue : Grammar := ⟨[
  .call "cmd" (.sequence [.subword (.sequence [.literal "a=" none 0 (some ⟨0, 4, 6⟩),
    .reference "W" 0 (some ⟨0, 6, 9⟩)]) 0 (some ⟨0, 4, 9⟩), .reference "V" 0 (some ⟨0, 10, 13⟩)]),
  .definition "W" none (.alternative [.literal "on" none 0 (some ⟨0, 23, 25⟩),
    .reference "V" 0 (some ⟨0, 28, 31⟩)]),
  .definition "V" none (.literal "v" none 0 (some ⟨0, 41, 42⟩))]⟩

/-- Its definitions after resolution. -/
def chosenDefinitions : Definitions := .ofList [
  ("W", .alternative [.literal "on" none 0 (some ⟨0, 23, 25⟩),
    .literal "v" none 0 (some ⟨0, 41, 42⟩)]),
  ("V", .literal "v" none 0 (some ⟨0, 41, 42⟩))]

/-- The body of its subword after resolution. -/
def chosenBody : Expr := .sequence [.literal "a=" none 0 (some ⟨0, 4, 6⟩),
  .alternative [.literal "on" none 0 (some ⟨0, 23, 25⟩), .literal "v" none 0 (some ⟨0, 41, 42⟩)]]

/-- The pattern of its subword. -/
def chosenPattern : Pattern Input := .sequence [.symbol (.literal "a=" none 0 (some ⟨0, 4, 6⟩)),
  .alternative [.symbol (.literal "on" none 0 (some ⟨0, 23, 25⟩)),
    .symbol (.literal "v" none 0 (some ⟨0, 41, 42⟩))]]

theorem unfolding_chosenValue : chosenValue.unfolding = .ok chosenDefinitions := by
  have hcommand : chosenValue.command = .ok "cmd" := command_of_calls rfl
  rw [unfolding, hcommand]
  decide +kernel

theorem toPattern_chosenBody (check : Positions Input → Result Unit)
    (specializations : Specializations) :
    chosenBody.toPattern check specializations {} = .ok ({}, chosenPattern) := rfl

/-- Its validation ends without a fault. -/
theorem validate_chosenValue :
    Grammar.parse "cmd a=<W> <V>; <W> ::= on | <V>; <V> ::= v;" = .ok chosenValue ∧
      chosenValue.Acyclic ∧ Faultless (chosenValue.validate .bash) := by
  have hparse : Grammar.parse "cmd a=<W> <V>; <W> ::= on | <V>; <V> ::= v;" = .ok chosenValue := by
    decide +kernel
  have hacyclic : chosenValue.Acyclic := by
    refine acyclic_of_rank (fun name => if name = "W" then 1 else 0) ?_
    rintro name other ⟨body, hbody, hother⟩
    simp only [chosenValue, List.mem_cons, reduceCtorEq, Statement.definition.injEq, true_and,
      List.not_mem_nil, or_false, false_or] at hbody
    rcases hbody with ⟨rfl, rfl⟩ | ⟨rfl, rfl⟩
    · simp [Expr.references, Expr.referencesAll] at hother
      simp [hother]
    · simp [Expr.references] at hother
  refine ⟨hparse, hacyclic, (validate_faultless_iff hparse hacyclic .bash).mpr ⟨?_, ?_⟩⟩
  · rintro ⟨definitions, hunfolding, c, hfind, -⟩
    rw [unfolding_chosenValue] at hunfolding
    cases hunfolding
    have hnone : ((chosenValue.contacts chosenDefinitions).find? Contact.offends).isSome = false := by
      decide +kernel
    rw [hfind] at hnone
    cases hnone
  · rintro ⟨resolved, hresolved, before, body, after, hbodies, -, q, hq, -, hlt⟩
    obtain ⟨definitions, hunfolding, hspecializations, hresult⟩ := resolve_eq_ok hresolved
    rw [unfolding_chosenValue] at hunfolding
    cases hunfolding
    have hpredefined : chosenValue.specializations = .ok (.ofList predefined) := by decide +kernel
    rw [hpredefined] at hspecializations
    generalize resolved.specializations = specializations at *
    cases hspecializations
    have hsingle : resolved.body.flattenSubwords.subwordBodies = [chosenBody] := by
      rw [hresult]
      decide +kernel
    have hbody : body ∈ [chosenBody] := by simp [← hsingle, hbodies]
    rw [List.mem_singleton.mp hbody, toPattern_chosenBody] at hq
    cases hq
    exact absurd (Positions.encard_discovered_le (by decide +kernel)) (not_le_of_gt hlt)

/-- The grammar of `cmd x<A>; <A> ::= foo b<C>;`. -/
def nestedWord : Grammar := ⟨[
  .call "cmd" (.subword (.sequence [.literal "x" none 0 (some ⟨0, 4, 5⟩),
    .reference "A" 0 (some ⟨0, 5, 8⟩)]) 0 (some ⟨0, 4, 8⟩)),
  .definition "A" none (.sequence [.literal "foo" none 0 (some ⟨0, 18, 21⟩),
    .subword (.sequence [.literal "b" none 0 (some ⟨0, 22, 23⟩),
      .reference "C" 0 (some ⟨0, 23, 26⟩)]) 0 (some ⟨0, 22, 26⟩)])]⟩

/-- A word inside a word, through a definition, is a fault. -/
theorem validate_nestedWord : Grammar.parse "cmd x<A>; <A> ::= foo b<C>;" = .ok nestedWord ∧
    nestedWord.Acyclic ∧ nestedWord.validate .bash = giveUp .nestedSubword := by
  refine ⟨by decide +kernel, ?_, ?_⟩
  · refine acyclic_of_rank (fun name => if name = "A" then 1 else 0) ?_
    rintro name other ⟨body, hbody, hother⟩
    simp only [nestedWord, List.mem_cons, reduceCtorEq, Statement.definition.injEq, true_and,
      List.not_mem_nil, or_false, false_or] at hbody
    obtain ⟨rfl, rfl⟩ := hbody
    simp [Expr.references, Expr.referencesAll] at hother
    simp [hother]
  · have hcommand : nestedWord.command = .ok "cmd" := command_of_calls rfl
    rw [validate, resolve, hcommand]
    rfl

end ShellCompletion.Grammar
