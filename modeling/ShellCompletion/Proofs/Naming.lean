import ShellCompletion.Proofs.ClashingVariants
import ShellCompletion.Proofs.NamedCalls
import ShellCompletion.Proofs.ReplacedNeighbours

/-!
# Naming an expression

Defining what may follow the command under a name of its own is meant to make no difference. It makes
one where the check for touching literals looks at neighbours inside a word: in a call it looks at
references as they are written, in a definition at what they were resolved to. It also makes one where
definitions form a circle that is found in one of the two forms only, or where a definition stays
unresolved. Apart from these the two forms are valid together and mean the same, or are rejected for
reasons of one kind.
-/

namespace ShellCompletion

open Relation (ReflTransGen TransGen)
open Result (Faultless)

namespace Grammar

variable {g : Grammar} {name : String} {span : Option Span} {place : ℕ}

/-- The calls lead to what a called name leads to. -/
theorem Called.trans {other mentioned : String} (h : g.Called other)
    (hmentioned : TransGen g.DependsOn other mentioned) : g.Called mentioned := by
  obtain ⟨first, hfirst, hreach⟩ := h
  exact ⟨first, hfirst, hreach.trans hmentioned.to_reflTransGen⟩

section

variable {head : String} {e : Expr} (hcalls : g.calls = [(head, e)]) (hfresh : g.Fresh name)
  (r : g.Resolution) (r' : (g.named name span place).Resolution) (specializations : Specializations)

include hfresh

/-- The new definition is one more. -/
theorem Fresh.size_final_lt :
    (r.final specializations).size < (r'.final specializations).size := by
  have hnodup : (name :: (r.final specializations).keys).Nodup := by
    refine List.nodup_cons.mpr ⟨?_, (r.final specializations).nodup⟩
    rw [Resolution.mem_keys_final_iff]
    rintro ⟨body, hbody⟩
    exact hfresh.not_defined hbody
  have hsubset : name :: (r.final specializations).keys ⊆ (r'.final specializations).keys := by
    intro other hother
    rw [Resolution.mem_keys_final_iff, defines_named]
    rw [List.mem_cons, Resolution.mem_keys_final_iff] at hother
    exact hother.symm
  have hle := (List.subperm_of_subset hnodup hsubset).length_le
  rwa [List.length_cons, OrderedMap.keys, OrderedMap.keys, List.length_map, List.length_map] at hle

include hcalls

/-- A called name that is defined in the named form is defined as it is written. -/
theorem Fresh.mem_keys_of_called {other : String} (hcalled : g.Called other)
    (hdefined : (r'.final specializations).contains other = true) :
    other ∈ (r.final specializations).keys := by
  rw [OrderedMap.contains_iff, Resolution.mem_keys_final_iff, defines_named] at hdefined
  rw [Resolution.mem_keys_final_iff]
  exact hdefined.resolve_right (hfresh.ne_of_inReach hcalls (Or.inr hcalled))

/-- A resolved definition mentions only names that it depends on, also if the call is named. -/
theorem Fresh.depends_of_mem_final_named {other mentioned : String} {body : Expr}
    (hcalled : g.Called other) (hbody : (r'.final specializations).get? other = some body)
    (hmentioned : mentioned ∈ body.references) : TransGen g.DependsOn other mentioned :=
  (hfresh.transGen_named hcalls (hfresh.ne_of_inReach hcalls (Or.inr hcalled))).mp
    (depends_of_mem_resolve r'.definitions_eq hbody hmentioned)

/-- The calls lead to all names that are left when their references are replaced. -/
theorem Fresh.called_of_mem_substitute {other : String}
    (h : other ∈ (g.body.distributed.substitute (r'.replacement? specializations)).references) :
    g.Called other := by
  rw [Expr.references_substitute, Expr.references_distributed, List.mem_flatMap] at h
  obtain ⟨mentioned, hmentioned, hother⟩ := h
  have hcalled : g.Called mentioned := ⟨mentioned, hmentioned, .refl⟩
  rw [Expr.leftBy] at hother
  split at hother
  · next body hbody =>
    rw [Resolution.replacement?, Definitions.replacement?] at hbody
    split at hbody
    · cases hbody
    · exact hcalled.trans
        (hfresh.depends_of_mem_final_named hcalls r' specializations hcalled hbody hother)
  · rw [List.mem_singleton.mp hother]
    exact hcalled

/-- If the call is named, the pairs of neighbours are the same, but with the references in them replaced,
unless the calls lead into a circle. -/
theorem Fresh.contacts_named
    (hclear : ∀ other, g.Called other → ¬ TransGen g.DependsOn other other) :
    ((g.named name span place).contacts (r'.final specializations)).map Contact.bare =
      (g.contacts (r.final specializations)).map
        (Contact.substitute (r'.replacement? specializations)) := by
  obtain ⟨rank, hbound, hlower⟩ := g.exists_rank (r.final specializations).keys
  have hbound' : ∀ {other}, g.Called other → other ∈ (r.final specializations).keys →
      rank other < (r.final specializations).size := by
    intro other hcalled hmem
    have hlt := hbound other hmem (hclear other hcalled)
    rwa [OrderedMap.keys, List.length_map] at hlt
  -- the call is one level deeper if it is named, and there is one more definition
  have hsize := hfresh.size_final_lt r r' specializations
  obtain ⟨less, hless⟩ : ∃ less, (r'.final specializations).size = less + 1 :=
    ⟨(r'.final specializations).size - 1, by omega⟩
  have hself := hfresh.get?_final_named_self hcalls r' specializations
  rw [contacts, contacts, body_named hcalls, hless, Definitions.contacts_eq_unfolded]
  refine (congrArg (List.map Contact.bare)
    (Definitions.unfolded_of_some hself less false _)).trans ?_
  apply Definitions.contacts_substitute (C := g.Called)
  · intro other hcalled
    exact hfresh.get?_final_of_called hcalls r r' specializations hcalled
  · intro other
    rw [Resolution.replacement?, Definitions.replacement?]
    split
    exacts [Or.inl rfl, Or.inr rfl]
  · intro other body hcalled hbody mentioned hmentioned
    have hdepends := depends_of_mem_resolve r.definitions_eq hbody hmentioned
    refine ⟨hcalled.trans hdepends, fun hdefined => ?_⟩
    exact hlower other mentioned ((OrderedMap.contains_iff _ _).mp hdefined) hdepends
      (hclear mentioned (hcalled.trans hdepends))
  · intro other body hcalled hbody mentioned hmentioned hdefined
    have hdepends := hfresh.depends_of_mem_final_named hcalls r' specializations hcalled hbody hmentioned
    exact hlower other mentioned
      (hfresh.mem_keys_of_called hcalls r r' specializations (hcalled.trans hdepends) hdefined) hdepends
      (hclear mentioned (hcalled.trans hdepends))
  · intro other hother
    rw [Expr.references_distributed] at hother
    have hcalled : g.Called other := ⟨other, hother, .refl⟩
    exact ⟨hcalled, fun hdefined => hbound' hcalled ((OrderedMap.contains_iff _ _).mp hdefined)⟩
  · intro other hother hdefined
    have hcalled := hfresh.called_of_mem_substitute hcalls r' specializations hother
    have hlt := hbound' hcalled
      (hfresh.mem_keys_of_called hcalls r r' specializations hcalled hdefined)
    omega

end

/-! ### Validation in two forms -/

/-- Whether two validations agree: both succeed with the same command, pattern, automata of subwords,
specialized names and undefined names, or both reject the grammar for a reason of the same kind. -/
inductive Alike : Result ValidGrammar → Result ValidGrammar → Prop
  | valid {v v' : ValidGrammar} (hcommand : v.command = v'.command) (hpattern : v.pattern = v'.pattern)
    (hsubwords : v.subwords = v'.subwords) (hspecializations : v.specializations = v'.specializations)
    (hundefined : v.undefined = v'.undefined) : Alike (.ok v) (.ok v')
  | rejected {e e' : GrammarError} (he : e.ctorIdx = e'.ctorIdx) : Alike (reject e) (reject e')

/-- Validations that agree have no faults. -/
theorem Alike.faultless {x y : Result ValidGrammar} (h : Alike x y) : Faultless x ∧ Faultless y := by
  cases h with
  | valid => exact ⟨Result.faultless_ok _, Result.faultless_ok _⟩
  | rejected => exact ⟨Result.faultless_reject _, Result.faultless_reject _⟩

/-- A validation that agrees with a rejection is a rejection for a reason of the same kind. -/
theorem alike_reject_iff {x : Result ValidGrammar} {e : GrammarError} :
    Alike x (reject e) ↔ ∃ e', x = reject e' ∧ e'.ctorIdx = e.ctorIdx := by
  constructor
  · intro h
    generalize hy : (reject e : Result ValidGrammar) = y at h
    cases h with
    | valid => cases hy
    | @rejected e' e'' he =>
      cases hy
      exact ⟨e', rfl, he⟩
  · rintro ⟨e', rfl, he⟩
    exact .rejected he

theorem Alike.symm {x y : Result ValidGrammar} (h : Alike x y) : Alike y x := by
  cases h with
  | valid hcommand hpattern hsubwords hspecializations hundefined =>
    exact .valid hcommand.symm hpattern.symm hsubwords.symm hspecializations.symm hundefined.symm
  | rejected he => exact .rejected he.symm

/-- Touching literals are not a reason of the kind for which subwords are not compiled. -/
theorem not_alike_adjacentLiterals {x : Result ValidGrammar}
    (h : Result.FailsWithin SubwordFailure x) (first second : Option Span) (trace : List Span) :
    ¬ Alike x (reject (.adjacentLiterals first second trace)) := by
  rw [alike_reject_iff]
  rintro ⟨e, rfl, he⟩
  have hfailure := h _ rfl
  cases hfailure with
  | inputs hinputs => cases hinputs <;> cases he

/-- A circle is not a reason of the kind that comes up later. -/
theorem not_alike_definitionCycle {x : Result ValidGrammar} (h : Result.FailsWithin LateFailure x) :
    ¬ Alike x (reject .definitionCycle) := by
  rw [alike_reject_iff]
  rintro ⟨e, rfl, he⟩
  cases e with
  | definitionCycle => exact (h _ rfl).ne_definitionCycle rfl
  | _ => cases he

/-- The compilation agrees with itself, whatever names are unused, if it has no fault. -/
theorem alike_complete_iff {shell : Shell} {command : String} {specializations : Specializations}
    {body : Expr} {unused unused' : List String} :
    Alike (complete shell command specializations body unused)
        (complete shell command specializations body unused') ↔
      Faultless (complete shell command specializations body unused) := by
  refine ⟨fun h => h.faultless.1, fun h => ?_⟩
  rw [complete, complete] at *
  cases hcompiled : body.flattenSubwords.toPattern (Positions.checkSubwordFor shell) specializations {}
    with
  | ok compiled => exact .valid rfl rfl rfl rfl rfl
  | error e =>
    rw [hcompiled] at h
    cases e with
    | rejected e => exact .rejected rfl
    | fault f => exact (h f rfl).elim

/-! ### When naming makes no difference -/

/-- Whether the call of a resolved grammar mentions a replaced name out of sight whose definition mentions
a replaced name. -/
def LeavesUnresolved (g : Grammar) : Prop :=
  ∃ resolved, g.resolve = .ok resolved ∧ g.MentionsUnresolved resolved.specializations

/-- Whether a circle of definitions is in sight and none is in reach, or the other way round. -/
def CirclesDiffer (g : Grammar) : Prop :=
  g.Consistent ∧
    ¬ (g.CircleInSight ↔ ∃ other, g.InReach other ∧ TransGen g.DependsOn other other)

/-- Whether the pairs of neighbours inside the words of a grammar fare worse with the references in them
replaced as they are in another grammar. -/
def JoinsNeighbours (g g' : Grammar) : Prop :=
  ∃ definitions definitions' specializations, g.unfolding = .ok definitions ∧
    g'.unfolding = .ok definitions' ∧ g.specializations = .ok specializations ∧
    Contact.Joins (definitions'.replacement? specializations) (g.contacts definitions)

/-- Whether a grammar is resolved and the first of its subwords that is not compiled is refused for the
given reason. -/
def RefusesSubword (g : Grammar) (shell : Shell) (reason : GrammarError) : Prop :=
  ∃ resolved, g.resolve = .ok resolved ∧
    Expr.MeetsRefusal (Positions.checkSubwordFor shell) resolved.specializations
      resolved.body.flattenSubwords.subwordBodies reason

/-- A grammar that is resolved is rejected for its subwords only. -/
theorem validate_eq_reject_iff (hfilled : ∀ s ∈ g.statements, s.body.Filled True)
    {resolved : ResolvedGrammar} (hresolve : g.resolve = .ok resolved) {shell : Shell}
    {reason : GrammarError} : g.validate shell = reject reason ↔ g.RefusesSubword shell reason := by
  rw [validate, hresolve, Result.ok_bind, reject, Result.bind_eq_error, ← reject,
    (filled_resolved hfilled hresolve).flattenSubwords.toPattern_eq_reject_iff
      fun _ => Expr.flat_of_mem_flattenSubwords]
  constructor
  · rintro (hmeets | ⟨found, -, hfound⟩)
    · exact ⟨resolved, hresolve, hmeets⟩
    · cases hfound
  · rintro ⟨found, hfound, hmeets⟩
    cases hresolve.symm.trans hfound
    exact Or.inl hmeets

/-- Whether neighbours fare worse is told by the unfolded definitions of both forms. -/
theorem joinsNeighbours_iff {g' : Grammar} {final final' : Definitions}
    {specializations : Specializations} (h : g.unfolding = .ok final) (h' : g'.unfolding = .ok final')
    (hspecializations : g.specializations = .ok specializations) :
    g.JoinsNeighbours g' ↔
      Contact.Joins (final'.replacement? specializations) (g.contacts final) := by
  constructor
  · rintro ⟨definitions, definitions', found, hdefinitions, hdefinitions', hfound, hjoins⟩
    cases h.symm.trans hdefinitions
    cases h'.symm.trans hdefinitions'
    cases hspecializations.symm.trans hfound
    exact hjoins
  · exact fun hjoins => ⟨final, final', specializations, h, h', hspecializations, hjoins⟩

/-- Checks of pairs of neighbours before compilations that agree: with the references in the pairs replaced,
the outcome agrees unless the pairs fare worse. -/
theorem alike_check_iff {replacement : String → Option Expr} {cs cs' : List Contact}
    (hcs : ∀ c ∈ cs, c.left.Filled False ∧ c.right.Filled False)
    (hcs' : ∀ c ∈ cs', c.left.Filled False ∧ c.right.Filled False)
    (h : cs'.map Contact.bare = cs.map (Contact.substitute replacement)) {x x' : Result ValidGrammar}
    (hx : Result.FailsWithin SubwordFailure x)
    (hsame : forM cs Contact.check = .ok () → (Alike x x' ↔ Faultless x)) :
    Alike (forM cs Contact.check >>= fun _ => x) (forM cs' Contact.check >>= fun _ => x') ↔
      Faultless (forM cs Contact.check >>= fun _ => x) ∧ ¬ Contact.Joins replacement cs := by
  rw [Contact.joins_iff h]
  rcases Contact.forM_check_cases hcs' with ⟨hcheck', hpass'⟩ | ⟨hcheck', hmeets'⟩ |
    ⟨⟨first', second', trace', hcheck'⟩, hoffends', hmeets'⟩
  · -- all pairs pass with their references replaced, so they do as they are written
    have hcheck := (Contact.forM_check_eq_ok_iff hcs).mpr (Contact.offends_of_forall h hpass')
    have hnone : ¬ ∃ c ∈ cs', c.offends = true := by simpa using hpass'
    rw [hcheck, hcheck', Result.ok_bind, Result.ok_bind, hsame hcheck, and_iff_left]
    rintro (hmeets' | ⟨hoffends', -⟩)
    exacts [hnone hmeets'.exists_offends, hnone hoffends']
  · rw [hcheck']
    refine iff_of_false (fun halike => ?_) fun ⟨_, hjoins⟩ => hjoins (Or.inl hmeets')
    exact halike.faultless.2 .nestedSubword rfl
  · rw [hcheck']
    rcases Contact.forM_check_cases hcs with ⟨hcheck, hpass⟩ | ⟨hcheck, -⟩ |
      ⟨⟨first, second, trace, hcheck⟩, ⟨c, hc, hoffends⟩, -⟩
    · rw [hcheck]
      refine iff_of_false (not_alike_adjacentLiterals hx first' second' trace') ?_
      exact fun ⟨_, hjoins⟩ => hjoins (Or.inr ⟨hoffends', hpass⟩)
    · rw [hcheck]
      exact iff_of_false (fun halike => halike.faultless.1 .nestedSubword rfl)
        fun ⟨hfaultless, _⟩ => hfaultless .nestedSubword rfl
    · rw [hcheck]
      refine iff_of_true (.rejected rfl) ⟨Result.faultless_reject _, ?_⟩
      rintro (hmeets | ⟨-, hpass⟩)
      · exact hmeets' hmeets
      · rw [hpass c hc] at hoffends
        cases hoffends

section

variable {head : String} {e : Expr} (hcalls : g.calls = [(head, e)]) (hfresh : g.Fresh name)
  (r : g.Resolution) (r' : (g.named name span place).Resolution)

include hcalls hfresh

/-- Unless something is left unresolved, what may follow the command is resolved to the same in both
forms. -/
theorem Fresh.substitute_body_named {specializations : Specializations}
    (hplain : specializations.get? name = none)
    (hresolved : ¬ g.MentionsUnresolved specializations) :
    (g.named name span place).body.distributed.substitute (r'.replacement? specializations) =
      g.body.distributed.substitute (r.replacement? specializations) := by
  have hself : r'.replacement? specializations name =
      some (g.body.distributed.substitute (r'.replacement? specializations)) := by
    rw [Resolution.replacement?, Definitions.replacement?, OrderedMap.contains, hplain, if_neg (by simp)]
    exact hfresh.get?_final_named_self hcalls r' specializations
  rw [body_named hcalls]
  change (r'.replacement? specializations name).getD _ = _
  rw [hself, Option.getD_some]
  refine Expr.substitute_congr fun other hother => ?_
  rw [Expr.references_distributed] at hother
  exact (hfresh.replacement?_of_mem_body hcalls r r' specializations hother hresolved).symm

/-- If the call is named, it leads into no circle unless one is in sight. -/
theorem Fresh.not_circle_of_called_named (hcircle : ¬ (g.named name span place).CircleInSight) :
    ∀ other, (g.named name span place).Called other →
      ¬ TransGen (g.named name span place).DependsOn other other := by
  intro other hcalled hother
  exact hcircle (Or.inr ⟨other, hfresh.inSight_of_called_named hcalls hcalled, hother⟩)

/-- Without a circle in sight, the two forms agree unless neighbours fare worse or something is left
unresolved. -/
theorem Fresh.alike_iff_of_resolution (hfilled : ∀ s ∈ g.statements, s.body.Filled True)
    {specializations : Specializations} (hspecializations : g.specializations = .ok specializations)
    (hcircle : ¬ (g.named name span place).CircleInSight) (hresolved : ¬ g.LeavesUnresolved)
    (shell : Shell) :
    Alike (g.validate shell) ((g.named name span place).validate shell) ↔
      Faultless (g.validate shell) ∧
        ¬ Contact.Joins (r'.replacement? specializations) (g.contacts (r.final specializations)) := by
  have hcommand : g.command = .ok head := command_of_calls hcalls
  have hcommand' : (g.named name span place).command = .ok head := command_named hcalls
  obtain ⟨hsame, hplain⟩ := hfresh.specializations_named span place
  have hspecializations' := hsame.trans hspecializations
  have hfilled' := filled_named hcalls hfilled name span place
  have hclear : ∀ other, g.Called other → ¬ TransGen g.DependsOn other other := by
    intro other hcalled hother
    exact hcircle ((hfresh.circleInSight_named_iff hcalls).mpr ⟨other, Or.inr hcalled, hother⟩)
  have hclear' := hfresh.not_circle_of_called_named hcalls hcircle
  have hunfolding := r.unfolding_eq hcommand hspecializations
  have hunfolding' := r'.unfolding_eq hcommand' hspecializations'
  obtain ⟨unused, hvalidate⟩ := r.validate_eq hcommand hspecializations hfilled hclear shell
  obtain ⟨unused', hvalidate'⟩ := r'.validate_eq hcommand' hspecializations' hfilled' hclear' shell
  rw [hvalidate, hvalidate']
  refine alike_check_iff (filled_contacts hfilled hunfolding) (filled_contacts hfilled' hunfolding')
    (hfresh.contacts_named hcalls r r' specializations hclear) ?_ fun hpass => ?_
  · exact failsWithin_complete (filled_substituted hfilled hunfolding specializations) shell head
      specializations unused
  · obtain ⟨resolved, hresolve, rfl⟩ :=
      r.exists_resolved hcommand hspecializations hfilled hclear hpass
    rw [hfresh.substitute_body_named hcalls r r' (hplain _ hspecializations) fun hunresolved =>
      hresolved ⟨resolved, hresolve, hunresolved⟩]
    exact alike_complete_iff

end

/-- Grammars that are rejected for reasons of one kind before their definitions are resolved agree. -/
theorem alike_iff_of_rejected {g' : Grammar} {shell : Shell} {e e' : GrammarError}
    (h : g.validate shell = reject e) (h' : g'.validate shell = reject e')
    (he : e.ctorIdx = e'.ctorIdx) (hcircles : ¬ g.CirclesDiffer)
    (hunfolding : ∀ final, g.unfolding ≠ .ok final) :
    Alike (g.validate shell) (g'.validate shell) ↔
      Faultless (g.validate shell) ∧ ¬ g.CirclesDiffer ∧ ¬ g.JoinsNeighbours g' := by
  rw [h, h']
  refine iff_of_true (.rejected he) ⟨Result.faultless_reject e, hcircles, ?_⟩
  rintro ⟨final, -, -, hfinal, -⟩
  exact hunfolding final hfinal

section

variable {head : String} {e : Expr} (hcalls : g.calls = [(head, e)]) (hfresh : g.Fresh name)

include hcalls hfresh

/-- A grammar without definitions or specialized names is rejected for a reason of the same kind in both
forms. -/
theorem Fresh.rejected_of_not_consistent (h : ¬ g.Consistent) (span : Option Span) (place : ℕ)
    (shell : Shell) :
    ∃ e e', g.validate shell = reject e ∧ (g.named name span place).validate shell = reject e' ∧
      e.ctorIdx = e'.ctorIdx := by
  rw [validate, validate, resolve, resolve, command_of_calls hcalls, command_named hcalls,
    Result.ok_bind, Result.ok_bind]
  rcases hfresh.definitions_named_cases span place with
    ⟨definitions, definitions', hdefinitions, hdefinitions'⟩ | ⟨repeated, repeated', hrepeated, hrepeated'⟩
  · have hsame := (hfresh.specializations_named span place).1
    rw [hdefinitions, hdefinitions', Result.ok_bind, Result.ok_bind, hsame]
    cases hspecializations : g.specializations with
    | ok specializations => exact (h ⟨⟨_, hdefinitions⟩, _, hspecializations⟩).elim
    | error failure =>
      cases failure with
      | fault f => exact (g.faultless_specializations f hspecializations).elim
      | rejected e => exact ⟨e, e, rfl, rfl, rfl⟩
  · rw [hrepeated, hrepeated']
    exact ⟨_, _, rfl, rfl, rfl⟩

/-- Unless something is left unresolved, the two forms agree exactly if the one as it is written has no
fault, the same circles are found in both, and neighbours do not fare worse with their references
replaced. -/
theorem Fresh.alike_iff (hfilled : ∀ s ∈ g.statements, s.body.Filled True)
    (hresolved : ¬ g.LeavesUnresolved) (span : Option Span) (place : ℕ) (shell : Shell) :
    Alike (g.validate shell) ((g.named name span place).validate shell) ↔
      Faultless (g.validate shell) ∧ ¬ g.CirclesDiffer ∧
        ¬ g.JoinsNeighbours (g.named name span place) := by
  by_cases hconsistent : g.Consistent
  · obtain ⟨⟨found, hfound⟩, specializations, hspecializations⟩ := hconsistent
    obtain ⟨definitions, definitions', hdefinitions, hdefinitions'⟩ :=
      (hfresh.definitions_named_cases span place).resolve_right (by simp [hfound, reject])
    have hspecializations' := (hfresh.specializations_named span place).1.trans hspecializations
    have hcommand : g.command = .ok head := command_of_calls hcalls
    have hcommand' : (g.named name span place).command = .ok head := command_named hcalls
    have hcircles : g.CirclesDiffer ↔
        ¬ (g.CircleInSight ↔ (g.named name span place).CircleInSight) := by
      rw [CirclesDiffer, hfresh.circleInSight_named_iff hcalls]
      exact and_iff_right ⟨⟨_, hdefinitions⟩, _, hspecializations⟩
    rcases validate_cases hcommand hdefinitions hspecializations hfilled shell with
      ⟨hcycle, hsight⟩ | ⟨hlate, hsight⟩ <;>
    rcases validate_cases hcommand' hdefinitions' hspecializations'
        (filled_named hcalls hfilled name span place) shell with
      ⟨hcycle', hsight'⟩ | ⟨hlate', hsight'⟩
    · refine alike_iff_of_rejected hcycle hcycle' rfl ?_ ?_
      · exact fun hdiffer => hcircles.mp hdiffer (iff_of_true hsight hsight')
      · exact fun final hfinal => (consistent_of_unfolding hfinal).2 hsight
    · rw [hcycle]
      refine iff_of_false (fun halike => not_alike_definitionCycle hlate' halike.symm) fun h => ?_
      exact h.2.1 (hcircles.mpr fun hsame => hsight' (hsame.mp hsight))
    · rw [hcycle']
      refine iff_of_false (not_alike_definitionCycle hlate) fun h => ?_
      exact h.2.1 (hcircles.mpr fun hsame => hsight (hsame.mpr hsight'))
    · obtain ⟨r⟩ := exists_resolution hdefinitions hsight
      obtain ⟨r'⟩ := exists_resolution hdefinitions' hsight'
      have hdiffer : ¬ g.CirclesDiffer := fun hdiffer =>
        hcircles.mp hdiffer (iff_of_false hsight hsight')
      rw [hfresh.alike_iff_of_resolution hcalls r r' hfilled hspecializations hsight' hresolved,
        and_iff_right hdiffer, joinsNeighbours_iff (r.unfolding_eq hcommand hspecializations)
          (r'.unfolding_eq hcommand' hspecializations') hspecializations]
      rfl
  · obtain ⟨e, e', hrejected, hrejected', he⟩ :=
      hfresh.rejected_of_not_consistent hcalls hconsistent span place shell
    refine alike_iff_of_rejected hrejected hrejected' he (fun h => hconsistent h.1) ?_
    exact fun final hfinal => hconsistent (consistent_of_unfolding hfinal).1

/-- A form whose call is named can be resolved if it agrees with the grammar as it is written, and that one
can be resolved. -/
theorem Fresh.exists_resolve_named (hfilled : ∀ s ∈ g.statements, s.body.Filled True)
    {resolved : ResolvedGrammar} (hresolve : g.resolve = .ok resolved) {shell : Shell}
    (halike : Alike (g.validate shell) ((g.named name span place).validate shell)) :
    ∃ resolved', (g.named name span place).resolve = .ok resolved' := by
  have hfails : Result.FailsWithin SubwordFailure (g.validate shell) := by
    rw [validate, hresolve, Result.ok_bind]
    exact ((filled_resolved hfilled hresolve).flattenSubwords.failsWithin_toPattern
      (fun _ => Expr.flat_of_mem_flattenSubwords) shell _ _).bind fun _ _ => Result.failsWithin_ok _
  obtain ⟨final, hunfolding, hspecializations, -⟩ := resolve_eq_ok hresolve
  obtain ⟨-, found, -, -, -, hfound, -⟩ := unfolding_eq_ok.mp hunfolding
  obtain ⟨definitions, definitions', -, hdefinitions'⟩ :=
    (hfresh.definitions_named_cases span place).resolve_right (by simp [hfound, reject])
  have hcommand' : (g.named name span place).command = .ok head := command_named hcalls
  have hspecializations' := (hfresh.specializations_named span place).1.trans hspecializations
  have hfilled' := filled_named hcalls hfilled name span place
  rcases validate_cases hcommand' hdefinitions' hspecializations' hfilled' shell with
    ⟨hcycle', -⟩ | ⟨-, hsight'⟩
  · rw [hcycle'] at halike
    exact (not_alike_definitionCycle (hfails.mono fun _ => SubwordFailure.late) halike).elim
  · obtain ⟨r'⟩ := exists_resolution hdefinitions' hsight'
    have hclear' := hfresh.not_circle_of_called_named hcalls hsight'
    have hunfolding' := r'.unfolding_eq hcommand' hspecializations'
    obtain ⟨unused', hvalidate'⟩ := r'.validate_eq hcommand' hspecializations' hfilled' hclear' shell
    rw [hvalidate'] at halike
    rcases Contact.forM_check_cases (filled_contacts hfilled' hunfolding') with
      ⟨hcheck', -⟩ | ⟨hcheck', -⟩ | ⟨⟨first, second, trace, hcheck'⟩, -⟩
    · obtain ⟨resolved', hresolve', -⟩ :=
        r'.exists_resolved hcommand' hspecializations' hfilled' hclear' hcheck'
      exact ⟨resolved', hresolve'⟩
    · rw [hcheck'] at halike
      exact (halike.faultless.2 .nestedSubword rfl).elim
    · rw [hcheck'] at halike
      exact (not_alike_adjacentLiterals hfails first second trace halike).elim

/-- If something is left unresolved, the two forms have different undefined names. -/
theorem Fresh.undefined_ne (hunresolved : g.LeavesUnresolved) {shell : Shell} {v v' : ValidGrammar}
    (hv : g.validate shell = .ok v) (hv' : (g.named name span place).validate shell = .ok v') :
    v.undefined ≠ v'.undefined := by
  obtain ⟨resolved, hresolve, hmentions⟩ := hunresolved
  obtain ⟨other, hother, body, hreplaces⟩ := hmentions.exists_replaced hresolve
  obtain ⟨found, hfound, hundefined⟩ := mem_undefined_iff hv
  cases hresolve.symm.trans hfound
  obtain ⟨resolved', hresolve', hundefined'⟩ := mem_undefined_iff hv'
  obtain ⟨-, -, hspecializations, -⟩ := resolve_eq_ok hresolve
  obtain ⟨-, -, hspecializations', -⟩ := resolve_eq_ok hresolve'
  have hsame : resolved'.specializations = resolved.specializations := by
    rw [(hfresh.specializations_named span place).1, hspecializations] at hspecializations'
    exact (Except.ok.inj hspecializations').symm
  -- the call names only the new name, which is in sight
  have hexpands := (expands_resolve_iff hresolve').mpr (by
    rintro ⟨first, hfirst, hhidden, -⟩
    rw [body_named hcalls, Expr.references, List.mem_singleton] at hfirst
    exact hhidden ((hfresh.inSight_named_iff hcalls).mpr (Or.inl hfirst)))
  intro heq
  have hleft := (hundefined other).mpr ⟨hother, hreplaces.2⟩
  rw [heq] at hleft
  refine hexpands.not_replaced other ((hundefined' other).mp hleft).1 body
    ⟨definition_mem_named.mpr (Or.inl hreplaces.1), ?_⟩
  rw [hsame]
  exact hreplaces.2

/-- If something is left unresolved, the two forms agree exactly if both are rejected, for a subword of
theirs and for reasons of one kind. -/
theorem Fresh.alike_iff_of_unresolved (hfilled : ∀ s ∈ g.statements, s.body.Filled True)
    (hunresolved : g.LeavesUnresolved) (span : Option Span) (place : ℕ) (shell : Shell) :
    Alike (g.validate shell) ((g.named name span place).validate shell) ↔
      ∃ reason reason', g.RefusesSubword shell reason ∧
        (g.named name span place).RefusesSubword shell reason' ∧ reason.ctorIdx = reason'.ctorIdx := by
  have hfilled' := filled_named hcalls hfilled name span place
  obtain ⟨resolved, hresolve, -⟩ := id hunresolved
  constructor
  · intro halike
    obtain ⟨resolved', hresolve'⟩ := hfresh.exists_resolve_named hcalls hfilled hresolve halike
    generalize hx : g.validate shell = x at halike
    generalize hy : (g.named name span place).validate shell = y at halike
    cases halike with
    | valid _ _ _ _ hundefined =>
      exact (hfresh.undefined_ne hcalls hunresolved hx hy hundefined).elim
    | @rejected reason reason' hkind =>
      exact ⟨reason, reason', (validate_eq_reject_iff hfilled hresolve).mp hx,
        (validate_eq_reject_iff hfilled' hresolve').mp hy, hkind⟩
  · rintro ⟨reason, reason', hrefuses, hrefuses', hkind⟩
    obtain ⟨resolved', hresolve', -⟩ := id hrefuses'
    rw [(validate_eq_reject_iff hfilled hresolve).mpr hrefuses,
      (validate_eq_reject_iff hfilled' hresolve').mpr hrefuses']
    exact .rejected hkind

end

/-- Without circles all definitions are in sight, and all of them are resolved. -/
theorem Acyclic.not_leavesUnresolved (h : g.Acyclic) : ¬ g.LeavesUnresolved := by
  rintro ⟨resolved, hresolve, other, -, hhidden, body, hreplaces, -⟩
  obtain ⟨final, hfinal, -⟩ := resolve_eq_ok hresolve
  obtain ⟨⟨definitions, hdefinitions⟩, -⟩ := (consistent_of_unfolding hfinal).1
  exact hhidden (h.inSight hdefinitions ⟨body, hreplaces.1⟩)

/-- Without circles none is found in either form. -/
theorem Acyclic.not_circlesDiffer (h : g.Acyclic) : ¬ g.CirclesDiffer := by
  rintro ⟨⟨⟨definitions, hdefinitions⟩, -⟩, hdiffer⟩
  refine hdiffer (iff_of_false ?_ ?_)
  · exact fun hsight => CircleInSight.not_acyclic hdefinitions hsight h
  · exact fun ⟨other, _, hcircle⟩ => h other hcircle

/-- Naming what may follow the command in a grammar with a single call leaves the outcome of its validation
as it is exactly if the grammar as it is written has no fault, the same circles are found in both forms,
and the neighbours inside its words do not fare worse with their references replaced. If a definition is
left unresolved, two valid forms have different undefined names, and the outcome is left as it is exactly
if in both forms the first subword that is not compiled is refused, for reasons of one kind. In a grammar
without circles no definition is left unresolved and no circles differ. -/
theorem named_alike_iff {text : String} (hparse : Grammar.parse text = .ok g) {head : String} {e : Expr}
    (hcalls : g.calls = [(head, e)]) (hfresh : g.Fresh name) (span : Option Span) (place : ℕ)
    (shell : Shell) :
    (¬ g.LeavesUnresolved →
      (Alike (g.validate shell) ((g.named name span place).validate shell) ↔
        Faultless (g.validate shell) ∧ ¬ g.CirclesDiffer ∧
          ¬ g.JoinsNeighbours (g.named name span place))) ∧
    (g.LeavesUnresolved →
      (∀ v v', g.validate shell = .ok v → (g.named name span place).validate shell = .ok v' →
        v.undefined ≠ v'.undefined) ∧
      (Alike (g.validate shell) ((g.named name span place).validate shell) ↔
        ∃ reason reason', g.RefusesSubword shell reason ∧
          (g.named name span place).RefusesSubword shell reason' ∧
          reason.ctorIdx = reason'.ctorIdx)) ∧
    (g.Acyclic → ¬ g.LeavesUnresolved ∧ ¬ g.CirclesDiffer) := by
  have hfilled := filled_of_parse hparse
  refine ⟨fun hresolved => ?_, fun hunresolved => ⟨fun v v' hv hv' => ?_, ?_⟩, fun hacyclic => ?_⟩
  · exact hfresh.alike_iff hcalls hfilled hresolved span place shell
  · exact hfresh.undefined_ne hcalls hunresolved hv hv'
  · exact hfresh.alike_iff_of_unresolved hcalls hfilled hunresolved span place shell
  · exact ⟨hacyclic.not_leavesUnresolved, hacyclic.not_circlesDiffer⟩

/-- The grammar of `cmd a=<W>; <W> ::= on | off;`. -/
def switchedOption : Grammar := ⟨[
  .call "cmd" (.subword (.sequence [.literal "a=" none 0 (some ⟨0, 4, 6⟩),
    .reference "W" 0 (some ⟨0, 6, 9⟩)]) 0 (some ⟨0, 4, 9⟩)),
  .definition "W" none (.alternative [.literal "on" none 0 (some ⟨0, 19, 21⟩),
    .literal "off" none 0 (some ⟨0, 24, 27⟩)])]⟩

/-- The pattern of its word. -/
def switchedWord : Pattern Input := .sequence [.symbol (.literal "a=" none 0 (some ⟨0, 4, 6⟩)),
  .alternative [.symbol (.literal "on" none 0 (some ⟨0, 19, 21⟩)),
    .symbol (.literal "off" none 0 (some ⟨0, 24, 27⟩))]]

theorem acyclic_switchedOption : switchedOption.Acyclic := by
  refine acyclic_of_rank (fun _ => 0) ?_
  rintro name other ⟨body, hbody, hother⟩
  simp only [switchedOption, List.mem_cons, reduceCtorEq, Statement.definition.injEq, true_and,
    List.not_mem_nil, or_false, false_or] at hbody
  obtain ⟨rfl, rfl⟩ := hbody
  simp [Expr.references, Expr.referencesAll] at hother

/-- Its neighbours do not fare worse if its call is named. -/
theorem not_joinsNeighbours_switchedOption :
    ¬ switchedOption.JoinsNeighbours (switchedOption.named "N" none 1) := by
  rintro ⟨definitions, definitions', specializations, hunfolding, hunfolding', hspecializations, h⟩
  rw [unfolding, command_of_calls rfl] at hunfolding hunfolding'
  cases hunfolding
  cases hunfolding'
  cases hspecializations
  rcases h with ⟨c, hfind, -⟩ | ⟨⟨c, hc, hoffends⟩, -⟩
  · cases hfind
  · cases List.mem_singleton.mp hc
    cases hoffends

/-- Naming its call makes no difference. -/
theorem named_alike_switchedOption :
    Grammar.parse "cmd a=<W>; <W> ::= on | off;" = .ok switchedOption ∧ switchedOption.Fresh "N" ∧
      (∃ v, switchedOption.validate .bash = .ok v) ∧
      Alike (switchedOption.validate .bash) ((switchedOption.named "N" none 1).validate .bash) := by
  have hparse : Grammar.parse "cmd a=<W>; <W> ::= on | off;" = .ok switchedOption := by decide +kernel
  have hfresh : switchedOption.Fresh "N" := ⟨by decide, by decide⟩
  obtain ⟨resolved, body, hresolve, hbodies, hpattern⟩ : ∃ resolved body,
      switchedOption.resolve = .ok resolved ∧ resolved.body.flattenSubwords.subwordBodies = [body] ∧
        body.toPattern (Positions.checkSubwordFor .bash) resolved.specializations {} =
          .ok ({}, switchedWord) := by
    rw [resolve, command_of_calls rfl]
    exact ⟨_, _, rfl, rfl, rfl⟩
  have hvalid : ∃ v, switchedOption.validate .bash = .ok v := by
    refine exists_valid_of_compilable (filled_of_parse hparse) hresolve ?_
    rw [hbodies, List.forall_mem_singleton]
    refine ⟨switchedWord, hpattern, ?_, Positions.encard_discovered_le (by decide +kernel)⟩
    exact Positions.checkSubwordFor_eq_ok (by decide +kernel) (by decide +kernel)
  have hiff := named_alike_iff hparse rfl hfresh none 1 .bash
  obtain ⟨hresolved, hcircles⟩ := hiff.2.2 acyclic_switchedOption
  refine ⟨hparse, hfresh, hvalid, (hiff.1 hresolved).mpr
    ⟨?_, hcircles, not_joinsNeighbours_switchedOption⟩⟩
  obtain ⟨v, hv⟩ := hvalid
  rw [hv]
  exact Result.faultless_ok v

/-- The grammar of `cmd x<A>; <A> ::= foo;`. -/
def joinedWord : Grammar := ⟨[
  .call "cmd" (.subword (.sequence [.literal "x" none 0 (some ⟨0, 4, 5⟩),
    .reference "A" 0 (some ⟨0, 5, 8⟩)]) 0 (some ⟨0, 4, 8⟩)),
  .definition "A" none (.literal "foo" none 0 (some ⟨0, 18, 21⟩))]⟩

/-- The pattern of its word. -/
def joinedParts : Pattern Input := .sequence [.symbol (.literal "x" none 0 (some ⟨0, 4, 5⟩)),
  .symbol (.literal "foo" none 0 (some ⟨0, 18, 21⟩))]

/-- A literal before a reference to a literal is a word of its own, but not in a definition. -/
theorem named_alike_joinedWord :
    Grammar.parse "cmd x<A>; <A> ::= foo;" = .ok joinedWord ∧ joinedWord.Fresh "N" ∧
      (∃ v, joinedWord.validate .bash = .ok v) ∧
      ∃ first second trace, (joinedWord.named "N" none 1).validate .bash =
        reject (.adjacentLiterals first second trace) := by
  have hparse : Grammar.parse "cmd x<A>; <A> ::= foo;" = .ok joinedWord := by decide +kernel
  refine ⟨hparse, ⟨by decide, by decide⟩, ?_, ?_⟩
  · obtain ⟨resolved, body, hresolve, hbodies, hpattern⟩ : ∃ resolved body,
        joinedWord.resolve = .ok resolved ∧ resolved.body.flattenSubwords.subwordBodies = [body] ∧
          body.toPattern (Positions.checkSubwordFor .bash) resolved.specializations {} =
            .ok ({}, joinedParts) := by
      rw [resolve, command_of_calls rfl]
      exact ⟨_, _, rfl, rfl, rfl⟩
    refine exists_valid_of_compilable (filled_of_parse hparse) hresolve ?_
    rw [hbodies, List.forall_mem_singleton]
    refine ⟨joinedParts, hpattern, ?_, Positions.encard_discovered_le (by decide +kernel)⟩
    exact Positions.checkSubwordFor_eq_ok (by decide +kernel) (by decide +kernel)
  · rw [validate, resolve, command_of_calls rfl]
    exact ⟨_, _, _, rfl⟩

end Grammar

end ShellCompletion
