import ShellCompletion.Proofs.Resolutions
import ShellCompletion.Proofs.Scripts
import ShellCompletion.Proofs.SpecializedNames

/-!
# Plain definitions

A plain definition takes effect if no reference to its name is left in a valid grammar, neither in the
pattern of the words nor in the automaton of a subword. It is meant to do so whenever the name has no
definitions for shells. But a name that is specialized from the start is never replaced, whatever its
definition. Also, the definition of a name out of sight is put in place as it is written, with all the
names it mentions. In all other cases the definition takes effect.
-/

namespace ShellCompletion

open Relation (ReflTransGen TransGen)

/-! ### Names in patterns -/

/-- Whether an input stands for a nonterminal of the given name. -/
def Input.Names (name : String) : Input → Prop
  | .reference other _ _ _ => other = name
  | _ => False

/-- Whether an input is among the symbols of an automaton or on its transitions. -/
def Automaton.HasInput (a : Automaton Input) (input : Input) : Prop :=
  input ∈ a.symbols.toList ∨ ∃ t ∈ a.transitions, t.symbol = input

/-- Whether a nonterminal of the given name is left in the pattern of a valid grammar or in one of the
automata of its subwords. -/
def ValidGrammar.Mentions (valid : ValidGrammar) (name : String) : Prop :=
  (∃ input ∈ valid.pattern.symbols, input.Names name) ∨
    ∃ a ∈ valid.subwords.automata, ∃ input, a.HasInput input ∧ input.Names name

namespace Expr

/-- Flattening a word leaves the names that it mentions. -/
theorem references_flatten (e : Expr) : e.flatten.references = e.references := by
  have hall : ∀ es : List Expr, (∀ e ∈ es, e.flatten.references = e.references) →
      referencesAll (flattenAll es) = referencesAll es := by
    intro es hes
    rw [flattenAll_eq_map, referencesAll_eq_flatMap, referencesAll_eq_flatMap, List.flatMap_map]
    exact List.flatMap_congr hes
  induction e with
  | literal => rfl
  | reference => rfl
  | command => rfl
  | sequence items ih => exact hall items ih
  | alternative branches ih => exact hall branches ih
  | fallback branches ih => exact hall branches ih
  | optional item ih => exact ih
  | repeated item ih => exact ih
  | described item description ih => exact ih
  | subword body level span ih => exact ih

/-- Flattening subwords leaves the names that an expression mentions. -/
theorem references_flattenSubwords (e : Expr) : e.flattenSubwords.references = e.references := by
  have hall : ∀ es : List Expr, (∀ e ∈ es, e.flattenSubwords.references = e.references) →
      referencesAll (flattenSubwordsAll es) = referencesAll es := by
    intro es hes
    rw [flattenSubwordsAll_eq_map, referencesAll_eq_flatMap, referencesAll_eq_flatMap,
      List.flatMap_map]
    exact List.flatMap_congr hes
  induction e with
  | literal => rfl
  | reference => rfl
  | command => rfl
  | sequence items ih => exact hall items ih
  | alternative branches ih => exact hall branches ih
  | fallback branches ih => exact hall branches ih
  | optional item ih => exact ih
  | repeated item ih => exact ih
  | described item description ih => exact ih
  | subword body level span _ => exact references_flatten body

variable {check : Positions Input → Result Unit} {specializations : Specializations}

/-- What passes from the parts of an expression and of its pattern to the whole holds of every expression
and its pattern. The body of a subword does not stand in the pattern, so nothing is asked of it. -/
theorem toPattern_induction {motive : Expr → Pattern Input → Prop}
    (literal : ∀ text description level span, motive (.literal text description level span)
      (.symbol (.literal text description level span)))
    (reference : ∀ name level span, motive (.reference name level span)
      (.symbol (.reference name (specializations.get? name) level span)))
    (command : ∀ text patterns level span, motive (.command text patterns level span)
      (.symbol (.command text patterns level span)))
    (sequence : ∀ items ps, List.Forall₂ motive items ps → motive (.sequence items) (.sequence ps))
    (alternative : ∀ branches ps, List.Forall₂ motive branches ps →
      motive (.alternative branches) (.alternative ps))
    (fallback : ∀ branches ps, List.Forall₂ motive branches ps →
      motive (.fallback branches) (.fallback ps))
    (optional : ∀ item q, motive item q → motive (.optional item) (.optional q))
    (repeated : ∀ item q, motive item q → motive (.repeated item) (.repeated q))
    (subword : ∀ body level span id, motive (.subword body level span)
      (.symbol (.subword id level span)))
    {e : Expr} {s t : Interner Input} {p : Pattern Input}
    (h : e.toPattern check specializations s = .ok (t, p)) : motive e p := by
  have hall : ∀ es : List Expr,
      (∀ e ∈ es, ∀ {s t p}, e.toPattern check specializations s = .ok (t, p) → motive e p) →
      ∀ {s t ps}, toPatterns check specializations s es = .ok (t, ps) →
        List.Forall₂ motive es ps := by
    intro es
    induction es with
    | nil =>
      intro _ s t ps h
      cases h
      exact .nil
    | cons e es ih =>
      intro hes s t ps h
      obtain ⟨u, p, qs, he, hqs, rfl⟩ := toPatterns_cons h
      exact .cons (hes e (by simp) he) (ih (fun x hx => hes x (by simp [hx])) hqs)
  induction e generalizing s t p with
  | literal => cases h; exact literal ..
  | reference => cases h; exact reference ..
  | command => cases h; exact command ..
  | sequence items ih =>
    obtain ⟨-, ps, hps, rfl⟩ := toPattern_sequence h
    exact sequence items ps (hall items ih hps)
  | alternative branches ih =>
    obtain ⟨ps, hps, rfl⟩ := toPattern_alternative h
    exact alternative branches ps (hall branches ih hps)
  | fallback branches ih =>
    obtain ⟨ps, hps, rfl⟩ := toPattern_fallback h
    exact fallback branches ps (hall branches ih hps)
  | optional item ih =>
    obtain ⟨q, hq, rfl⟩ := toPattern_optional h
    exact optional item q (ih hq)
  | repeated item ih =>
    obtain ⟨q, hq, rfl⟩ := toPattern_repeated h
    exact repeated item q (ih hq)
  | described => cases h
  | subword body level span _ =>
    obtain ⟨u, q, a, -, -, -, rfl, rfl⟩ := toPattern_subword h
    exact subword body level span _

/-- Each name in an expression stands in its pattern or in the body of a subword. -/
theorem mem_references_iff {name : String} {e : Expr} {s t : Interner Input} {p : Pattern Input}
    (h : e.toPattern check specializations s = .ok (t, p)) : name ∈ e.references ↔
      (∃ input ∈ p.symbols, input.Names name) ∨ ∃ body ∈ e.subwordBodies, name ∈ body.references := by
  have hall : ∀ es ps, List.Forall₂ (fun (e : Expr) (p : Pattern Input) => name ∈ e.references ↔
      (∃ input ∈ p.symbols, input.Names name) ∨
        ∃ body ∈ e.subwordBodies, name ∈ body.references) es ps →
      (name ∈ referencesAll es ↔ (∃ input ∈ Pattern.symbolsAll ps, input.Names name) ∨
        ∃ body ∈ subwordBodiesAll es, name ∈ body.references) := by
    intro es ps hes
    induction hes with
    | nil => simp [referencesAll, Pattern.symbolsAll, subwordBodiesAll]
    | cons he _ ih =>
      rw [referencesAll, List.mem_append, he, ih]
      simp only [Pattern.symbolsAll, subwordBodiesAll, List.mem_append, or_and_right, exists_or]
      exact or_or_or_comm
  refine toPattern_induction ?_ ?_ ?_ hall hall hall (fun _ _ hitem => hitem)
    (fun _ _ hitem => hitem) ?_ h
  · simp [references, Pattern.symbols, subwordBodies, Input.Names]
  · simp [references, Pattern.symbols, subwordBodies, Input.Names, eq_comm]
  · simp [references, Pattern.symbols, subwordBodies, Input.Names]
  · simp [references, Pattern.symbols, subwordBodies, Input.Names]

end Expr

/-- The inputs of a pattern's minimal automaton are those of the pattern. -/
theorem Pattern.hasInput_iff {q : Pattern Input} {d a : Automaton Input}
    (hd : q.positions.automaton = .ok d) (htrim : d.Trim) (ha : d.minimize = .ok a) {input : Input} :
    a.HasInput input ↔ input ∈ q.symbols := by
  obtain ⟨number, hrep⟩ := Positions.exists_represents hd
  constructor
  · rintro (hmem | ⟨t, ht, rfl⟩)
    · rw [htrim.symbols_minimize ha, hrep.symbols, OrderedSet.mem_ofList] at hmem
      simpa [Pattern.positions] using hmem
    · exact Pattern.mem_symbols_of_transition hd htrim (Or.inr ha) ht
  · intro hmem
    refine Or.inl ?_
    rw [htrim.symbols_minimize ha, hrep.symbols, OrderedSet.mem_ofList]
    simpa [Pattern.positions] using hmem

namespace Grammar

variable {g : Grammar}

/-- The names left in a valid grammar are those left in the resolved one. -/
theorem mentions_iff (hfilled : ∀ s ∈ g.statements, s.body.Filled True) {shell : Shell}
    {valid : ValidGrammar} (hvalid : g.validate shell = .ok valid) {resolved : ResolvedGrammar}
    (hresolved : g.resolve = .ok resolved) {name : String} :
    valid.Mentions name ↔ name ∈ resolved.body.references := by
  obtain ⟨resolved', hresolved', hpattern⟩ := validate_eq_ok hvalid
  rw [hresolved] at hresolved'
  cases hresolved'
  have hbodies := (filled_resolved hfilled hresolved).flattenSubwords
  rw [← Expr.references_flattenSubwords, Expr.mem_references_iff hpattern, ValidGrammar.Mentions]
  refine or_congr_right ?_
  constructor
  · rintro ⟨a, ha, input, hinput, hname⟩
    obtain ⟨q, hq, hminimal⟩ := (mem_subwords_iff hfilled hvalid a).mp ha
    obtain ⟨d, hd, hm⟩ := Result.bind_eq_ok.mp hminimal
    rw [Pattern.hasInput_iff hd (trim_of_subwordPattern hfilled hq hd) hm] at hinput
    obtain ⟨resolved', hresolved', body, hbody, hq⟩ := hq
    rw [hresolved] at hresolved'
    cases hresolved'
    exact ⟨body, hbody, (Expr.mem_references_iff hq).mpr (Or.inl ⟨input, hinput, hname⟩)⟩
  · rintro ⟨body, hbody, hname⟩
    obtain ⟨q, a, hq, hminimal⟩ := hbodies.exists_minimalAutomaton
      (fun _ => Expr.flat_of_mem_flattenSubwords) hpattern hbody
    have hsubword : g.SubwordPattern shell q := ⟨resolved, hresolved, body, hbody, hq⟩
    obtain ⟨d, hd, hm⟩ := Result.bind_eq_ok.mp hminimal
    rw [Expr.mem_references_iff hq, Expr.flat_of_mem_flattenSubwords hbody] at hname
    obtain ⟨input, hinput, hname⟩ := hname.resolve_right (by simp)
    refine ⟨a, (mem_subwords_iff hfilled hvalid a).mpr ⟨q, hsubword, hminimal⟩, input, ?_, hname⟩
    exact (Pattern.hasInput_iff hd (trim_of_subwordPattern hfilled hsubword hd) hm).mpr hinput

/-! ### Names left by resolution -/

/-- Whether references to the first name are replaced by a definition that mentions the second one. -/
def Unfolds (g : Grammar) (name other : String) : Prop :=
  ¬ g.Specialized name ∧ g.DependsOn name other

/-- Whether references to a name are left although it has a plain definition: it is specialized from the
start and the calls lead to it, or a call leads to its mention in a definition out of sight. -/
def Lingers (g : Grammar) (name : String) : Prop :=
  ∃ mentioned ∈ g.body.references,
    Predefined name ∧ (mentioned = name ∨
      g.InSight mentioned ∧ ReflTransGen g.Unfolds mentioned name) ∨
    ¬ g.InSight mentioned ∧ g.Unfolds mentioned name

/-- What a name in sight depends on is in sight. -/
theorem InSight.of_dependsOn {name other : String} (h : g.InSight name)
    (hdepends : g.DependsOn name other) : g.InSight other := by
  obtain ⟨root, hroot, hpath⟩ := h
  exact ⟨root, hroot, hpath.tail hdepends⟩

namespace Resolution

variable {specializations : Specializations} (r : g.Resolution)
  (hspecializations : g.specializations = .ok specializations)

include hspecializations

/-- Nothing is put in the place of a name that is specialized or has no plain definition. -/
theorem replacement?_eq_none {name : String} :
    r.replacement? specializations name = none ↔ g.Specialized name ∨ ¬ g.Defines name := by
  rw [replacement?_eq_none_iff, ← contains_specializations_iff hspecializations]
  cases hspecialized : specializations.contains name <;> simp [Replaces, Defines, hspecialized]

/-- A name is replaced if it is not specialized, by its resolved definition. -/
theorem replacement?_eq_some {name : String} {body : Expr} :
    r.replacement? specializations name = some body ↔
      ¬ g.Specialized name ∧ (r.final specializations).get? name = some body := by
  rw [← contains_specializations_iff hspecializations, replacement?, Definitions.replacement?]
  split <;> simp [*]

/-- The definitions lead from a replaced name to each name that is left of it. -/
theorem unfolds_of_mem {name other : String} {body : Expr} (hname : ¬ g.Specialized name)
    (hbody : (r.final specializations).get? name = some body) (hother : other ∈ body.references) :
    TransGen g.Unfolds name other := by
  revert name other body
  suffices hall : ∀ name body, (r.final specializations).get? name = some body →
      ¬ g.Specialized name → ∀ other ∈ body.references, TransGen g.Unfolds name other by
    intro name other body hname hbody hother
    exact hall name body hbody hname other hother
  apply Definitions.resolve_induction
  · intro name body hbody hname other hother
    exact .single ⟨hname, dependsOn_of_get? hbody hother⟩
  · intro current name body hcurrent hbody hname other hother
    rw [Expr.references_substitute, List.mem_flatMap] at hother
    obtain ⟨mentioned, hmentioned, hother⟩ := hother
    have hpath := hcurrent name body hbody hname mentioned hmentioned
    unfold Expr.leftBy Definitions.replacement? at hother
    split at hother
    · next replaced hreplaced =>
      split at hreplaced
      · cases hreplaced
      · next hplain =>
        rw [contains_specializations_iff hspecializations] at hplain
        exact hpath.trans (hcurrent mentioned replaced hreplaced hplain other hother)
    · rw [List.mem_singleton.mp hother]
      exact hpath

/-- A name that is not replaced is left of each name in sight from which the definitions lead to it. -/
theorem mem_leftBy_of_unfolds {name mentioned : String}
    (hname : r.replacement? specializations name = none) (hsight : g.InSight mentioned)
    (hpath : ReflTransGen g.Unfolds mentioned name) :
    name ∈ Expr.leftBy (r.replacement? specializations) mentioned := by
  induction hpath using ReflTransGen.head_induction_on with
  | refl => simp [Expr.leftBy, hname]
  | head hunfolds _ ih =>
    obtain ⟨body, hbody, hmentioned⟩ := hunfolds.2
    have hget := (get?_definitions r.definitions_eq).mpr ⟨body, hbody, rfl⟩
    have hreplaced := (r.replacement?_eq_some hspecializations).mpr
      ⟨hunfolds.1, by rw [get?_final_of_inSight hsight, hget, Option.map_some]⟩
    rw [Expr.leftBy, hreplaced]
    dsimp only
    rw [Expr.references_substitute, Expr.references_distributed]
    exact List.mem_flatMap.mpr ⟨_, hmentioned, ih (hsight.of_dependsOn hunfolds.2)⟩

/-- The names that are left of a name: those that are not replaced and to which the definitions lead from
it in sight, and those in its definition out of sight. -/
theorem mem_leftBy_iff {name mentioned : String} :
    name ∈ Expr.leftBy (r.replacement? specializations) mentioned ↔
      r.replacement? specializations name = none ∧ (mentioned = name ∨
        g.InSight mentioned ∧ ReflTransGen g.Unfolds mentioned name) ∨
      ¬ g.InSight mentioned ∧ g.Unfolds mentioned name := by
  constructor
  · intro hmem
    rw [Expr.leftBy] at hmem
    split at hmem
    · next body hbody =>
      obtain ⟨hmentioned, hget⟩ := (r.replacement?_eq_some hspecializations).mp hbody
      by_cases hsight : g.InSight mentioned
      · have hpath := r.unfolds_of_mem hspecializations hmentioned hget hmem
        exact Or.inl ⟨replacement?_of_mem_references hsight hbody hmem,
          Or.inr ⟨hsight, hpath.to_reflTransGen⟩⟩
      · rw [get?_final_of_not_inSight hsight] at hget
        exact Or.inr ⟨hsight, hmentioned, dependsOn_of_get? hget hmem⟩
    · next hnone =>
      cases List.mem_singleton.mp hmem
      exact Or.inl ⟨hnone, Or.inl rfl⟩
  · rintro (⟨hkept, rfl | ⟨hsight, hpath⟩⟩ | ⟨hsight, hmentioned, body, hbody, hmem⟩)
    · simp [Expr.leftBy, hkept]
    · exact r.mem_leftBy_of_unfolds hspecializations hkept hsight hpath
    · have hget := (get?_definitions r.definitions_eq).mpr ⟨body, hbody, rfl⟩
      have hreplaced := (r.replacement?_eq_some hspecializations).mpr
        ⟨hmentioned, by rw [get?_final_of_not_inSight hsight, hget]⟩
      rw [Expr.leftBy, hreplaced]
      dsimp only
      rwa [Expr.references_distributed]

end Resolution

/-- A resolved grammar is made by replacing the names in the calls. -/
theorem exists_resolution_of_resolve {resolved : ResolvedGrammar} (h : g.resolve = .ok resolved) :
    ∃ r : g.Resolution, resolved.body = (g.body.distributed.substitute
      (r.replacement? resolved.specializations)).assignLevels 0 := by
  obtain ⟨final, hunfolding, hspecializations, hbody⟩ := resolve_eq_ok h
  obtain ⟨command, definitions, -, -, hcommand, hdefinitions, -⟩ := unfolding_eq_ok.mp hunfolding
  obtain ⟨r⟩ := exists_resolution hdefinitions (consistent_of_unfolding hunfolding).2
  have hfinal := r.unfolding_eq hcommand hspecializations
  rw [hunfolding] at hfinal
  cases hfinal
  exact ⟨r, hbody⟩

/-- The names that are left in a resolved grammar. -/
theorem mem_references_resolved {resolved : ResolvedGrammar} (h : g.resolve = .ok resolved)
    {name : String} : name ∈ resolved.body.references ↔ ∃ mentioned ∈ g.body.references,
      (g.Specialized name ∨ ¬ g.Defines name) ∧ (mentioned = name ∨
        g.InSight mentioned ∧ ReflTransGen g.Unfolds mentioned name) ∨
      ¬ g.InSight mentioned ∧ g.Unfolds mentioned name := by
  obtain ⟨-, -, hspecializations, -⟩ := resolve_eq_ok h
  obtain ⟨r, hbody⟩ := exists_resolution_of_resolve h
  rw [hbody, Expr.references_assignLevels, Expr.references_substitute, Expr.references_distributed,
    List.mem_flatMap]
  refine exists_congr fun mentioned => and_congr_right fun _ => ?_
  rw [r.mem_leftBy_iff hspecializations, r.replacement?_eq_none hspecializations]

/-- The plainly defined names without definitions for shells that are left in a resolved grammar. -/
theorem mem_references_resolved_iff {resolved : ResolvedGrammar} (h : g.resolve = .ok resolved)
    {name : String} (hdefines : g.Defines name) (hplain : ¬ g.Specializes name) :
    name ∈ resolved.body.references ↔ g.Lingers name := by
  have hkept : g.Specialized name ∨ ¬ g.Defines name ↔ Predefined name := by
    simp [Specialized, hplain, hdefines]
  rw [mem_references_resolved h, hkept, Lingers]

/-- Without circles of definitions only names that are specialized from the start are left. -/
theorem Acyclic.lingers_iff (hacyclic : g.Acyclic) {definitions : Definitions}
    (hdefinitions : g.definitions = .ok definitions) {name : String} :
    g.Lingers name ↔
      Predefined name ∧ ∃ mentioned ∈ g.body.references, ReflTransGen g.Unfolds mentioned name := by
  constructor
  · rintro ⟨mentioned, hmentioned, ⟨hpredefined, rfl | ⟨-, hpath⟩⟩ | ⟨hhidden, hunfolds⟩⟩
    · exact ⟨hpredefined, mentioned, hmentioned, .refl⟩
    · exact ⟨hpredefined, mentioned, hmentioned, hpath⟩
    · exact (hhidden (hacyclic.inSight hdefinitions hunfolds.2.defines)).elim
  · rintro ⟨hpredefined, mentioned, hmentioned, hpath⟩
    refine ⟨mentioned, hmentioned, Or.inl ⟨hpredefined, ?_⟩⟩
    rcases hpath.cases_head with heq | ⟨next, hunfolds, -⟩
    · exact Or.inl heq
    · exact Or.inr ⟨hacyclic.inSight hdefinitions hunfolds.2.defines, hpath⟩

/-- A plain definition of a name without definitions for shells takes effect in a valid grammar unless the
name is specialized from the start and the calls lead to it, or is mentioned in a definition out of sight
to which a call leads. Without circles of definitions the second case does not arise. -/
theorem plain_definition_takes_effect_iff {text : String} (hparse : Grammar.parse text = .ok g)
    {shell : Shell} {valid : ValidGrammar} (hvalid : g.validate shell = .ok valid) {name : String}
    (hdefines : g.Defines name) (hplain : ¬ g.Specializes name) :
    (¬ valid.Mentions name ↔ ¬ g.Lingers name) ∧
      (g.Acyclic → (¬ valid.Mentions name ↔ ¬ (Predefined name ∧
        ∃ mentioned ∈ g.body.references, ReflTransGen g.Unfolds mentioned name))) := by
  obtain ⟨resolved, hresolved, -⟩ := validate_eq_ok hvalid
  obtain ⟨r, -⟩ := exists_resolution_of_resolve hresolved
  have hmentions : valid.Mentions name ↔ g.Lingers name := by
    rw [mentions_iff (filled_of_parse hparse) hvalid hresolved,
      mem_references_resolved_iff hresolved hdefines hplain]
  refine ⟨not_congr hmentions, fun hacyclic => not_congr ?_⟩
  rw [hmentions, hacyclic.lingers_iff r.definitions_eq]

/-- Its plain definitions take effect. -/
theorem takes_effect_chosenValue :
    Grammar.parse "cmd a=<W> <V>; <W> ::= on | <V>; <V> ::= v;" = .ok chosenValue ∧
      chosenValue.Defines "V" ∧ ¬ chosenValue.Specializes "V" ∧
      ∃ valid, chosenValue.validate .bash = .ok valid ∧ ¬ valid.Mentions "V" := by
  have hparse : Grammar.parse "cmd a=<W> <V>; <W> ::= on | <V>; <V> ::= v;" = .ok chosenValue := by
    decide +kernel
  have hdefines : chosenValue.Defines "V" := by simp [Defines, chosenValue]
  have hplain : ¬ chosenValue.Specializes "V" := by simp [Specializes, chosenValue]
  obtain ⟨resolved, hresolved, hbodies⟩ : ∃ resolved, chosenValue.resolve = .ok resolved ∧
      resolved.body.flattenSubwords.subwordBodies = [chosenBody] := by
    have hcommand : chosenValue.command = .ok "cmd" := command_of_calls rfl
    rw [resolve, hcommand]
    exact ⟨_, rfl, rfl⟩
  obtain ⟨valid, hvalid⟩ : ∃ valid, chosenValue.validate .bash = .ok valid := by
    refine exists_valid_of_compilable (filled_of_parse hparse) hresolved fun body hbody => ?_
    rw [hbodies, List.mem_singleton] at hbody
    rw [hbody]
    exact ⟨chosenPattern, toPattern_chosenBody _ _,
      Positions.checkSubwordFor_eq_ok (by decide +kernel) (by decide +kernel),
      Positions.encard_discovered_le (by decide +kernel)⟩
  refine ⟨hparse, hdefines, hplain, valid, hvalid,
    (plain_definition_takes_effect_iff hparse hvalid hdefines hplain).1.mpr ?_⟩
  -- the only definition that mentions the name is in sight, since no definition mentions its own name
  rintro ⟨mentioned, -, ⟨hpredefined, -⟩ | ⟨hhidden, -, body, hbody, hmem⟩⟩
  · exact absurd hpredefined (by decide)
  · have hroot : mentioned = "W" := by
      simp only [chosenValue, List.mem_cons, reduceCtorEq, Statement.definition.injEq, true_and,
        List.not_mem_nil, or_false, false_or] at hbody
      rcases hbody with ⟨rfl, -⟩ | ⟨-, rfl⟩
      · rfl
      · simp [Expr.references] at hmem
    refine hhidden ⟨mentioned, ⟨⟨body, hbody⟩, ?_⟩, .refl⟩
    rintro other ⟨body', hbody', hmem'⟩
    simp only [chosenValue, List.mem_cons, reduceCtorEq, Statement.definition.injEq, true_and,
      List.not_mem_nil, or_false, false_or] at hbody'
    rcases hbody' with ⟨-, rfl⟩ | ⟨-, rfl⟩ <;>
      simp [Expr.references, Expr.referencesAll, hroot] at hmem'

/-- The grammar of `cmd <PATH>; <PATH> ::= foo;`. -/
def definedPath : Grammar := ⟨[
  .call "cmd" (.reference "PATH" 0 (some ⟨0, 4, 10⟩)),
  .definition "PATH" none (.literal "foo" none 0 (some ⟨0, 23, 26⟩))]⟩

/-- A name that is specialized from the start is left in place, although it is defined plainly. -/
theorem not_takes_effect_definedPath :
    Grammar.parse "cmd <PATH>; <PATH> ::= foo;" = .ok definedPath ∧
      definedPath.Defines "PATH" ∧ ¬ definedPath.Specializes "PATH" ∧
      ∃ valid, definedPath.validate .bash = .ok valid ∧ valid.Mentions "PATH" := by
  have hcommand : definedPath.command = .ok "cmd" := command_of_calls rfl
  refine ⟨by decide +kernel, by simp [Defines, definedPath],
    by simp [Specializes, definedPath], ?_⟩
  rw [validate, resolve, hcommand]
  exact ⟨_, rfl, Or.inl ⟨_, List.mem_singleton.mpr rfl, rfl⟩⟩

end Grammar

end ShellCompletion
