import ShellCompletion.Proofs.Resolutions
import ShellCompletion.Proofs.SpecializedNames

/-!
# Calls by name

What may follow the command can be defined under a name that the grammar does not use, so that the call
consists of a reference to it. Its definitions are then those of the grammar and one more, which no other
mentions, and the specialized names are the same. But the names that the call leads to now lie in sight,
so that circles of definitions come into sight that were not before, and definitions are resolved that
were not.
-/

namespace ShellCompletion

open Relation (ReflTransGen TransGen)

namespace Statement

/-- The statement in which a call consists of a reference to the given name. -/
def referTo (name : String) (span : Option Span) : Statement → Statement
  | .call head _ => .call head (.reference name 0 span)
  | .definition other shell body => .definition other shell body

/-- The names of nonterminals in a statement. -/
def names : Statement → List String
  | .call _ body => body.references
  | .definition name _ body => name :: body.references

/-- Naming the call leaves the definitions as they are. -/
theorem referTo_eq_definition {name other : String} {span : Option Span} {shell : Option String}
    {body : Expr} {s : Statement} :
    s.referTo name span = .definition other shell body ↔ s = .definition other shell body := by
  cases s <;> simp [referTo]

end Statement

namespace Grammar

/-- The grammar with a definition, at the given place, of what may follow the command, and with references
to it in the calls. -/
def named (g : Grammar) (name : String) (span : Option Span) (place : ℕ) : Grammar :=
  ⟨(g.statements.take place ++ .definition name none g.body :: g.statements.drop place).map
    (.referTo name span)⟩

/-- Whether a name is used nowhere in a grammar and is not specialized from the start. -/
structure Fresh (g : Grammar) (name : String) : Prop where
  unused : ∀ s ∈ g.statements, name ∉ s.names
  notPredefined : name ∉ predefined.map Prod.fst

variable {g : Grammar} {name : String} {span : Option Span} {place : ℕ}

/-! ### The statements -/

/-- A statement that is put in somewhere is one more. -/
theorem perm_insert_statement (g : Grammar) (s : Statement) (place : ℕ) :
    (g.statements.take place ++ s :: g.statements.drop place).Perm (s :: g.statements) := by
  conv_rhs => rw [← List.take_append_drop place g.statements]
  exact List.perm_middle

/-- The definitions are those of the grammar and the one of the new name. -/
theorem definition_mem_named {other : String} {shell : Option String} {body : Expr} :
    Statement.definition other shell body ∈ (g.named name span place).statements ↔
      Statement.definition other shell body ∈ g.statements ∨
        (other = name ∧ shell = none ∧ body = g.body) := by
  rw [named, List.mem_map]
  simp only [Statement.referTo_eq_definition, exists_eq_right, (g.perm_insert_statement _ place).mem_iff,
    List.mem_cons, Statement.definition.injEq]
  exact or_comm

/-- A grammar whose call is named has the calls of the grammar, with a reference in each. -/
theorem calls_named : (g.named name span place).calls =
    g.calls.map fun call => (call.1, .reference name 0 span) := by
  have hreferTo : ∀ statements : List Statement,
      (Grammar.calls ⟨statements.map (.referTo name span)⟩) =
        (Grammar.calls ⟨statements⟩).map fun call => (call.1, .reference name 0 span) := by
    intro statements
    induction statements with
    | nil => rfl
    | cons s statements ih =>
      cases s with
      | call head body => exact congrArg (List.cons _) ih
      | definition => exact ih
  have hskip : Grammar.calls ⟨g.statements.take place ++ .definition name none g.body ::
      g.statements.drop place⟩ = g.calls := by
    conv_rhs => rw [calls, ← List.take_append_drop place g.statements, List.filterMap_append]
    rw [calls, List.filterMap_append]
    rfl
  rw [named, hreferTo, hskip]

section

variable {head : String} {e : Expr} (hcalls : g.calls = [(head, e)])

include hcalls

theorem calls_named_of_calls :
    (g.named name span place).calls = [(head, .reference name 0 span)] := by
  rw [calls_named, hcalls, List.map_singleton]

theorem command_named : (g.named name span place).command = .ok head :=
  command_of_calls (calls_named_of_calls hcalls)

theorem body_named : (g.named name span place).body = .reference name 0 span := by
  rw [body, calls_named_of_calls hcalls]

theorem body_of_calls : g.body = e := by rw [body, hcalls]

/-- The single call is a statement of the grammar. -/
theorem single_call_mem : Statement.call head e ∈ g.statements :=
  call_mem_statements (by simp [hcalls])

/-- A new name is not mentioned in the call. -/
theorem Fresh.not_mem_body (hfresh : g.Fresh name) : name ∉ g.body.references := by
  rw [body_of_calls hcalls]
  exact hfresh.unused _ (single_call_mem hcalls)

/-- A grammar without gaps is without gaps when its call is named. -/
theorem filled_named (hfilled : ∀ s ∈ g.statements, s.body.Filled True) (name : String)
    (span : Option Span) (place : ℕ) : ∀ s ∈ (g.named name span place).statements, s.body.Filled True := by
  intro s hs
  cases s with
  | call other body =>
    have hmem : (other, body) ∈ (g.named name span place).calls :=
      List.mem_filterMap.mpr ⟨_, hs, rfl⟩
    rw [calls_named_of_calls hcalls, List.mem_singleton] at hmem
    cases hmem
    exact .reference ..
  | definition other shell body =>
    rcases definition_mem_named.mp hs with hold | ⟨-, -, rfl⟩
    · exact hfilled _ hold
    · have hbody := hfilled _ (single_call_mem hcalls)
      rw [← body_of_calls hcalls] at hbody
      exact hbody

end

/-! ### Definitions and specialized names -/

/-- The plainly defined names are those of the grammar and the new one. -/
theorem plainNames_named :
    (g.named name span place).plainNames.Perm (name :: g.plainNames) := by
  have hreferTo : Statement.plainName? ∘ Statement.referTo name span = Statement.plainName? := by
    funext s
    cases s <;> rfl
  rw [plainNames, named, List.filterMap_map, hreferTo]
  exact (g.perm_insert_statement _ place).filterMap Statement.plainName?

section

variable (hfresh : g.Fresh name)

include hfresh

/-- A new name is not defined. -/
theorem Fresh.not_defined {shell : Option String} {body : Expr} :
    Statement.definition name shell body ∉ g.statements :=
  fun hmem => hfresh.unused _ hmem (by simp [Statement.names])

/-- No name depends on a new one. -/
theorem Fresh.not_dependsOn (other : String) : ¬ g.DependsOn other name := by
  rintro ⟨body, hbody, hmentioned⟩
  exact hfresh.unused _ hbody (by simp [Statement.names, hmentioned])

/-- A new name is no second definition. -/
theorem Fresh.nodup_plainNames_named_iff :
    (g.named name span place).plainNames.Nodup ↔ g.plainNames.Nodup := by
  rw [plainNames_named.nodup_iff, List.nodup_cons, and_iff_right]
  intro hmem
  obtain ⟨s, hs, hname⟩ := List.mem_filterMap.mp hmem
  cases s with
  | call => cases hname
  | definition other shell body =>
    cases shell with
    | none =>
      cases hname
      exact hfresh.not_defined hs
    | some => cases hname

/-- The definitions are found in both forms, or a name is defined twice in both. -/
theorem Fresh.definitions_named_cases (span : Option Span) (place : ℕ) :
    (∃ definitions definitions', g.definitions = .ok definitions ∧
      (g.named name span place).definitions = .ok definitions') ∨
    ∃ repeated repeated', g.definitions = reject (.duplicateDefinition repeated none) ∧
      (g.named name span place).definitions = reject (.duplicateDefinition repeated' none) := by
  rcases g.definitions_cases with ⟨hnames, definitions, hfound⟩ | ⟨hnames, repeated, hfound⟩ <;>
  rcases (g.named name span place).definitions_cases with
    ⟨hnames', definitions', hfound'⟩ | ⟨hnames', repeated', hfound'⟩
  · exact Or.inl ⟨definitions, definitions', hfound, hfound'⟩
  · exact (hnames' (hfresh.nodup_plainNames_named_iff.mpr hnames)).elim
  · exact (hnames (hfresh.nodup_plainNames_named_iff.mp hnames')).elim
  · exact Or.inr ⟨repeated, repeated', hfound, hfound'⟩

/-- The plain definitions of a grammar whose call is named: those of the grammar, and the one of the new
name. -/
theorem Fresh.get?_definitions_named {definitions definitions' : Definitions}
    (hdefinitions : g.definitions = .ok definitions)
    (hdefinitions' : (g.named name span place).definitions = .ok definitions') (other : String) :
    definitions'.get? other =
      if other = name then some g.body.distributed else definitions.get? other := by
  refine Option.ext fun body => ?_
  rw [get?_definitions hdefinitions']
  simp only [definition_mem_named]
  split
  · next hother =>
    rw [hother, Option.some.injEq]
    constructor
    · rintro ⟨written, hwritten | ⟨-, -, rfl⟩, rfl⟩
      · exact (hfresh.not_defined hwritten).elim
      · rfl
    · rintro rfl
      exact ⟨g.body, Or.inr (by simp), rfl⟩
  · next hother =>
    rw [get?_definitions hdefinitions]
    simp only [hother, false_and, or_false]

end

/-- A fold over the statements that does not look into calls comes to the same when the call is named, if
the new definition changes nothing. -/
theorem same_foldlM_named {β : Type} {f : β → Statement → Result β} {P : β → Prop}
    (hcall : ∀ b head body body', f b (.call head body) = f b (.call head body'))
    (hskip : ∀ b, P b → f b (.definition name none g.body) = .ok b)
    (hP : ∀ b, ∀ s ∈ g.statements, ∀ c, P b → f b s = .ok c → P c) {b : β} (hb : P b) :
    Result.Same P ((g.named name span place).statements.foldlM f b) (g.statements.foldlM f b) := by
  have hreferTo : (fun b s => f b (Statement.referTo name span s)) = f := by
    funext b s
    cases s with
    | call head body => exact hcall b head _ body
    | definition => rfl
  constructor
  · rw [named, List.foldlM_map, hreferTo]
    exact Result.foldlM_insert hskip hP place hb
  · intro c hc
    exact Result.foldlM_preserves hc hb hP

/-- Naming the call does not change the specialized names, and the new name is none of them. -/
theorem Fresh.specializations_named (hfresh : g.Fresh name) (span : Option Span) (place : ℕ) :
    Result.Same (fun specializations => specializations.get? name = none)
      (g.named name span place).specializations g.specializations := by
  have hother : ∀ {other shell body}, Statement.definition other shell body ∈ g.statements →
      name ≠ other := by
    rintro other shell body hmem rfl
    exact hfresh.not_defined hmem
  refine (same_foldlM_named (P := fun found => found.get? name = none) (fun _ _ _ _ => rfl)
    (fun _ _ => rfl) ?_ rfl).bind fun found hfound =>
    (same_foldlM_named (P := fun found => found.get? name = none) (fun _ _ _ _ => rfl)
      ?_ ?_ hfound).bind fun found hfound => ⟨rfl, ?_⟩
  · intro found s hs next hfound hnext
    split at hnext
    · rw [get?_addShellDefinition hnext (hother hs), hfound]
    · cases hnext
      exact hfound
  · intro found hfound
    change addGenericDefinition found name g.body = .ok found
    rw [addGenericDefinition, hfound]
  · intro found s hs next hfound hnext
    split at hnext
    · rw [get?_addGenericDefinition hnext (hother hs), hfound]
    · cases hnext
      exact hfound
  · intro specializations hspecializations
    rw [← Except.ok.inj hspecializations]
    rw [OrderedMap.get?_foldl_insertNew, hfound, Option.none_or, List.lookup_eq_none_iff]
    intro entry hentry
    rw [bne_iff_ne]
    rintro rfl
    exact hfresh.notPredefined (List.mem_map_of_mem hentry)

/-! ### Names in sight -/

/-- The new name depends on those that the call mentions, and all other dependencies stay. -/
theorem dependsOn_named {other mentioned : String} :
    (g.named name span place).DependsOn other mentioned ↔
      g.DependsOn other mentioned ∨ (other = name ∧ mentioned ∈ g.body.references) := by
  simp only [DependsOn, definition_mem_named]
  constructor
  · rintro ⟨body, hbody | ⟨hother, -, rfl⟩, hmentioned⟩
    · exact Or.inl ⟨body, hbody, hmentioned⟩
    · exact Or.inr ⟨hother, hmentioned⟩
  · rintro (⟨body, hbody, hmentioned⟩ | ⟨hother, hmentioned⟩)
    · exact ⟨body, Or.inl hbody, hmentioned⟩
    · exact ⟨g.body, Or.inr ⟨hother, trivial, rfl⟩, hmentioned⟩

/-- What a name leads to, it still leads to if the call is named. -/
theorem reflTransGen_named_of {start other : String} (h : ReflTransGen g.DependsOn start other) :
    ReflTransGen (g.named name span place).DependsOn start other :=
  ReflTransGen.mono (fun _ _ hdepends => dependsOn_named.mpr (Or.inl hdepends)) start other h

/-- The defined names are those of the grammar and the new one. -/
theorem defines_named {other : String} :
    (g.named name span place).Defines other ↔ g.Defines other ∨ other = name := by
  simp only [Defines, definition_mem_named]
  constructor
  · rintro ⟨body, hbody | ⟨hother, -⟩⟩
    · exact Or.inl ⟨body, hbody⟩
    · exact Or.inr hother
  · rintro (⟨body, hbody⟩ | hother)
    · exact ⟨body, Or.inl hbody⟩
    · exact ⟨g.body, Or.inr ⟨hother, trivial, rfl⟩⟩

/-- Whether plain definitions lead to a name from one that none of them mentions, or the calls lead to
it. -/
def InReach (g : Grammar) (other : String) : Prop := g.InSight other ∨ g.Called other

/-- What is in reach leads to what is in reach. -/
theorem InReach.step {other mentioned : String} (h : g.InReach other)
    (hmentioned : g.DependsOn other mentioned) : g.InReach mentioned := by
  rcases h with ⟨root, hroot, hreach⟩ | ⟨first, hfirst, hreach⟩
  · exact Or.inl ⟨root, hroot, hreach.tail hmentioned⟩
  · exact Or.inr ⟨first, hfirst, hreach.tail hmentioned⟩

section

variable {head : String} {e : Expr} (hcalls : g.calls = [(head, e)]) (hfresh : g.Fresh name)

include hcalls hfresh

/-- No name depends on the new one, also if the call is named. -/
theorem Fresh.not_dependsOn_named (other : String) :
    ¬ (g.named name span place).DependsOn other name := by
  rw [dependsOn_named]
  rintro (hdepends | ⟨-, hmentioned⟩)
  · exact hfresh.not_dependsOn other hdepends
  · exact hfresh.not_mem_body hcalls hmentioned

/-- Names that are depended on are not the new one. -/
theorem Fresh.ne_of_dependsOn_named {other mentioned : String}
    (h : (g.named name span place).DependsOn other mentioned) : mentioned ≠ name := by
  rintro rfl
  exact hfresh.not_dependsOn_named hcalls other h

/-- Ways through the definitions that do not begin with the new name are those of the grammar. -/
theorem Fresh.reflTransGen_named {start other : String} (hstart : start ≠ name) :
    ReflTransGen (g.named name span place).DependsOn start other ↔
      ReflTransGen g.DependsOn start other := by
  constructor
  · intro h
    suffices hway : ReflTransGen g.DependsOn start other ∧ other ≠ name from hway.1
    induction h with
    | refl => exact ⟨.refl, hstart⟩
    | tail _ hlast ih =>
      exact ⟨ih.1.tail ((dependsOn_named.mp hlast).resolve_right fun h => ih.2 h.1),
        hfresh.ne_of_dependsOn_named hcalls hlast⟩
  · exact reflTransGen_named_of

/-- Other names than the new one lead to the same names in both forms. -/
theorem Fresh.transGen_named {start other : String} (hstart : start ≠ name) :
    TransGen (g.named name span place).DependsOn start other ↔ TransGen g.DependsOn start other := by
  rw [TransGen.head'_iff, TransGen.head'_iff]
  refine exists_congr fun next => ?_
  constructor
  · rintro ⟨hnext, hreach⟩
    have hnext' := hfresh.ne_of_dependsOn_named hcalls hnext
    exact ⟨(dependsOn_named.mp hnext).resolve_right fun h => hstart h.1,
      (hfresh.reflTransGen_named hcalls hnext').mp hreach⟩
  · rintro ⟨hnext, hreach⟩
    exact ⟨dependsOn_named.mpr (Or.inl hnext), reflTransGen_named_of hreach⟩

/-- The new name is not in reach. -/
theorem Fresh.ne_of_inReach {other : String} (h : g.InReach other) : other ≠ name := by
  rintro rfl
  rcases h with ⟨root, hroot, hreach⟩ | ⟨first, hfirst, hreach⟩
  · rcases hreach.cases_tail with rfl | ⟨last, -, hlast⟩
    · exact hfresh.not_defined hroot.1.choose_spec
    · exact hfresh.not_dependsOn last hlast
  · rcases hreach.cases_tail with rfl | ⟨last, -, hlast⟩
    · exact hfresh.not_mem_body hcalls hfirst
    · exact hfresh.not_dependsOn last hlast

/-- The new name is not mentioned in any definition. -/
theorem Fresh.unmentioned_named : (g.named name span place).Unmentioned name :=
  ⟨defines_named.mpr (Or.inr rfl), hfresh.not_dependsOn_named hcalls⟩

/-- If the call is named, its names come into sight. -/
theorem Fresh.inSight_named_iff {other : String} :
    (g.named name span place).InSight other ↔ other = name ∨ g.InReach other := by
  constructor
  · rintro ⟨root, hroot, hreach⟩
    by_cases hname : root = name
    · rw [hname] at hreach
      rcases hreach.cases_head with heq | ⟨first, hfirst, hreach⟩
      · exact Or.inl heq.symm
      · rw [hfresh.reflTransGen_named hcalls (hfresh.ne_of_dependsOn_named hcalls hfirst)] at hreach
        rcases dependsOn_named.mp hfirst with hold | ⟨-, hmentioned⟩
        · exact (hfresh.not_defined hold.choose_spec.1).elim
        · exact Or.inr (Or.inr ⟨first, hmentioned, hreach⟩)
    · rw [hfresh.reflTransGen_named hcalls hname] at hreach
      refine Or.inr (Or.inl ⟨root, ⟨?_, fun last hlast => ?_⟩, hreach⟩)
      · exact (defines_named.mp hroot.1).resolve_right hname
      · exact hroot.2 last (dependsOn_named.mpr (Or.inl hlast))
  · have hcalled : ∀ {first other}, first ∈ g.body.references →
        ReflTransGen g.DependsOn first other → (g.named name span place).InSight other := by
      intro first other hfirst hreach
      refine ⟨name, hfresh.unmentioned_named hcalls, .head (b := first) ?_ ?_⟩
      · exact dependsOn_named.mpr (Or.inr ⟨rfl, hfirst⟩)
      · exact reflTransGen_named_of hreach
    rintro (rfl | ⟨root, hroot, hreach⟩ | ⟨first, hfirst, hreach⟩)
    · exact ⟨other, hfresh.unmentioned_named hcalls, .refl⟩
    · by_cases hmentioned : root ∈ g.body.references
      · exact hcalled hmentioned hreach
      · refine ⟨root, ⟨defines_named.mpr (Or.inl hroot.1), fun last hlast => ?_⟩, ?_⟩
        · rcases dependsOn_named.mp hlast with hold | ⟨-, hnew⟩
          exacts [hroot.2 last hold, hmentioned hnew]
        · exact reflTransGen_named_of hreach
    · exact hcalled hfirst hreach

/-- If the call is named, all that it leads to is in sight. -/
theorem Fresh.inSight_of_called_named {other : String} (h : (g.named name span place).Called other) :
    (g.named name span place).InSight other := by
  obtain ⟨first, hfirst, hreach⟩ := h
  rw [body_named hcalls, Expr.references, List.mem_singleton] at hfirst
  rw [hfirst] at hreach
  exact ⟨name, hfresh.unmentioned_named hcalls, hreach⟩

/-- If the call is named, the circles that can be reached are in sight. -/
theorem Fresh.circleInSight_named_iff : (g.named name span place).CircleInSight ↔
    ∃ other, g.InReach other ∧ TransGen g.DependsOn other other := by
  constructor
  · rintro (⟨-, hnone⟩ | ⟨other, hsight, hcircle⟩)
    · exact (hnone name (hfresh.unmentioned_named hcalls)).elim
    · rcases (hfresh.inSight_named_iff hcalls).mp hsight with rfl | hreach
      · obtain ⟨last, -, hlast⟩ := TransGen.tail'_iff.mp hcircle
        exact (hfresh.not_dependsOn_named hcalls last hlast).elim
      · exact ⟨other, hreach,
          (hfresh.transGen_named hcalls (hfresh.ne_of_inReach hcalls hreach)).mp hcircle⟩
  · rintro ⟨other, hreach, hcircle⟩
    exact Or.inr ⟨other, (hfresh.inSight_named_iff hcalls).mpr (Or.inr hreach),
      (hfresh.transGen_named hcalls (hfresh.ne_of_inReach hcalls hreach)).mpr hcircle⟩

end

/-! ### Resolved definitions -/

section

variable {head : String} {e : Expr} (hcalls : g.calls = [(head, e)]) (hfresh : g.Fresh name)
  (r : g.Resolution) (r' : (g.named name span place).Resolution) (specializations : Specializations)

include hcalls hfresh

/-- The definition of the new name is resolved. -/
theorem Fresh.get?_final_named_self :
    (r'.final specializations).get? name =
      some (g.body.distributed.substitute (r'.replacement? specializations)) := by
  rw [Resolution.get?_final_of_inSight ((hfresh.inSight_named_iff hcalls).mpr (Or.inl rfl)),
    (get?_definitions r'.definitions_eq).mpr
      ⟨g.body, definition_mem_named.mpr (Or.inr ⟨rfl, rfl, rfl⟩), rfl⟩]
  rfl

/-- The definitions in reach are resolved if the call is named. -/
theorem Fresh.get?_final_named {other : String} (hreach : g.InReach other) :
    (r'.final specializations).get? other =
      (r.definitions.get? other).map (Expr.substitute (r'.replacement? specializations)) := by
  rw [Resolution.get?_final_of_inSight ((hfresh.inSight_named_iff hcalls).mpr (Or.inr hreach)),
    hfresh.get?_definitions_named r.definitions_eq r'.definitions_eq,
    if_neg (hfresh.ne_of_inReach hcalls hreach)]

/-- A definition in sight is resolved to the same whether the call is named or not. -/
theorem Fresh.get?_final_of_inSight {other : String} (hsight : g.InSight other) :
    (r.final specializations).get? other = (r'.final specializations).get? other := by
  have hnamed : ∀ {other}, g.InReach other → r.definitions.get? other = none →
      (r.final specializations).get? other = (r'.final specializations).get? other := by
    intro other hreach hnone
    rw [Resolution.get?_final_eq_none_iff.mpr hnone,
      hfresh.get?_final_named hcalls r r' specializations hreach, hnone]
    rfl
  have hsame : ∀ other ∈ r.names,
      (r.final specializations).get? other = (r'.final specializations).get? other := by
    refine r.resolves.ordered.induction fun other hother hbefore => ?_
    obtain ⟨-, hsight⟩ := Resolution.mem_names_iff.mp hother
    have hreach : g.InReach other := Or.inl hsight
    rw [Resolution.get?_final_of_inSight hsight,
      hfresh.get?_final_named hcalls r r' specializations hreach]
    refine Option.map_congr fun body hbody => Expr.substitute_congr fun mentioned hmentioned => ?_
    have hmentioned' : (r.final specializations).get? mentioned =
        (r'.final specializations).get? mentioned := by
      rcases Definitions.get?_eq_none_or_edge hbody hmentioned with hnone | hedge
      · exact hnamed (hreach.step (Resolution.dependsOn_of_get? hbody hmentioned)) hnone
      · exact hbefore mentioned hedge
    rw [Resolution.replacement?, Resolution.replacement?, Definitions.replacement?,
      Definitions.replacement?, hmentioned']
  cases hbody : r.definitions.get? other with
  | none => exact hnamed (Or.inl hsight) hbody
  | some body =>
    exact hsame other (Resolution.mem_names_iff.mpr ⟨Resolution.defines_of_get? hbody, hsight⟩)

/-- What is found for a name that the calls lead to becomes its resolved definition when the references in
it are replaced. -/
theorem Fresh.get?_final_of_called {other : String} (hcalled : g.Called other) :
    (r'.final specializations).get? other =
      ((r.final specializations).get? other).map
        (Expr.substitute (r'.replacement? specializations)) := by
  have hreach : g.InReach other := Or.inr hcalled
  have hmade := hfresh.get?_final_named hcalls r r' specializations hreach
  by_cases hsight : g.InSight other
  · -- the definition is resolved already
    rw [hfresh.get?_final_of_inSight hcalls r r' specializations hsight, hmade, Option.map_map]
    refine Option.map_congr fun body hbody => ?_
    refine (Resolution.substitute_substitute fun mentioned hmentioned => ?_).symm
    exact (hfresh.inSight_named_iff hcalls).mpr
      (Or.inr (hreach.step (Resolution.dependsOn_of_get? hbody hmentioned)))
  · rw [Resolution.get?_final_of_not_inSight hsight, hmade]

/-- Unless the call mentions a name whose definition is not resolved, the same is put in the place of its
references whether it is named or not. -/
theorem Fresh.replacement?_of_mem_body {other : String} (hother : other ∈ g.body.references)
    (hresolved : ¬ g.MentionsUnresolved specializations) :
    r.replacement? specializations other = r'.replacement? specializations other := by
  have hcalled : g.InReach other := Or.inr ⟨other, hother, .refl⟩
  rw [Resolution.replacement?, Resolution.replacement?, Definitions.replacement?,
    Definitions.replacement?]
  split
  · rfl
  · next hplain =>
    by_cases hsight : g.InSight other
    · exact hfresh.get?_final_of_inSight hcalls r r' specializations hsight
    · rw [Resolution.get?_final_of_not_inSight hsight,
        hfresh.get?_final_named hcalls r r' specializations hcalled]
      cases hbody : r.definitions.get? other with
      | none => rfl
      | some body =>
        refine congrArg some (Expr.substitute_eq_self fun mentioned hmentioned => ?_).symm
        obtain ⟨written, hwritten, rfl⟩ := (get?_definitions r.definitions_eq).mp hbody
        rw [Resolution.replacement?_eq_none_iff]
        rintro body' ⟨hbody', hplain'⟩
        rcases definition_mem_named.mp hbody' with hold | ⟨hnew, -⟩
        · rw [Expr.references_distributed] at hmentioned
          exact hresolved ⟨other, hother, hsight, written,
            ⟨hwritten, Bool.eq_false_of_not_eq_true hplain⟩, mentioned, hmentioned, body', hold, hplain'⟩
        · refine hfresh.ne_of_inReach hcalls (hcalled.step ?_) hnew
          exact Resolution.dependsOn_of_get? hbody hmentioned

end

end Grammar

end ShellCompletion
