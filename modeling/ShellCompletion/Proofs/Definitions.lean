import Mathlib.Data.Finset.Card
import Mathlib.Data.Finset.Filter
import Mathlib.Logic.Relation
import ShellCompletion.Grammar.Valid
import ShellCompletion.Proofs.Collections
import ShellCompletion.Proofs.Expressions
import ShellCompletion.Proofs.Results

/-!
# Definitions and what they depend on

Resolution replaces references by definitions, so a resolved definition mentions only names that the
original one depends on, in one or more steps. If no definition depends on itself, names can be ranked:
each one is above those that it depends on.
-/

namespace ShellCompletion

namespace Expr

/-- Distributing a description along a sequence leaves the names that it mentions. -/
theorem referencesAll_distributeAlong {es : List Expr}
    (hes : ∀ e ∈ es, ∀ handed, (e.distribute handed).1.references = e.references)
    (handed : Option String) :
    referencesAll (distributeAlong handed es).1 = referencesAll es := by
  induction es generalizing handed with
  | nil => rfl
  | cons e es ih =>
    have hfirst := hes e (by simp) handed
    have hothers := ih (fun x hx => hes x (by simp [hx])) (e.distribute handed).2
    rw [distributeAlong, referencesAll, referencesAll, hfirst, hothers]

/-- Distributing descriptions keeps the names that occur. -/
theorem references_distribute (e : Expr) (handed : Option String) :
    (e.distribute handed).1.references = e.references := by
  induction e generalizing handed with
  | literal text description => cases description <;> rfl
  | reference => rfl
  | command => rfl
  | sequence items ih => exact referencesAll_distributeAlong ih handed
  | alternative branches ih =>
    rw [distribute, references, references, distributeEach_eq_map, referencesAll_eq_flatMap,
      referencesAll_eq_flatMap, List.flatMap_map]
    exact List.flatMap_congr fun e he => ih e he handed
  | fallback branches ih => exact referencesAll_distributeAlong ih handed
  | optional item ih => exact ih handed
  | repeated item ih => exact ih handed
  | described item description ih => exact ih (some description)
  | subword body level span ih => exact ih handed

/-- Distributing descriptions leaves the names that an expression mentions. -/
theorem references_distributed (e : Expr) : e.distributed.references = e.references :=
  e.references_distribute none

/-- The names that a reference leaves behind when references are replaced: those of its replacement,
or its own. -/
def leftBy (replacement : String → Option Expr) (name : String) : List String :=
  match replacement name with
  | some body => body.references
  | none => [name]

/-- The names left by a replacement are those of the replaced definitions and those not replaced. -/
theorem references_substitute (replacement : String → Option Expr) (e : Expr) :
    (e.substitute replacement).references = e.references.flatMap (leftBy replacement) := by
  have hall : ∀ es : List Expr,
      (∀ e ∈ es, (e.substitute replacement).references = e.references.flatMap (leftBy replacement)) →
      referencesAll (substituteAll replacement es) =
        (referencesAll es).flatMap (leftBy replacement) := by
    intro es hes
    rw [substituteAll_eq_map, referencesAll_eq_flatMap, referencesAll_eq_flatMap, List.flatMap_map,
      List.flatMap_assoc]
    exact List.flatMap_congr hes
  induction e with
  | literal => rfl
  | reference name level span =>
    rw [substitute, references, List.flatMap_singleton, leftBy]
    cases replacement name <;> rfl
  | command => rfl
  | sequence items ih => exact hall items ih
  | alternative branches ih => exact hall branches ih
  | fallback branches ih => exact hall branches ih
  | optional item ih => exact ih
  | repeated item ih => exact ih
  | described item description ih => exact ih
  | subword body level span ih => exact ih

/-- What is put in the place of names that do not occur does not matter. -/
theorem substitute_congr {replacement replacement' : String → Option Expr} {e : Expr}
    (h : ∀ name ∈ e.references, replacement name = replacement' name) :
    e.substitute replacement = e.substitute replacement' := by
  have hall : ∀ es : List Expr,
      (∀ e ∈ es, (∀ name ∈ e.references, replacement name = replacement' name) →
        e.substitute replacement = e.substitute replacement') →
      (∀ name ∈ referencesAll es, replacement name = replacement' name) →
      substituteAll replacement es = substituteAll replacement' es := by
    intro es hes hnames
    rw [substituteAll_eq_map, substituteAll_eq_map]
    exact List.map_congr_left fun e he =>
      hes e he fun name hname => hnames name (mem_referencesAll.mpr ⟨e, he, hname⟩)
  induction e with
  | literal => rfl
  | reference name level span => rw [substitute, substitute, h name (by simp [references])]
  | command => rfl
  | sequence items ih => rw [substitute, substitute, hall items ih h]
  | alternative branches ih => rw [substitute, substitute, hall branches ih h]
  | fallback branches ih => rw [substitute, substitute, hall branches ih h]
  | optional item ih => rw [substitute, substitute, ih h]
  | repeated item ih => rw [substitute, substitute, ih h]
  | described item description ih => rw [substitute, substitute, ih h]
  | subword body level span ih => rw [substitute, substitute, ih h]

/-- Replacing nothing changes nothing. -/
theorem substitute_none (e : Expr) : e.substitute (fun _ => none) = e := by
  have hall : ∀ es : List Expr, (∀ e ∈ es, e.substitute (fun _ => none) = e) →
      substituteAll (fun _ => none) es = es := by
    intro es hes
    rw [substituteAll_eq_map]
    exact (List.map_congr_left hes).trans es.map_id
  induction e with
  | sequence items ih => rw [substitute, hall items ih]
  | alternative branches ih => rw [substitute, hall branches ih]
  | fallback branches ih => rw [substitute, hall branches ih]
  | optional item ih => rw [substitute, ih]
  | repeated item ih => rw [substitute, ih]
  | described item description ih => rw [substitute, ih]
  | subword body level span ih => rw [substitute, ih]
  | _ => rfl

/-- An expression in which nothing is replaced stays as it is. -/
theorem substitute_eq_self {replacement : String → Option Expr} {e : Expr}
    (h : ∀ name ∈ e.references, replacement name = none) : e.substitute replacement = e :=
  (substitute_congr h).trans e.substitute_none

end Expr

namespace Definitions

variable {definitions : Definitions} {specializations : Specializations}

/-- What stands for a name is its definition. -/
theorem get?_of_replacement? {name : String} {body : Expr}
    (h : definitions.replacement? specializations name = some body) :
    definitions.get? name = some body := by
  unfold replacement? at h
  split at h
  · cases h
  · exact h

/-- What holds of all definitions and of every definition that is resolved by means of such ones holds
of the resolved definitions. -/
theorem resolve_induction {P : String → Expr → Prop} (order : List String)
    (hstart : ∀ name body, definitions.get? name = some body → P name body)
    (hstep : ∀ (current : Definitions) name body,
      (∀ name body, current.get? name = some body → P name body) →
      current.get? name = some body →
      P name (body.substitute (current.replacement? specializations))) :
    ∀ name body, (definitions.resolve specializations order).get? name = some body → P name body := by
  unfold resolve
  induction order generalizing definitions with
  | nil => exact hstart
  | cons first order ih =>
    rw [List.foldl_cons]
    apply ih
    intro name body hbody
    cases hfirst : definitions.get? first with
    | none =>
      simp only [hfirst] at hbody
      exact hstart name body hbody
    | some old =>
      simp only [hfirst, OrderedMap.get?_insert] at hbody
      split at hbody
      · next hname =>
        cases hbody
        rw [hname]
        exact hstep definitions first old hstart hfirst
      · exact hstart name body hbody

end Definitions

/-- Names can be ranked below the number of the given names in such a way that those without a circle of
dependencies are above all that they depend on. -/
theorem exists_rank (depends : String → String → Prop) (names : List String) :
    ∃ rank : String → ℕ,
      (∀ name ∈ names, ¬ Relation.TransGen depends name name → rank name < names.length) ∧
      ∀ name, ∀ other ∈ names, Relation.TransGen depends name other →
        ¬ Relation.TransGen depends other other → rank other < rank name := by
  classical
  -- the rank of a name is the number of given names that it depends on
  let below (name : String) : Finset String :=
    names.toFinset.filter fun other => Relation.TransGen depends name other
  refine ⟨fun name => (below name).card, ?_, ?_⟩
  · intro name hname hcircle
    have hlt : (below name).card < names.toFinset.card := by
      apply Finset.card_lt_card
      rw [Finset.ssubset_iff_of_subset (Finset.filter_subset _ _)]
      exact ⟨name, by simpa using hname, by simp [hcircle]⟩
    exact hlt.trans_le names.toFinset_card_le
  · intro name other hother hdepends hcircle
    apply Finset.card_lt_card
    rw [Finset.ssubset_iff_of_subset]
    · exact ⟨other, by simp [below, hother, hdepends], by simp [below, hcircle]⟩
    · intro x hx
      simp only [below, Finset.mem_filter] at hx ⊢
      exact ⟨hx.1, hdepends.trans hx.2⟩

/-- A relation that goes down in a ranking of the names has no circle. -/
theorem not_circle_of_rank {depends : String → String → Prop} (rank : String → ℕ)
    (h : ∀ name other, depends name other → rank other < rank name) (name : String) :
    ¬ Relation.TransGen depends name name := by
  intro hcircle
  have hdown : ∀ other, Relation.TransGen depends name other → rank other < rank name := by
    intro other hother
    induction hother with
    | single hdirect => exact h name _ hdirect
    | tail _ hdirect ih => exact (h _ _ hdirect).trans ih
  exact (hdown name hcircle).false

namespace Definitions

variable (definitions : Definitions)

/-- Whether the definition of the first name mentions the second one. -/
def DependsOn (name other : String) : Prop :=
  ∃ body, definitions.get? name = some body ∧ other ∈ body.references

/-- Whether no definition depends on itself, directly or through others. -/
def Acyclic : Prop := ∀ name, ¬ Relation.TransGen definitions.DependsOn name name

variable {definitions} in
/-- If no definition depends on itself, names can be ranked below the number of definitions in such a way
that those which a definition mentions are below its own. -/
theorem Acyclic.exists_rank (hacyclic : definitions.Acyclic) :
    ∃ rank : String → ℕ,
      (∀ name, definitions.contains name = true → rank name < definitions.size) ∧
      ∀ name body, definitions.get? name = some body → ∀ other ∈ body.references,
        definitions.contains other = true → rank other < rank name := by
  obtain ⟨rank, hbound, hlower⟩ := ShellCompletion.exists_rank definitions.DependsOn definitions.keys
  refine ⟨rank, ?_, ?_⟩
  · intro name hdefined
    have hlt := hbound name ((definitions.contains_iff name).mp hdefined) (hacyclic name)
    rwa [OrderedMap.keys, List.length_map] at hlt
  · intro name body hbody other hother hdefined
    exact hlower name other ((definitions.contains_iff other).mp hdefined) (.single ⟨body, hbody, hother⟩)
      (hacyclic other)

end Definitions

namespace Grammar

variable (g : Grammar)

/-- Whether a plain definition of the first name mentions the second one. -/
def DependsOn (name other : String) : Prop :=
  ∃ body, Statement.definition name none body ∈ g.statements ∧ other ∈ body.references

/-- Whether no plain definition depends on itself, directly or through others. -/
def Acyclic : Prop := ∀ name, ¬ Relation.TransGen g.DependsOn name name

/-- Whether the calls lead to a name. -/
def Called (name : String) : Prop :=
  ∃ mentioned ∈ g.body.references, Relation.ReflTransGen g.DependsOn mentioned name

variable {g}

/-- Dependencies that go down in a ranking of the names have no circle. -/
theorem acyclic_of_rank (rank : String → ℕ)
    (h : ∀ name other, g.DependsOn name other → rank other < rank name) : g.Acyclic :=
  not_circle_of_rank rank h

/-- Names that lead into no circle can be ranked so that each one ranks above those it leads to. -/
theorem exists_rank (g : Grammar) (names : List String) :
    ∃ rank : String → ℕ,
      (∀ name ∈ names, ¬ Relation.TransGen g.DependsOn name name → rank name < names.length) ∧
      ∀ name, ∀ other ∈ names, Relation.TransGen g.DependsOn name other →
        ¬ Relation.TransGen g.DependsOn other other → rank other < rank name :=
  ShellCompletion.exists_rank g.DependsOn names

/-- Every plain definition is written in the grammar. -/
theorem exists_statement {definitions : Definitions} (h : g.definitions = .ok definitions)
    {name : String} {body : Expr} (hbody : definitions.get? name = some body) :
    ∃ written, Statement.definition name none written ∈ g.statements ∧
      body = written.distributed := by
  refine Result.foldlM_preserves (P := fun (found : Definitions) => ∀ name body,
    found.get? name = some body → ∃ written, Statement.definition name none written ∈ g.statements ∧
      body = written.distributed) h ?_ ?_ name body hbody
  · intro name body hempty
    rw [OrderedMap.get?_empty] at hempty
    cases hempty
  · intro found statement hstatement next hfound hnext name body hbody
    split at hnext
    · next other written =>
      split at hnext
      · cases hnext
      · cases hnext
        rw [OrderedMap.get?_insert] at hbody
        split at hbody
        · next hname =>
          cases hbody
          exact ⟨written, hname ▸ hstatement, rfl⟩
        · exact hfound name body hbody
    · cases hnext
      exact hfound name body hbody

/-- A resolved definition mentions only names that it depends on. -/
theorem depends_of_mem_resolve {definitions : Definitions} (h : g.definitions = .ok definitions)
    {specializations : Specializations} {order : List String} {name other : String} {body : Expr}
    (hbody : (definitions.resolve specializations order).get? name = some body)
    (hother : other ∈ body.references) : Relation.TransGen g.DependsOn name other := by
  revert name other body
  suffices hall : ∀ name body,
      (definitions.resolve specializations order).get? name = some body →
      ∀ other ∈ body.references, Relation.TransGen g.DependsOn name other by
    intro name other body hbody hother
    exact hall name body hbody other hother
  apply Definitions.resolve_induction
  · intro name body hbody other hother
    obtain ⟨written, hwritten, rfl⟩ := exists_statement h hbody
    rw [Expr.references_distributed] at hother
    exact .single ⟨written, hwritten, hother⟩
  · intro current name body hcurrent hbody other hother
    rw [Expr.references_substitute, List.mem_flatMap] at hother
    obtain ⟨mentioned, hmentioned, hother⟩ := hother
    have hname := hcurrent name body hbody mentioned hmentioned
    unfold Expr.leftBy Definitions.replacement? at hother
    split at hother
    · next replaced hreplaced =>
      split at hreplaced
      · cases hreplaced
      · exact hname.trans (hcurrent mentioned replaced hreplaced other hother)
    · rw [List.mem_singleton] at hother
      rw [hother]
      exact hname

end Grammar

end ShellCompletion
