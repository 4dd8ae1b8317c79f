import ShellCompletion.Proofs.ResolutionOrder
import ShellCompletion.Proofs.Validation

/-!
# Circles of definitions

A grammar whose plain definitions form a circle is to be rejected. The circle is found exactly if it can
be reached from a defined name that no definition mentions, or if every defined name is mentioned. A
circle that is not found does no harm unless the calls lead into it: then the check for touching
literals unfolds it for ever, if it does not meet a pair that fails before.
-/

namespace ShellCompletion

open Relation (ReflTransGen TransGen)
open Result (Endless FailsWithin failsWithin_error failsWithin_ok)

/-! ### The graph of definitions -/

namespace Definitions

variable (definitions : Definitions)

theorem keys_dependencyList : (definitions.entries.map fun d =>
    (d.1, d.2.references.filter definitions.contains)).map Prod.fst = definitions.keys := by
  rw [List.map_map]
  rfl

/-- The graph has the defined names. -/
theorem keys_dependencies : definitions.dependencies.keys = definitions.keys := by
  have hnodup : definitions.keys.Nodup := definitions.nodup
  rw [← keys_dependencyList] at hnodup
  rw [OrderedMap.keys, dependencies, OrderedMap.entries_ofList hnodup, keys_dependencyList]

/-- A name depends on the defined names that its definition mentions. -/
theorem edge_dependencies {name other : String} : definitions.dependencies.Edge name other ↔
    ∃ body, definitions.get? name = some body ∧ other ∈ body.references ∧
      other ∈ definitions.keys := by
  have hnodup : definitions.keys.Nodup := definitions.nodup
  rw [← keys_dependencyList] at hnodup
  rw [Dependencies.edge_iff, dependencies, OrderedMap.entries_ofList hnodup]
  constructor
  · rintro ⟨entry, hentry, rfl, hother⟩
    obtain ⟨d, hd, rfl⟩ := List.mem_map.mp hentry
    obtain ⟨hmentioned, hdefined⟩ := List.mem_filter.mp hother
    exact ⟨d.2, (definitions.mem_entries_iff d.1 d.2).mp hd, hmentioned,
      (definitions.contains_iff other).mp hdefined⟩
  · rintro ⟨body, hbody, hmentioned, hdefined⟩
    refine ⟨_, List.mem_map_of_mem ((definitions.mem_entries_iff name body).mpr hbody), rfl, ?_⟩
    exact List.mem_filter.mpr ⟨hmentioned, (definitions.contains_iff other).mpr hdefined⟩

/-- All names that are depended on in the graph are defined. -/
theorem closed_dependencies : definitions.dependencies.Closed := by
  intro name other hedge
  obtain ⟨body, -, -, hother⟩ := definitions.edge_dependencies.mp hedge
  rw [keys_dependencies]
  exact hother

end Definitions

namespace Dependencies

variable {graph : Dependencies}

/-- A name that depends on another one is a name of the graph. -/
theorem Edge.mem_keys {name other : String} (h : graph.Edge name other) : name ∈ graph.keys := by
  obtain ⟨entry, hentry, rfl, -⟩ := (edge_iff name other).mp h
  exact List.mem_map_of_mem hentry

/-- Without a circle every name of a graph is in sight. -/
theorem inSight_of_acyclic (hacyclic : ∀ name, ¬ TransGen graph.Edge name name) {name : String}
    (hname : name ∈ graph.keys) : graph.InSight name := by
  obtain ⟨rank, hbound, hrank⟩ := exists_rank graph.Edge graph.keys
  -- names that depend on each other have greater and greater ranks, up to one on which none depends
  induction hgap : graph.keys.length - rank name using Nat.strong_induction_on generalizing name with
  | h gap ih =>
    by_cases hroot : graph.Root name
    · exact ⟨name, hroot, .refl⟩
    · obtain ⟨other, hother⟩ : ∃ other, graph.Edge other name := by
        by_contra hnone
        exact hroot ⟨hname, not_exists.mp hnone⟩
      have hlower := hrank other name hname (.single hother) (hacyclic name)
      have hupper := hbound other hother.mem_keys (hacyclic other)
      obtain ⟨root, hroot, hreach⟩ := ih _ (by omega) hother.mem_keys rfl
      exact ⟨root, hroot, hreach.tail hother⟩

end Dependencies

namespace Grammar

variable (g : Grammar)

/-- Whether a name has a plain definition. -/
def Defines (name : String) : Prop := ∃ body, Statement.definition name none body ∈ g.statements

/-- Whether a name has a plain definition and no plain definition mentions it. -/
def Unmentioned (name : String) : Prop := g.Defines name ∧ ∀ other, ¬ g.DependsOn other name

/-- Whether plain definitions lead to a name from one that none of them mentions. -/
def InSight (name : String) : Prop :=
  ∃ root, g.Unmentioned root ∧ ReflTransGen g.DependsOn root name

/-- Whether there are plain definitions and each of their names is mentioned in one, or a circle of them
is in sight. -/
def CircleInSight : Prop :=
  ((∃ name, g.Defines name) ∧ ∀ name, ¬ g.Unmentioned name) ∨
    ∃ name, g.InSight name ∧ TransGen g.DependsOn name name

variable {g}

/-- A name that depends on another one is defined. -/
theorem DependsOn.defines {name other : String} (h : g.DependsOn name other) : g.Defines name := by
  obtain ⟨body, hbody, -⟩ := h
  exact ⟨body, hbody⟩

section

variable {definitions : Definitions} (hdefinitions : g.definitions = .ok definitions)

include hdefinitions

/-- The plain definitions that are found are those that are written. -/
theorem get?_definitions {name : String} {body : Expr} : definitions.get? name = some body ↔
    ∃ written, Statement.definition name none written ∈ g.statements ∧
      body = written.distributed := by
  constructor
  · exact exists_statement hdefinitions
  · have hcases : (∃ found : Definitions, g.definitions = .ok found ∧ ∀ name written,
        Statement.definition name none written ∈ g.statements →
          found.get? name = some written.distributed) ∨
        ∃ e, g.definitions = .error e ∧ True := by
      apply Result.foldlM_cases (P := fun before (found : Definitions) => ∀ name written,
        Statement.definition name none written ∈ before → found.get? name = some written.distributed)
      · simp
      · intro before statement behind found _ hfound
        split
        · next other body =>
          split
          · exact Or.inr ⟨_, rfl, trivial⟩
          · next hnew =>
            refine Or.inl ⟨_, rfl, ?_⟩
            intro name written hwritten
            rw [OrderedMap.get?_insert]
            rcases List.mem_append.mp hwritten with hwritten | hwritten
            · have hold := hfound name written hwritten
              rw [if_neg, hold]
              rintro rfl
              exact hnew (by simp [OrderedMap.contains, hold])
            · cases List.mem_singleton.mp hwritten
              rw [if_pos rfl]
        · next hother =>
          refine Or.inl ⟨_, rfl, ?_⟩
          intro name written hwritten
          rcases List.mem_append.mp hwritten with hwritten | hwritten
          · exact hfound name written hwritten
          · exact (hother name written (List.mem_singleton.mp hwritten).symm).elim
    rintro ⟨written, hwritten, rfl⟩
    rcases hcases with ⟨found, hok, hfound⟩ | ⟨e, herror, -⟩
    · rw [hdefinitions] at hok
      cases hok
      exact hfound name written hwritten
    · rw [hdefinitions] at herror
      cases herror

/-- Definitions are found for the names that are defined. -/
theorem mem_keys_iff_defines (name : String) : name ∈ definitions.keys ↔ g.Defines name := by
  rw [definitions.mem_keys_iff]
  constructor
  · rintro ⟨body, hbody⟩
    obtain ⟨written, hwritten, -⟩ := (get?_definitions hdefinitions).mp hbody
    exact ⟨written, hwritten⟩
  · rintro ⟨written, hwritten⟩
    exact ⟨_, (get?_definitions hdefinitions).mpr ⟨written, hwritten, rfl⟩⟩

/-- The edges of the graph are the dependencies on defined names. -/
theorem edge_iff_dependsOn (name other : String) :
    definitions.dependencies.Edge name other ↔ g.DependsOn name other ∧ g.Defines other := by
  rw [Definitions.edge_dependencies]
  constructor
  · rintro ⟨body, hbody, hmentioned, hdefined⟩
    obtain ⟨written, hwritten, rfl⟩ := (get?_definitions hdefinitions).mp hbody
    rw [Expr.references_distributed] at hmentioned
    exact ⟨⟨written, hwritten, hmentioned⟩, (mem_keys_iff_defines hdefinitions other).mp hdefined⟩
  · rintro ⟨⟨written, hwritten, hmentioned⟩, hdefined⟩
    refine ⟨_, (get?_definitions hdefinitions).mpr ⟨written, hwritten, rfl⟩, ?_,
      (mem_keys_iff_defines hdefinitions other).mpr hdefined⟩
    rw [Expr.references_distributed]
    exact hmentioned

/-- A way through definitions that ends in a defined name leads through defined names only. -/
theorem reflTransGen_edge_iff {name other : String} (hother : g.Defines other) :
    ReflTransGen definitions.dependencies.Edge name other ↔
      ReflTransGen g.DependsOn name other := by
  constructor
  · intro h
    exact ReflTransGen.mono (fun a b hedge => ((edge_iff_dependsOn hdefinitions a b).mp hedge).1)
      name other h
  · intro h
    induction h with
    | refl => exact .refl
    | tail _ hlast ih =>
      exact (ih hlast.defines).tail ((edge_iff_dependsOn hdefinitions _ _).mpr ⟨hlast, hother⟩)

/-- Between defined names the graph leads where the dependencies lead. -/
theorem transGen_edge_iff {name other : String} (hother : g.Defines other) :
    TransGen definitions.dependencies.Edge name other ↔ TransGen g.DependsOn name other := by
  rw [TransGen.tail'_iff, TransGen.tail'_iff]
  refine exists_congr fun last => ?_
  rw [edge_iff_dependsOn hdefinitions]
  constructor
  · rintro ⟨hreach, hlast, -⟩
    exact ⟨(reflTransGen_edge_iff hdefinitions hlast.defines).mp hreach, hlast⟩
  · rintro ⟨hreach, hlast⟩
    exact ⟨(reflTransGen_edge_iff hdefinitions hlast.defines).mpr hreach, hlast, hother⟩

/-- The search starts from the defined names that no definition mentions. -/
theorem root_iff (name : String) : definitions.dependencies.Root name ↔ g.Unmentioned name := by
  rw [Dependencies.Root, Definitions.keys_dependencies, mem_keys_iff_defines hdefinitions, Unmentioned]
  refine and_congr_right fun hname => forall_congr' fun other => ?_
  rw [edge_iff_dependsOn hdefinitions, and_iff_left hname]

/-- What is in sight in the graph is in sight in the grammar. -/
theorem inSight_iff {name : String} (hname : g.Defines name) :
    definitions.dependencies.InSight name ↔ g.InSight name := by
  simp only [Dependencies.InSight, InSight, root_iff hdefinitions,
    reflTransGen_edge_iff hdefinitions hname]

/-- A circle is in sight in the graph exactly if one is in sight in the grammar. -/
theorem circleInSight_iff : definitions.dependencies.CircleInSight ↔ g.CircleInSight := by
  refine or_congr ?_ ?_
  · simp only [Definitions.keys_dependencies, mem_keys_iff_defines hdefinitions,
      root_iff hdefinitions]
  · refine exists_congr fun name => ?_
    constructor
    · rintro ⟨hsight, hcircle⟩
      obtain ⟨other, hedge, -⟩ := TransGen.head'_iff.mp hcircle
      have hname := ((edge_iff_dependsOn hdefinitions name other).mp hedge).1.defines
      exact ⟨(inSight_iff hdefinitions hname).mp hsight,
        (transGen_edge_iff hdefinitions hname).mp hcircle⟩
    · rintro ⟨hsight, hcircle⟩
      obtain ⟨other, hdepends, -⟩ := TransGen.head'_iff.mp hcircle
      exact ⟨(inSight_iff hdefinitions hdepends.defines).mpr hsight,
        (transGen_edge_iff hdefinitions hdepends.defines).mpr hcircle⟩

/-- Without a circle every defined name is in sight. -/
theorem Acyclic.inSight (hacyclic : g.Acyclic) {name : String} (hname : g.Defines name) :
    g.InSight name := by
  have hgraph : ∀ other, ¬ TransGen definitions.dependencies.Edge other other := by
    intro other hcircle
    obtain ⟨next, hedge, -⟩ := TransGen.head'_iff.mp hcircle
    have hother := ((edge_iff_dependsOn hdefinitions other next).mp hedge).1.defines
    exact hacyclic other ((transGen_edge_iff hdefinitions hother).mp hcircle)
  have hkey : name ∈ definitions.dependencies.keys := by
    rw [Definitions.keys_dependencies, mem_keys_iff_defines hdefinitions]
    exact hname
  exact (inSight_iff hdefinitions hname).mp
    (Dependencies.inSight_of_acyclic hgraph hkey)

/-- Where a circle is in sight, there is a circle. -/
theorem CircleInSight.not_acyclic (h : g.CircleInSight) : ¬ g.Acyclic := by
  intro hacyclic
  rcases h with ⟨⟨name, hname⟩, hnone⟩ | ⟨name, -, hcircle⟩
  · obtain ⟨root, hroot, -⟩ := hacyclic.inSight hdefinitions hname
    exact hnone root hroot
  · exact hacyclic name hcircle

end

end Grammar

/-! ### Failures behind the order of resolution -/

/-- Whether a computation comes to an end, with a value, a rejection or a fault that is none of going on
for ever. -/
def Result.Ends {α : Type} (x : Result α) : Prop :=
  x ≠ giveUp .endlessUnfolding ∧ x ≠ giveUp .endlessRefinement

/-- The failures that the check for touching literals and the compilation of subwords have: touching
literals, inputs that cannot be told apart, and faults other than refinement without end. -/
inductive LateFailure : Failure → Prop
  | adjacent (first second : Option Span) (trace : List Span) :
    LateFailure (.rejected (.adjacentLiterals first second trace))
  | inputs {e : Failure} (he : Positions.InputFailure e) : LateFailure e
  | fault {f : Fault} (hf : f ≠ .endlessRefinement) : LateFailure (.fault f)

/-- The failures that the compilation of subwords has: inputs that cannot be told apart, and too many
states. -/
inductive SubwordFailure : Failure → Prop
  | inputs {e : Failure} (he : Positions.InputFailure e) : SubwordFailure e
  | tooManyStates : SubwordFailure (.fault .tooManyStates)

theorem SubwordFailure.late {e : Failure} (h : SubwordFailure e) : LateFailure e := by
  cases h with
  | inputs he => exact .inputs he
  | tooManyStates => exact .fault (by decide)

/-- A circle is found before the definitions are resolved. -/
theorem LateFailure.ne_definitionCycle {e : Failure} (h : LateFailure e) :
    e ≠ .rejected .definitionCycle := by
  rintro rfl
  cases h with
  | inputs he => cases he

theorem LateFailure.ne_endlessRefinement {e : Failure} (h : LateFailure e) :
    e ≠ .fault .endlessRefinement := by
  rintro rfl
  cases h with
  | inputs he => cases he
  | fault hf => exact hf rfl

namespace Expr

/-- Looking for the first literal of an item fails late if at all. -/
theorem failsWithin_head (e : Expr) : FailsWithin LateFailure e.head := by
  induction e with
  | sequence items ih =>
    cases items with
    | nil => exact failsWithin_error (.fault (by decide))
    | cons e es => exact ih e (by simp)
  | described => exact failsWithin_error (.fault (by decide))
  | subword => exact failsWithin_error (.fault (by decide))
  | _ => exact failsWithin_ok _

theorem failsWithin_tail (e : Expr) : FailsWithin LateFailure e.tail := by
  cases e with
  | sequence items =>
    rw [tail]
    split
    · exact failsWithin_head _
    · exact failsWithin_error (.fault (by decide))
  | _ => exact failsWithin_head _

/-- The check of neighbours fails late if at all. -/
theorem failsWithin_refuseTouching (trace : List Span) (items : List Expr) :
    FailsWithin LateFailure (refuseTouching trace items) := by
  induction items with
  | nil => exact failsWithin_ok ()
  | cons left items ih =>
    cases items with
    | nil => exact failsWithin_ok ()
    | cons right others =>
      rw [refuseTouching]
      refine left.failsWithin_tail.bind fun l _ => right.failsWithin_head.bind fun r _ => ?_
      split
      · exact failsWithin_error (.adjacent _ _ _)
      · exact ih

/-- The check for touching literals fails late if the unfolding of references does. -/
theorem failsWithin_checkTouching {unfold : String → Bool → List Span → Result Unit}
    (hunfold : ∀ name inWord trace, FailsWithin LateFailure (unfold name inWord trace)) (e : Expr)
    (inWord : Bool) (trace : List Span) :
    FailsWithin LateFailure (e.checkTouching unfold inWord trace) := by
  have hall : ∀ (es : List Expr) (inWord : Bool),
      (∀ e ∈ es, FailsWithin LateFailure (e.checkTouching unfold inWord trace)) →
      FailsWithin LateFailure (checkTouchingAll unfold inWord trace es) := by
    intro es inWord hes
    induction es with
    | nil => exact failsWithin_ok ()
    | cons e es ih => exact (hes e (by simp)).bind fun _ _ => ih fun x hx => hes x (by simp [hx])
  induction e generalizing inWord with
  | literal => exact failsWithin_ok ()
  | reference name level span => exact hunfold name inWord _
  | command => exact failsWithin_ok ()
  | sequence items ih =>
    refine (hall items inWord fun e he => ih e he inWord).bind fun _ _ => ?_
    split
    · exact failsWithin_refuseTouching trace items
    · exact failsWithin_ok ()
  | alternative branches ih => exact hall branches inWord fun e he => ih e he inWord
  | fallback branches ih => exact hall branches inWord fun e he => ih e he inWord
  | optional item ih => exact ih inWord
  | repeated item ih => exact ih inWord
  | described => exact failsWithin_error (.fault (by decide))
  | subword body level span ih => exact ih true

end Expr

/-- The check for touching literals fails late if at all, however deep it goes. -/
theorem Definitions.failsWithin_checkTouching (definitions : Definitions) (depth : ℕ) (e : Expr)
    (inWord : Bool) (trace : List Span) :
    FailsWithin LateFailure (definitions.checkTouching depth e inWord trace) := by
  induction depth generalizing e inWord trace with
  | zero =>
    refine Expr.failsWithin_checkTouching (fun name _ _ => ?_) e inWord trace
    split
    · exact failsWithin_error (.fault (by decide))
    · exact failsWithin_ok ()
  | succ depth ih =>
    refine Expr.failsWithin_checkTouching (fun name inWord trace => ?_) e inWord trace
    split
    · exact ih _ inWord trace
    · exact failsWithin_ok ()

/-- Compiling an expression fails for its subwords only. -/
theorem Expr.Filled.failsWithin_toPattern {e : Expr} (h : e.Filled False)
    (hflat : ∀ body ∈ e.subwordBodies, body.subwordBodies = []) (shell : Shell)
    (specializations : Specializations) (s : Interner Input) :
    FailsWithin SubwordFailure
      (e.toPattern (Positions.checkSubwordFor shell) specializations s) := by
  intro failure hfailure
  rw [← Result.verdict_eq_error, h.verdict_toPattern hflat s, Result.forM_eq_error] at hfailure
  obtain ⟨before, body, after, hbodies, -, hbody⟩ := hfailure
  have hmem : body ∈ e.subwordBodies := by simp [hbodies]
  obtain ⟨q, -, hcompile, hends⟩ :=
    (h.of_mem_subwordBodies hmem).compileSubword_cases (hflat body hmem)
  rw [hcompile, Result.bind_eq_error] at hbody
  rcases hbody with hcheck | ⟨⟨⟩, -, hautomaton⟩
  · exact .inputs (Positions.failsWithin_checkSubwordFor shell q.positions failure hcheck)
  · rcases hends with ⟨-, hok⟩ | ⟨-, hmany⟩
    · rw [hok] at hautomaton
      cases hautomaton
    · rw [hmany] at hautomaton
      cases hautomaton
      exact .tooManyStates

namespace Grammar

variable {g : Grammar}

/-- Whether the check for touching literals goes on for ever: in every depth it comes to a reference that
is still to be unfolded before it comes to a pair that fails. -/
def UnfoldsForever (g : Grammar) : Prop :=
  ∃ definitions, g.unfolding = .ok definitions ∧
    ∀ depth, Endless (definitions.checkTouching depth g.body.distributed false [])

section

variable {command : String} (hcommand : g.command = .ok command)
  {definitions : Definitions} (hdefinitions : g.definitions = .ok definitions)
  {specializations : Specializations} (hspecializations : g.specializations = .ok specializations)

include hcommand hdefinitions hspecializations

/-- Resolving a grammar with a command, definitions and specialized names begins with their order. -/
theorem resolve_eq_bind : ∃ rest : List String → Result ResolvedGrammar,
    g.resolve = definitions.dependencies.resolutionOrder >>= rest ∧
      ∀ order, FailsWithin LateFailure (rest order) := by
  refine ⟨_, by rw [resolve, hcommand, Result.ok_bind, hdefinitions, Result.ok_bind,
    hspecializations, Result.ok_bind], fun order => ?_⟩
  exact (Definitions.failsWithin_checkTouching _ _ _ _ _).bind fun _ _ => failsWithin_ok _

/-- A grammar is rejected for a circle of definitions exactly if one is in sight. Otherwise its
validation fails late if at all. -/
theorem validate_cases (hfilled : ∀ s ∈ g.statements, s.body.Filled True) (shell : Shell) :
    (g.validate shell = reject .definitionCycle ∧ g.CircleInSight) ∨
      (FailsWithin LateFailure (g.validate shell) ∧ ¬ g.CircleInSight) := by
  obtain ⟨rest, hresolve, hrest⟩ := resolve_eq_bind hcommand hdefinitions hspecializations
  rw [← circleInSight_iff hdefinitions]
  rcases Dependencies.resolutionOrder_cases definitions.closed_dependencies with
    ⟨hcycle, hsight⟩ | ⟨names, order, horder, -, hsight⟩
  · rw [validate, hresolve, hcycle]
    exact Or.inl ⟨rfl, hsight⟩
  · rw [horder, Result.ok_bind] at hresolve
    rw [validate, hresolve]
    refine Or.inr ⟨(hrest order).bind fun resolved hresolved => ?_, hsight⟩
    rw [← hresolve] at hresolved
    refine FailsWithin.bind ?_ fun _ _ => failsWithin_ok _
    exact ((filled_resolved hfilled hresolved).flattenSubwords.failsWithin_toPattern
      (fun body => Expr.flat_of_mem_flattenSubwords) shell _ _).mono fun _ => SubwordFailure.late

end

/-- A validation unfolds definitions beyond every depth exactly if the check for touching literals goes
on for ever. -/
theorem validate_eq_endlessUnfolding_iff (hfilled : ∀ s ∈ g.statements, s.body.Filled True)
    (shell : Shell) : g.validate shell = giveUp .endlessUnfolding ↔ g.UnfoldsForever := by
  constructor
  · intro h
    rcases Result.bind_eq_error.mp h with h | ⟨resolved, hresolved, h⟩
    · obtain ⟨definitions, hunfolding, hcheck⟩ := resolve_eq_fault_iff.mp h
      exact ⟨definitions, hunfolding, Definitions.endless_iff_forall.mp hcheck⟩
    · rcases Result.bind_eq_error.mp h with h | ⟨_, -, h⟩
      · have hmany := ((filled_resolved hfilled hresolved).flattenSubwords.toPattern_eq_fault_iff
          (fun body => Expr.flat_of_mem_flattenSubwords)
          (Positions.faultless_checkSubwordFor shell)).mp h
        cases hmany.1
      · cases h
  · rintro ⟨definitions, hunfolding, hforever⟩
    have hresolve := resolve_eq_fault_iff.mpr ⟨definitions, hunfolding, hforever _⟩
    rw [validate, hresolve]
    rfl

/-- A grammar with a command, definitions and specialized names is validated in finitely many steps and
rejected for a circle exactly if there is one, if it has none or one that is in sight, and not otherwise:
it is rejected exactly for a circle in sight. Validation goes on for ever exactly if the check for
touching literals does. -/
theorem circles_rejected_iff {text : String} (hparse : Grammar.parse text = .ok g) {command : String}
    (hcommand : g.command = .ok command) {definitions : Definitions}
    (hdefinitions : g.definitions = .ok definitions) {specializations : Specializations}
    (hspecializations : g.specializations = .ok specializations) (shell : Shell) :
    ((g.validate shell).Ends ∧ (g.validate shell = reject .definitionCycle ↔ ¬ g.Acyclic) ↔
        g.Acyclic ∨ g.CircleInSight) ∧
      (g.validate shell = reject .definitionCycle ↔ g.CircleInSight) ∧
      ((g.validate shell).Ends ↔ ¬ g.UnfoldsForever) := by
  have hfilled := filled_of_parse hparse
  have hendless := validate_eq_endlessUnfolding_iff hfilled shell
  have hcircle : g.CircleInSight → ¬ g.Acyclic := CircleInSight.not_acyclic hdefinitions
  rcases validate_cases hcommand hdefinitions hspecializations hfilled shell with
    ⟨hcycle, hsight⟩ | ⟨hlate, hsight⟩
  · have hends : (g.validate shell).Ends := by
      rw [hcycle]
      exact ⟨by simp [reject, giveUp], by simp [reject, giveUp]⟩
    refine ⟨iff_of_true ⟨hends, ?_⟩ (Or.inr hsight), iff_of_true hcycle hsight, ?_⟩
    · exact iff_of_true hcycle (hcircle hsight)
    · exact iff_of_true hends fun hforever => hends.1 (hendless.mpr hforever)
  · have hcycle : g.validate shell ≠ reject .definitionCycle := fun h =>
      (hlate _ h).ne_definitionCycle rfl
    have hends : (g.validate shell).Ends ↔ ¬ g.UnfoldsForever := by
      rw [Result.Ends, Ne, hendless]
      exact and_iff_left fun h => (hlate _ h).ne_endlessRefinement rfl
    refine ⟨⟨?_, ?_⟩, iff_of_false hcycle hsight, hends⟩
    · rintro ⟨-, hexact⟩
      by_contra hnone
      exact hcycle (hexact.mpr fun hacyclic => hnone (Or.inl hacyclic))
    · intro h
      have hacyclic := h.resolve_right hsight
      refine ⟨hends.mpr fun hforever => ?_, iff_of_false hcycle (not_not.mpr hacyclic)⟩
      rcases (validate_eq_fault_iff hfilled hacyclic shell).mp (hendless.mpr hforever) with
        ⟨hfault, -⟩ | ⟨hfault, -⟩
      · cases hfault
      · cases hfault

/-- The grammar of `cmd <R>; <R> ::= a <A>; <A> ::= x<B>; <B> ::= [<A>];`. -/
def reachedCircle : Grammar := ⟨[
  .call "cmd" (.reference "R" 0 (some ⟨0, 4, 7⟩)),
  .definition "R" none (.sequence [.literal "a" none 0 (some ⟨0, 17, 18⟩),
    .reference "A" 0 (some ⟨0, 19, 22⟩)]),
  .definition "A" none (.subword (.sequence [.literal "x" none 0 (some ⟨0, 32, 33⟩),
    .reference "B" 0 (some ⟨0, 33, 36⟩)]) 0 (some ⟨0, 32, 36⟩)),
  .definition "B" none (.optional (.reference "A" 0 (some ⟨0, 47, 50⟩)))]⟩

theorem circleInSight_reachedCircle : reachedCircle.CircleInSight := by
  have hR : reachedCircle.DependsOn "R" "A" := ⟨_, by simp [reachedCircle]; rfl, by decide⟩
  have hA : reachedCircle.DependsOn "A" "B" := ⟨_, by simp [reachedCircle]; rfl, by decide⟩
  have hB : reachedCircle.DependsOn "B" "A" := ⟨_, by simp [reachedCircle]; rfl, by decide⟩
  refine Or.inr ⟨"A", ⟨"R", ⟨hR.defines, ?_⟩, .single hR⟩, (TransGen.single hA).tail hB⟩
  rintro other ⟨body, hbody, hmentioned⟩
  simp only [reachedCircle, List.mem_cons, reduceCtorEq, Statement.definition.injEq, true_and,
    List.not_mem_nil, or_false, false_or] at hbody
  rcases hbody with ⟨rfl, rfl⟩ | ⟨rfl, rfl⟩ | ⟨rfl, rfl⟩ <;>
    simp [Expr.references, Expr.referencesAll] at hmentioned

/-- A circle that a call leads to is rejected. -/
theorem circles_rejected_reachedCircle :
    Grammar.parse "cmd <R>; <R> ::= a <A>; <A> ::= x<B>; <B> ::= [<A>];" = .ok reachedCircle ∧
      reachedCircle.validate .bash = reject .definitionCycle := by
  have hparse : Grammar.parse "cmd <R>; <R> ::= a <A>; <A> ::= x<B>; <B> ::= [<A>];" =
      .ok reachedCircle := by decide +kernel
  have hcommand : reachedCircle.command = .ok "cmd" := command_of_calls rfl
  refine ⟨hparse, ?_⟩
  exact (circles_rejected_iff hparse hcommand rfl rfl .bash).2.1.mpr circleInSight_reachedCircle

/-- The grammar of `cmd foo; <A> ::= <A>; <B> ::= x;`. -/
def hiddenCircle : Grammar := ⟨[
  .call "cmd" (.literal "foo" none 0 (some ⟨0, 4, 7⟩)),
  .definition "A" none (.reference "A" 0 (some ⟨0, 17, 20⟩)),
  .definition "B" none (.literal "x" none 0 (some ⟨0, 30, 31⟩))]⟩

/-- A circle that no name outside of it leads to is accepted if there is another definition. -/
theorem circles_rejected_hiddenCircle :
    Grammar.parse "cmd foo; <A> ::= <A>; <B> ::= x;" = .ok hiddenCircle ∧
      hiddenCircle.command = .ok "cmd" ∧ (∃ definitions, hiddenCircle.definitions = .ok definitions) ∧
      (∃ specializations, hiddenCircle.specializations = .ok specializations) ∧
      ¬ hiddenCircle.Acyclic ∧ ∃ valid, hiddenCircle.validate .bash = .ok valid := by
  have hcommand : hiddenCircle.command = .ok "cmd" := command_of_calls rfl
  refine ⟨by decide +kernel, hcommand, ⟨_, rfl⟩, ⟨_, rfl⟩, ?_, ?_⟩
  · intro hacyclic
    exact hacyclic "A" (.single ⟨_, by simp [hiddenCircle]; rfl, by decide⟩)
  · rw [validate, resolve, hcommand]
    exact ⟨_, rfl⟩

end Grammar

end ShellCompletion
