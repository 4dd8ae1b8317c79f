import ShellCompletion.Grammar.Valid
import ShellCompletion.Proofs.Collections
import ShellCompletion.Proofs.Results

/-!
# Steps that only reject

Most steps of a validation end with a value or with a rejection that names what is wrong with the
grammar, whatever they are given: finding the command, the definitions, the specialized names and the
order of resolution, and checking the positions of a subword.
-/

namespace ShellCompletion

open Result (FailsWithin Faultless failsWithin_error failsWithin_ok faultless_ok faultless_reject)

namespace Positions

variable {σ : Type} {p : Positions Input} {look : σ → List ℕ → Result σ}

/-- A walk over positions fails only as looking at them does. -/
theorem failsWithin_walk {E : Failure → Prop} (hlook : ∀ handed new, FailsWithin E (look handed new))
    (depth : ℕ) (handed : σ) (set visited : NatSet) :
    FailsWithin E (p.walk look depth handed set visited) := by
  induction depth generalizing handed set visited with
  | zero => exact failsWithin_ok visited
  | succ depth ih =>
    rw [walk]
    split
    · exact failsWithin_ok visited
    · refine (hlook handed _).bind fun handed' _ => Result.FailsWithin.foldlM visited ?_
      intro visited' n _
      split
      · exact failsWithin_ok visited'
      · exact ih handed' (p.follow n) (visited'.insert n)

/-- A walk fails in given ways if each look does. -/
theorem failsWithin_walkAll {E : Failure → Prop}
    (hlook : ∀ handed new, FailsWithin E (look handed new)) (handed : σ) :
    FailsWithin E (p.walkAll look handed) :=
  (failsWithin_walk hlook _ handed _ _).bind fun _ _ => failsWithin_ok ()

/-- The failures for which ambiguous inputs are to blame. -/
def AmbiguityFailure (e : Failure) : Prop :=
  ∃ first second, e = .rejected (.ambiguousInputs first second)

/-- The failures for which the inputs of a pattern are to blame. -/
inductive InputFailure : Failure → Prop
  | ambiguous (first second : Input) : InputFailure (.rejected (.ambiguousInputs first second))
  | clashing (first second : Option Span) : InputFailure (.rejected (.clashingVariants first second))

/-- Looking behind ambiguous inputs fails for ambiguity only. -/
theorem failsWithin_refuseAfterAmbiguous (shell : Shell) (inputs : List Input) :
    FailsWithin AmbiguityFailure (refuseAfterAmbiguous shell inputs) := by
  induction inputs with
  | nil => exact failsWithin_ok none
  | cons input inputs ih =>
    unfold refuseAfterAmbiguous
    split
    · cases inputs with
      | nil => exact failsWithin_ok (some input)
      | cons other inputs => exact failsWithin_error ⟨input, other, rfl⟩
    · exact ih

/-- The positions of a subword are refused only for ambiguous inputs, if for no clash. -/
theorem failsWithin_checkSubword (shell : Shell) (p : Positions Input) :
    FailsWithin AmbiguityFailure (p.checkSubword shell) := by
  refine failsWithin_walkAll (fun before new => ?_) none
  split
  · exact failsWithin_error ⟨_, _, rfl⟩
  · exact failsWithin_ok _
  · exact failsWithin_refuseAfterAmbiguous shell _

/-- Looking for clashing variants fails for their inputs only. -/
theorem failsWithin_refuseClash (vs : List Variant) :
    FailsWithin InputFailure (refuseClash vs) := by
  induction vs with
  | nil => exact failsWithin_ok ()
  | cons v vs ih =>
    cases vs with
    | nil => exact failsWithin_ok ()
    | cons w vs =>
      rw [refuseClash]
      split
      · exact failsWithin_error (.clashing v.span w.span)
      · exact ih

/-- The positions of a subword are refused only for their inputs. -/
theorem failsWithin_checkSubwordFor (shell : Shell) (p : Positions Input) :
    FailsWithin InputFailure (p.checkSubwordFor shell) := by
  refine ((failsWithin_checkSubword shell p).mono ?_).bind fun _ _ => failsWithin_walkAll ?_ ()
  · rintro e ⟨first, second, rfl⟩
    exact .ambiguous first second
  · intro _ new
    exact failsWithin_refuseClash _

/-- The check of a subword has no faults. -/
theorem faultless_checkSubwordFor (shell : Shell) (p : Positions Input) :
    Faultless (p.checkSubwordFor shell) := by
  refine Result.faultless_iff.mpr ((failsWithin_checkSubwordFor shell p).mono ?_)
  intro e he f
  cases he <;> simp

end Positions

namespace Dependencies

/-- The visit of a name has no faults. -/
theorem faultless_visit (graph : Dependencies) (fuel : ℕ) (name : String) (path : List String)
    (progress : Progress) : Faultless (graph.visit fuel name path progress) := by
  induction fuel generalizing name path progress with
  | zero => exact faultless_ok progress
  | succ fuel ih =>
    rw [visit]
    refine Result.Faultless.foldlM _ fun progress' dependency _ => ?_
    split
    · exact faultless_reject _
    · split
      · exact faultless_ok progress'
      · exact (ih dependency (path ++ [dependency]) progress').bind fun _ _ => faultless_ok _

/-- If every dependency is a name of the graph, the order is found or the graph is rejected. -/
theorem faultless_resolutionOrder {graph : Dependencies}
    (h : ∀ entry ∈ graph.entries, ∀ name ∈ entry.2, graph.contains name = true) :
    Faultless graph.resolutionOrder := by
  have hroots : Faultless graph.roots := by
    rw [roots, if_pos]
    · exact faultless_ok _
    · rw [List.all_eq_true]
      intro name hname
      obtain ⟨names, hnames, hname⟩ := List.mem_flatten.mp hname
      obtain ⟨entry, hentry, rfl⟩ := List.mem_map.mp hnames
      exact h entry hentry name hname
  rw [resolutionOrder]
  split
  · exact faultless_ok []
  · refine hroots.bind fun roots _ => ?_
    split
    · exact faultless_reject _
    · refine (Result.Faultless.foldlM _ fun progress root _ => ?_).bind fun _ _ => faultless_ok _
      exact (faultless_visit graph _ root [] progress).bind fun _ _ => faultless_ok _

end Dependencies

/-- The graph of definitions has only defined names. -/
theorem Definitions.faultless_resolutionOrder (definitions : Definitions) :
    Faultless definitions.dependencies.resolutionOrder := by
  have hkeys : (definitions.entries.map fun d =>
      (d.1, d.2.references.filter definitions.contains)).map Prod.fst = definitions.keys := by
    rw [List.map_map]
    rfl
  have hnodup : definitions.keys.Nodup := definitions.nodup
  rw [← hkeys] at hnodup
  have hentries := OrderedMap.entries_ofList hnodup
  apply Dependencies.faultless_resolutionOrder
  intro entry hentry name hname
  rw [Definitions.dependencies, hentries] at hentry
  obtain ⟨d, hd, rfl⟩ := List.mem_map.mp hentry
  have hdefined := (List.mem_filter.mp hname).2
  rw [OrderedMap.contains_iff] at hdefined ⊢
  rw [Definitions.dependencies, OrderedMap.keys, hentries, hkeys]
  exact hdefined

namespace Grammar

variable (g : Grammar)

theorem faultless_command : Faultless g.command := by
  rw [command]
  split
  · exact faultless_reject _
  · exact faultless_ok _
  · exact faultless_reject _

/-- Finding the plain definitions has no faults. -/
theorem faultless_definitions : Faultless g.definitions := by
  refine Result.Faultless.foldlM _ fun definitions statement _ => ?_
  split
  · split
    · exact faultless_reject _
    · exact faultless_ok _
  · exact faultless_ok _

theorem faultless_addShellDefinition (found : Specializations) (name shell : String) (body : Expr) :
    Faultless (addShellDefinition found name shell body) := by
  unfold addShellDefinition
  split
  · split
    · exact faultless_reject _
    · dsimp only
      split
      · exact faultless_reject _
      · exact faultless_ok _
  · exact faultless_reject _

theorem faultless_addGenericDefinition (found : Specializations) (name : String) (body : Expr) :
    Faultless (addGenericDefinition found name body) := by
  unfold addGenericDefinition
  split
  · exact faultless_ok _
  · split
    · exact faultless_ok _
    · exact faultless_reject _

/-- Finding the specialized names has no faults. -/
theorem faultless_specializations : Faultless g.specializations := by
  refine (Result.Faultless.foldlM _ fun found statement _ => ?_).bind fun found _ =>
    (Result.Faultless.foldlM _ fun found statement _ => ?_).bind fun _ _ => faultless_ok _
  · split
    · exact faultless_addShellDefinition found _ _ _
    · exact faultless_ok found
  · split
    · exact faultless_addGenericDefinition found _ _
    · exact faultless_ok found

end Grammar

end ShellCompletion
