import ShellCompletion.Data.NatSet
import ShellCompletion.Failure
import ShellCompletion.Pattern.Positions

/-!
# Checks on the positions of a pattern

Three checks walk from the first positions to the following ones and stop at the first violation. On
words, at most one ambiguous input may stand in a set of positions; inside a word, nothing may come
beside or after an ambiguous input; and no literal may be offered with two descriptions. Each check
looks at those positions of a set that were not visited before.
-/

namespace ShellCompletion.Positions

/-- Walk over the sets of following positions, depth first. The given function looks at the positions
of a set that are new, and hands a value on to the sets that follow them. Along a path every position
is new, so a depth above the number of positions is never reached. -/
def walk {σ : Type} (p : Positions Input) (look : σ → List Nat → Result σ) :
    Nat → σ → NatSet → NatSet → Result NatSet
  | 0, _, _, visited => .ok visited
  | depth + 1, handed, set, visited => do
    let new := (set.diff visited).toList
    if new.isEmpty then return visited
    let handed ← look handed new
    new.foldlM (fun visited n =>
      if (p.follow n).isEmpty then .ok visited
      else walk p look depth handed (p.follow n) (visited.insert n)) visited

/-- Walk over all positions that can be reached. -/
def walkAll {σ : Type} (p : Positions Input) (look : σ → List Nat → Result σ) (handed : σ) :
    Result Unit := do
  let _ ← walk p look (p.stop + 1) handed p.first (.singleton p.stop)

/-- The inputs at the given positions. -/
def inputsAt (p : Positions Input) (ns : List Nat) : List Input :=
  ns.filterMap fun n => p.symbols[n]?

/-- Reject two ambiguous inputs among those that may come next. -/
def refuseTwoAmbiguous (shell : Shell) : List Input → Result Unit
  | [] => .ok ()
  | input :: inputs =>
    if input.isAmbiguous shell then
      match inputs.find? (·.isAmbiguous shell) with
      | some other => reject (.ambiguousInputs input other)
      | none => .ok ()
    else refuseTwoAmbiguous shell inputs

/-- Among the words that may come next, at most one is ambiguous. -/
def checkWords (p : Positions Input) (shell : Shell) : Result Unit :=
  p.walkAll (fun () new => refuseTwoAmbiguous shell (p.inputsAt new)) ()

/-- Reject an input that stands behind an ambiguous one in the list, and tell the ambiguous one. -/
def refuseAfterAmbiguous (shell : Shell) : List Input → Result (Option Input)
  | [] => .ok none
  | input :: inputs =>
    if input.isAmbiguous shell then
      match inputs with
      | [] => .ok (some input)
      | other :: _ => reject (.ambiguousInputs input other)
    else refuseAfterAmbiguous shell inputs

/-- Inside a word, where an ambiguous input has no recognizable end, no input may come after one. -/
def checkSubword (p : Positions Input) (shell : Shell) : Result Unit :=
  p.walkAll (fun (before : Option Input) new =>
    match before, p.inputsAt new with
    | some input, other :: _ => reject (.ambiguousInputs input other)
    | some input, [] => .ok (some input)
    | none, inputs => refuseAfterAmbiguous shell inputs) none

/-- A literal as it is offered: its text and description, with its place. -/
structure Variant where
  /-- The text. -/
  text : String
  /-- The description. -/
  description : Option String
  /-- The place where the literal was written. -/
  span : Option Span

/-- The literals among inputs. -/
def variants (inputs : List Input) : List Variant :=
  inputs.filterMap fun
    | .literal text description _ span => some ⟨text, description, span⟩
    | _ => none

/-- Keep the first of neighbours that agree in text and description. -/
def dropRepeats : List Variant → List Variant
  | [] => []
  | v :: vs =>
    match dropRepeats vs with
    | [] => [v]
    | w :: ws => if v.text = w.text ∧ v.description = w.description then v :: ws else v :: w :: ws

/-- Reject neighbours that agree in text and differ in description. -/
def refuseClash : List Variant → Result Unit
  | v :: w :: vs =>
    if v.text = w.text ∧ v.description ≠ w.description then reject (.clashingVariants v.span w.span)
    else refuseClash (w :: vs)
  | _ => .ok ()

/-- No literal that may come next is offered with two descriptions. -/
def checkVariants (p : Positions Input) : Result Unit :=
  p.walkAll (fun () new =>
    let sorted := (variants (p.inputsAt new)).mergeSort fun v w => v.text ≤ w.text
    refuseClash (dropRepeats sorted)) ()

end ShellCompletion.Positions
