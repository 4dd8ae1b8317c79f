import ShellCompletion.Grammar.Definition

/-!
# Resolution of references

A reference to a plainly defined name is replaced by the definition, unless the name is specialized.
Definitions are resolved among themselves first, so that one replacement is enough.
-/

namespace ShellCompletion

mutual

/-- Replace references by what the given function has for their names. -/
def Expr.substitute (replacement : String → Option Expr) : Expr → Expr
  | .literal text description level span => .literal text description level span
  | .reference name level span => (replacement name).getD (.reference name level span)
  | .command text patterns level span => .command text patterns level span
  | .sequence items => .sequence (Expr.substituteAll replacement items)
  | .alternative branches => .alternative (Expr.substituteAll replacement branches)
  | .fallback branches => .fallback (Expr.substituteAll replacement branches)
  | .optional item => .optional (item.substitute replacement)
  | .repeated item => .repeated (item.substitute replacement)
  | .described item description => .described (item.substitute replacement) description
  | .subword body level span => .subword (body.substitute replacement) level span

/-- Replace references in each expression of a list. -/
def Expr.substituteAll (replacement : String → Option Expr) : List Expr → List Expr
  | [] => []
  | e :: es => e.substitute replacement :: Expr.substituteAll replacement es

end

namespace Definitions

/-- The definition that stands for a name: none if the name is specialized. -/
def replacement? (definitions : Definitions) (specializations : Specializations) (name : String) :
    Option Expr :=
  if specializations.contains name then none else definitions.get? name

/-- Resolve the definitions of the given names, one after the other. -/
def resolve (definitions : Definitions) (specializations : Specializations)
    (order : List String) : Definitions :=
  order.foldl (fun definitions name =>
    match definitions.get? name with
    | some body =>
      definitions.insert name (body.substitute (definitions.replacement? specializations))
    | none => definitions) definitions

/-- The defined names that no replacement used, in the definitions of the given names and in the
given expression. -/
def unused (definitions : Definitions) (specializations : Specializations) (order : List String)
    (e : Expr) : List String :=
  let inside := order.flatMap fun name => ((definitions.get? name).map Expr.references).getD []
  let mentioned := inside ++ e.references
  definitions.keys.filter fun name =>
    !(mentioned.contains name && (definitions.replacement? specializations name).isSome)

end Definitions

end ShellCompletion
