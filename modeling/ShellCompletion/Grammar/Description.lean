import ShellCompletion.Grammar.Expr

/-!
# Distribution of descriptions

A description that follows a group belongs to literals inside the group. It is handed from left to
right and spent by the first literal that has no description of its own; each branch of an
alternative gets it anew. Inside a group with a description only that description is handed on.
-/

namespace ShellCompletion

mutual

/-- Distribute the descriptions in an expression. Takes the description that is handed on from the
left, and tells what is left of it for what comes behind. -/
def Expr.distribute (handed : Option String) : Expr → Expr × Option String
  | .literal text none level span => (.literal text handed level span, none)
  | .literal text (some own) level span => (.literal text (some own) level span, handed)
  | .reference name level span => (.reference name level span, handed)
  | .command text patterns level span => (.command text patterns level span, handed)
  | .sequence items =>
    let (items, handed) := Expr.distributeAlong handed items
    (.sequence items, handed)
  | .alternative branches => (.alternative (Expr.distributeEach handed branches), handed)
  | .fallback branches =>
    let (branches, handed) := Expr.distributeAlong handed branches
    (.fallback branches, handed)
  | .optional item =>
    let (item, handed) := item.distribute handed
    (.optional item, handed)
  | .repeated item =>
    let (item, handed) := item.distribute handed
    (.repeated item, handed)
  | .described item description => ((item.distribute (some description)).1, handed)
  | .subword body level span =>
    let (body, handed) := body.distribute handed
    (.subword body level span, handed)

/-- Hand a description along a list of expressions. -/
def Expr.distributeAlong (handed : Option String) : List Expr → List Expr × Option String
  | [] => ([], handed)
  | e :: es =>
    let (e, handed) := e.distribute handed
    let (es, handed) := Expr.distributeAlong handed es
    (e :: es, handed)

/-- Hand the same description to each of a list of expressions. -/
def Expr.distributeEach (handed : Option String) : List Expr → List Expr
  | [] => []
  | e :: es => (e.distribute handed).1 :: Expr.distributeEach handed es

end

/-- The expression in which all descriptions stand at their literals. -/
def Expr.distributed (e : Expr) : Expr := (e.distribute none).1

end ShellCompletion
