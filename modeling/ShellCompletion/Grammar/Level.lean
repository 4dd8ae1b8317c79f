import ShellCompletion.Grammar.Expr

/-!
# Fallback levels

The branches of a fallback are numbered from zero, and literals get the number of the innermost
fallback branch they are in. A subword gets that number when one of its literals got a new one.
References and commands keep the level they have.
-/

namespace ShellCompletion

mutual

/-- Whether some literal gets another level than it has. -/
def Expr.changesLevel (level : Nat) : Expr → Bool
  | .literal _ _ own _ => own != level
  | .reference .. => false
  | .command .. => false
  | .sequence items => Expr.changesLevelAny level items
  | .alternative branches => Expr.changesLevelAny level branches
  | .fallback branches => Expr.changesLevelRanked 0 branches
  | .optional item => item.changesLevel level
  | .repeated item => item.changesLevel level
  | .described item _ => item.changesLevel level
  | .subword body _ _ => body.changesLevel level

/-- Whether some literal of a list of expressions gets another level. -/
def Expr.changesLevelAny (level : Nat) : List Expr → Bool
  | [] => false
  | e :: es => e.changesLevel level || Expr.changesLevelAny level es

/-- Whether some literal of ranked branches gets another level. -/
def Expr.changesLevelRanked (rank : Nat) : List Expr → Bool
  | [] => false
  | e :: es => e.changesLevel rank || Expr.changesLevelRanked (rank + 1) es

end

mutual

/-- Give levels to the literals of an expression that is in the branch with the given number. -/
def Expr.assignLevels (level : Nat) : Expr → Expr
  | .literal text description _ span => .literal text description level span
  | .reference name own span => .reference name own span
  | .command text patterns own span => .command text patterns own span
  | .sequence items => .sequence (Expr.assignLevelsAll level items)
  | .alternative branches => .alternative (Expr.assignLevelsAll level branches)
  | .fallback branches => .fallback (Expr.assignLevelsRanked 0 branches)
  | .optional item => .optional (item.assignLevels level)
  | .repeated item => .repeated (item.assignLevels level)
  | .described item description => .described (item.assignLevels level) description
  | .subword body own span =>
    .subword (body.assignLevels level) (if body.changesLevel level then level else own) span

/-- Give levels to a list of expressions in one branch. -/
def Expr.assignLevelsAll (level : Nat) : List Expr → List Expr
  | [] => []
  | e :: es => e.assignLevels level :: Expr.assignLevelsAll level es

/-- Give levels to ranked branches. -/
def Expr.assignLevelsRanked (rank : Nat) : List Expr → List Expr
  | [] => []
  | e :: es => e.assignLevels rank :: Expr.assignLevelsRanked (rank + 1) es

end

end ShellCompletion
