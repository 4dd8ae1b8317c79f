import ShellCompletion.Grammar.Definition

/-!
# Literals that touch inside a word

The items of a sequence inside a subword follow each other without a space, so two literals next to
each other were written with a space that would vanish. Such a pair is rejected, with the references
through which it was reached.
-/

namespace ShellCompletion

mutual

/-- What an expression begins with: of a sequence, what its first item begins with. -/
def Expr.head : Expr → Result Expr
  | .sequence items => Expr.headOfFirst items
  | .subword .. => giveUp .nestedSubword
  | .described .. => giveUp .strayDescription
  | e => .ok e

/-- What the first expression of a list begins with. -/
def Expr.headOfFirst : List Expr → Result Expr
  | [] => giveUp .emptySequence
  | e :: _ => e.head

end

/-- What an expression ends with: of a sequence, what its last item begins with. -/
def Expr.tail : Expr → Result Expr
  | .sequence items =>
    match items.getLast? with
    | some e => e.head
    | none => giveUp .emptySequence
  | e => e.head

/-- Reject neighbours of which the left one ends and the right one begins with a literal. -/
def refuseTouching (trace : List Span) : List Expr → Result Unit
  | left :: right :: others => do
    match ← left.tail, ← right.head with
    | .literal _ _ _ first, .literal _ _ _ second =>
      reject (.adjacentLiterals first second trace)
    | _, _ => refuseTouching trace (right :: others)
  | _ => .ok ()

mutual

/-- Check the sequences of an expression that are inside a word. References are left to the given
function, which is told whether it is inside a word and which references led there. -/
def Expr.checkTouching (unfold : String → Bool → List Span → Result Unit) (inWord : Bool)
    (trace : List Span) : Expr → Result Unit
  | .literal .. => .ok ()
  | .reference name _ span => unfold name inWord (trace ++ span.toList)
  | .command .. => .ok ()
  | .sequence items => do
    Expr.checkTouchingAll unfold inWord trace items
    if inWord then refuseTouching trace items
  | .alternative branches => Expr.checkTouchingAll unfold inWord trace branches
  | .fallback branches => Expr.checkTouchingAll unfold inWord trace branches
  | .optional item => item.checkTouching unfold inWord trace
  | .repeated item => item.checkTouching unfold inWord trace
  | .described .. => giveUp .strayDescription
  | .subword body _ _ => body.checkTouching unfold true trace

/-- Check each expression of a list. -/
def Expr.checkTouchingAll (unfold : String → Bool → List Span → Result Unit) (inWord : Bool)
    (trace : List Span) : List Expr → Result Unit
  | [] => .ok ()
  | e :: es => do
    e.checkTouching unfold inWord trace
    Expr.checkTouchingAll unfold inWord trace es

end

/-- Check an expression and the definitions that it refers to, which may be unfolded in each other
up to the given depth. -/
def Definitions.checkTouching (definitions : Definitions) :
    Nat → Expr → Bool → List Span → Result Unit
  | 0, e, inWord, trace =>
    e.checkTouching (fun name _ _ =>
      if definitions.contains name then giveUp .endlessUnfolding else .ok ()) inWord trace
  | depth + 1, e, inWord, trace =>
    e.checkTouching (fun name inWord trace =>
      match definitions.get? name with
      | some body => definitions.checkTouching depth body inWord trace
      | none => .ok ()) inWord trace

/-- Reject literals that touch inside a word. A definition that is unfolded inside itself for a second
time with as much of a word around it goes on for ever, so that twice the number of definitions is
depth enough. -/
def Expr.refuseTouchingLiterals (definitions : Definitions) (e : Expr) : Result Unit :=
  definitions.checkTouching (2 * definitions.size) e false []

end ShellCompletion
