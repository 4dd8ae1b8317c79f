/-!
# Searching a range of keys

In an ascending array of keys those between two bounds stand together. A key among them is found by
bisection, and the stretch is then widened to both sides.
-/

namespace ShellCompletion.Range

/-- Find a place whose key lies between the bounds, by bisection of the places from `left` up to
`right`. The fuel bounds the number of halvings. -/
def bisect (keys : Array Nat) (low high : Nat) : Nat → Nat → Nat → Option Nat
  | 0, _, _ => none
  | fuel + 1, left, right =>
    if left < right then
      let middle := left + (right - left) / 2
      match keys[middle]? with
      | none => none
      | some key =>
        if key < low then bisect keys low high fuel (middle + 1) right
        else if high < key then bisect keys low high fuel left middle
        else some middle
    else none

/-- Move down while the key before is not below the bound. -/
def widenDown (keys : Array Nat) (low : Nat) : Nat → Nat
  | 0 => 0
  | place + 1 =>
    match keys[place]? with
    | some key => if low ≤ key then widenDown keys low place else place + 1
    | none => place + 1

/-- Move up while the key behind is not above the bound. The fuel bounds the number of moves. -/
def widenUp (keys : Array Nat) (high : Nat) : Nat → Nat → Nat
  | 0, place => place
  | fuel + 1, place =>
    match keys[place + 1]? with
    | some key => if key ≤ high then widenUp keys high fuel (place + 1) else place
    | none => place

/-- The stretch of places whose keys lie between the bounds: its first place and the place just
behind it. -/
def bounds (keys : Array Nat) (low high : Nat) : Option (Nat × Nat) :=
  match bisect keys low high keys.size 0 keys.size with
  | none => none
  | some middle => some (widenDown keys low middle, widenUp keys high keys.size middle + 1)

end ShellCompletion.Range
