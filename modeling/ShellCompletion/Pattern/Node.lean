import ShellCompletion.Pattern.Basic

/-!
# Listing of a pattern

A pattern written out as a list of nodes that name their children by their places in the list.
Sequences are joined two by two from the left, an optional part is a choice with the empty word, and a
repeated part is joined with its own closure. The end position stands last.
-/

namespace ShellCompletion

/-- A node of a listed pattern. Children are places in the list. -/
inductive PatternNode (α : Type) where
  /-- The empty word. -/
  | epsilon
  /-- A symbol at its position. -/
  | symbol (a : α) (position : Nat)
  /-- A word of the left child before a word of the right one. -/
  | cat (left right : Nat)
  /-- A word of one of the children, which a fallback ranks. -/
  | choice (children : List Nat) (ranked : Bool)
  /-- Any number of words of the child. -/
  | star (child : Nat)
  /-- The end position. -/
  | stop (position : Nat)

/-- The nodes listed so far. -/
structure PatternListing (α : Type) where
  /-- The nodes, children before their parents. -/
  nodes : Array (PatternNode α) := #[]
  /-- The number of positions seen. -/
  positions : Nat := 0

namespace PatternListing

variable {α : Type}

/-- Add a node and tell its place. -/
def add (listing : PatternListing α) (node : PatternNode α) : PatternListing α × Nat :=
  ({ listing with nodes := listing.nodes.push node }, listing.nodes.size)

mutual

/-- List the nodes of a pattern and tell the place of its root. -/
def addPattern (listing : PatternListing α) : Pattern α → PatternListing α × Nat
  | .symbol a =>
    ({ listing with positions := listing.positions + 1 }).add (.symbol a listing.positions)
  | .sequence [] => listing.add .epsilon
  | .sequence (p :: ps) =>
    let (listing, left) := listing.addPattern p
    listing.addSequence left ps
  | .alternative branches =>
    let (listing, children) := listing.addAll branches
    listing.add (.choice children false)
  | .fallback branches =>
    let (listing, children) := listing.addAll branches
    listing.add (.choice children true)
  | .optional item =>
    let (listing, child) := listing.addPattern item
    let (listing, epsilon) := listing.add .epsilon
    listing.add (.choice [child, epsilon] false)
  | .repeated item =>
    let (listing, child) := listing.addPattern item
    let (listing, star) := listing.add (.star child)
    listing.add (.cat child star)

/-- List further items of a sequence behind the node at the given place. -/
def addSequence (listing : PatternListing α) (left : Nat) :
    List (Pattern α) → PatternListing α × Nat
  | [] => (listing, left)
  | p :: ps =>
    let (listing, right) := listing.addPattern p
    let (listing, both) := listing.add (.cat left right)
    listing.addSequence both ps

/-- List several patterns and tell the places of their roots. -/
def addAll (listing : PatternListing α) : List (Pattern α) → PatternListing α × List Nat
  | [] => (listing, [])
  | p :: ps =>
    let (listing, place) := listing.addPattern p
    let (listing, places) := listing.addAll ps
    (listing, place :: places)

end

end PatternListing

/-- The nodes of a pattern with its end position, and the node that joins the two. -/
def Pattern.listing {α : Type} (p : Pattern α) : Array (PatternNode α) × PatternNode α :=
  let (listing, root) := ({} : PatternListing α).addPattern p
  let (listing, stop) := listing.add (.stop listing.positions)
  (listing.nodes, .cat root stop)

end ShellCompletion
