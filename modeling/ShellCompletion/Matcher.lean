import ShellCompletion.Automaton.Interner
import ShellCompletion.Automaton.Query
import ShellCompletion.Failure

/-!
# Matchers

A matcher is the automaton of a command line together with the automata of its subwords. It decides
whether a text is matched piece by piece, and it numbers the commands and patterns that a script for a
shell has to hold.
-/

namespace ShellCompletion

/-- An automaton with the automata of its subwords. -/
structure Matcher where
  /-- The automaton of the command line. -/
  main : Automaton Input
  /-- The automata of subwords, by number. -/
  subwords : Interner Input := {}

namespace Automaton

/-- The state in which matching a text ends. The first literal of the state that the text begins with
is taken off; if there is none, an ambiguous input matches all that is left; if there is none either,
matching stops. The fuel bounds the number of steps. -/
def matchText (a : Automaton Input) (shell : Shell) : Nat → Nat → List Char → Nat
  | 0, state, _ => state
  | fuel + 1, state, text =>
    if text.isEmpty then state
    else
      let literal := (a.transitionsFrom state).findSome? fun t =>
        match t.symbol with
        | .literal s _ _ _ =>
          if s.toList.isPrefixOf text then some (t.target, text.drop s.length) else none
        | _ => none
      match literal with
      | some (target, rest) => matchText a shell fuel target rest
      | none =>
        match (a.transitionsFrom state).find? (·.symbol.isAmbiguous shell) with
        | some t => t.target
        | none => state

/-- Whether a text is matched. Literals that are empty cannot be taken off more often than there are
states without going round in circles. -/
def matchesText (a : Automaton Input) (shell : Shell) (text : String) : Bool :=
  let fuel := (text.length + 1) * (a.states.size + 1)
  a.accepting.contains (a.matchText shell fuel a.start text.toList)

end Automaton

namespace Matcher

/-- The automaton of a subword. -/
def subword (m : Matcher) (id : Nat) : Result (Automaton Input) :=
  require .unknownSubword (m.subwords.get? id)

/-- The numbers of the subwords among the symbols, in ascending order. -/
def subwordSymbols (m : Matcher) : List Nat :=
  (NatSet.ofList (m.main.symbols.toList.filterMap fun
    | .subword id _ _ => some id
    | _ => none)).toList

/-- The commands inside a subword, each with the state it leaves. There are no subwords inside. -/
def commandsInside (a : Automaton Input) : Result (List (Nat × String)) := do
  let found ← a.transitions.mapM fun t =>
    match t.symbol with
    | .command text _ _ _ => .ok [(t.source, text)]
    | .subword .. => giveUp .nestedSubword
    | _ => .ok []
  return found.flatten

/-- The subwords of the transitions with the commands inside each, in ascending order. -/
def subwordCommands (m : Matcher) : Result (List (Nat × List (Nat × String))) :=
  (NatSet.ofList m.main.subwordIds.toList).toList.mapM fun id => do
    return (id, ← commandsInside (← m.subword id))

/-- The commands and patterns of a script, each set in the order of first use. -/
structure Routines where
  /-- The commands. -/
  commands : OrderedSet String := .empty
  /-- The patterns. -/
  patterns : OrderedSet String := .empty

/-- Take up the command and the pattern of an input. -/
def Routines.add (shell : Shell) (found : Routines) : Input → Routines
  | .reference _ (some specialization) _ _ =>
    match specialization.shells.get? shell with
    | some text => { found with commands := found.commands.insert text }
    | none => found
  | .command text patterns _ _ =>
    let found := { found with commands := found.commands.insert text }
    match patterns.bind (·.get? shell) with
    | some pattern => { found with patterns := found.patterns.insert pattern }
    | none => found
  | _ => found

/-- The commands and patterns that a script for a shell holds, those inside subwords included. -/
def routines (m : Matcher) (shell : Shell) : Result Routines :=
  m.main.transitions.foldlM (fun found t =>
    match t.symbol with
    | .subword id _ _ => do
      let a ← m.subword id
      return (a.transitions.map (·.symbol)).foldl (Routines.add shell) found
    | input => .ok (found.add shell input)) {}

end Matcher

end ShellCompletion
