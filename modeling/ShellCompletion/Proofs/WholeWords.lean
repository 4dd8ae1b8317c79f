import ShellCompletion.Matcher
import ShellCompletion.Proofs.Runs

/-!
# Texts that are matched as a whole

A text is matched by taking literals off it for as long as one fits. What is left then is given to an
ambiguous input, if one leaves the state that was reached. So a text that is matched should be made of the
literals along a path to an accepting state, or of those along a path to a state from which an ambiguous
input leads to an accepting one, with something left for that input. But matching may also stop because
nothing fits what is left, and an accepting state counts there too: such a text is stranded, and it is
matched although a part of it was never looked at. This module follows matching to each of its three ends.
-/

namespace ShellCompletion

/-- The text of a literal. -/
def Input.text? : Input → Option String
  | .literal text _ _ _ => some text
  | _ => none

/-- The texts of some inputs one after the other, if all of them are literals. -/
def Input.spelling : List Input → Option (List Char)
  | [] => some []
  | input :: word => do
    let text ← input.text?
    let others ← spelling word
    return text.toList ++ others

namespace Automaton

/-- Whether a text is made of the literals along a path to an accepting state, or of those along a path to
a state that an ambiguous input leaves for an accepting one, and of something left for that input. -/
def Covers (a : Automaton Input) (shell : Shell) (text : List Char) : Prop :=
  ∃ word state, a.run? a.start word = some state ∧
    (Input.spelling word = some text ∧ state ∈ a.accepting ∨
      ∃ taken rest, Input.spelling word = some taken ∧ text = taken ++ rest ∧ rest ≠ [] ∧
        ∃ input target, a.next? state input = some target ∧ input.isAmbiguous shell = true ∧
          target ∈ a.accepting)

/-- Take off the first literal of a state with which a text begins: the state it leads to, and what is
left of the text. -/
def takeLiteral? (a : Automaton Input) (state : ℕ) (text : List Char) : Option (ℕ × List Char) :=
  (a.transitionsFrom state).findSome? fun t =>
    match t.symbol with
    | .literal s _ _ _ => if s.toList.isPrefixOf text then some (t.target, text.drop s.length) else none
    | _ => none

/-- Where matching comes to its end, and why. -/
inductive Ending where
  /-- Nothing is left of the text. -/
  | whole (state : ℕ)
  /-- An ambiguous input leads to the target with all that is left. -/
  | guessed (state : ℕ) (rest : List Char) (target : ℕ)
  /-- Neither a literal nor an ambiguous input fits what is left. -/
  | stranded (state : ℕ) (rest : List Char)

namespace Ending

/-- The state in which matching ends. -/
def last : Ending → ℕ
  | whole state => state
  | guessed _ _ target => target
  | stranded state _ => state

/-- The state to which the literals lead. -/
def reached : Ending → ℕ
  | whole state => state
  | guessed state _ _ => state
  | stranded state _ => state

/-- What the literals leave of the text. -/
def rest : Ending → List Char
  | whole _ => []
  | guessed _ rest _ => rest
  | stranded _ rest => rest

end Ending

/-- How matching a text from a state ends. -/
inductive Ends (a : Automaton Input) (shell : Shell) : ℕ → List Char → Ending → Prop
  | whole (state : ℕ) : Ends a shell state [] (.whole state)
  | guessed {state : ℕ} {text : List Char} {t : Transition Input} (hleft : text ≠ [])
    (hliteral : a.takeLiteral? state text = none)
    (hambiguous : (a.transitionsFrom state).find? (·.symbol.isAmbiguous shell) = some t) :
    Ends a shell state text (.guessed state text t.target)
  | stranded {state : ℕ} {text : List Char} (hleft : text ≠ [])
    (hliteral : a.takeLiteral? state text = none)
    (hambiguous : (a.transitionsFrom state).find? (·.symbol.isAmbiguous shell) = none) :
    Ends a shell state text (.stranded state text)
  | step {state target : ℕ} {text rest : List Char} {ending : Ending} (hleft : text ≠ [])
    (hliteral : a.takeLiteral? state text = some (target, rest))
    (hrest : Ends a shell target rest ending) : Ends a shell state text ending

/-- Whether matching a text stops in an accepting state although nothing fits what is left. -/
def Strands (a : Automaton Input) (shell : Shell) (text : List Char) : Prop :=
  ∃ state rest, Ends a shell a.start text (.stranded state rest) ∧ state ∈ a.accepting

variable {a : Automaton Input} {shell : Shell}

/-- The transitions from a state are the answers to the question for its next states. -/
theorem next?_of_mem_transitionsFrom {state : ℕ} {t : Transition Input}
    (h : t ∈ a.transitionsFrom state) : a.next? state t.symbol = some t.target := by
  unfold transitionsFrom at h
  split at h
  · next row hrow =>
    obtain ⟨e, he, rfl⟩ := List.mem_map.mp h
    exact Option.bind_eq_some_iff.mpr ⟨row, hrow, (OrderedMap.mem_entries_iff ..).mp he⟩
  · cases h

/-- A literal that is taken off is on a transition and stands at the front of the text. -/
theorem takeLiteral?_eq_some {state target : ℕ} {text rest : List Char}
    (h : a.takeLiteral? state text = some (target, rest)) :
    ∃ input s, a.next? state input = some target ∧ input.text? = some s ∧ text = s.toList ++ rest := by
  obtain ⟨⟨source, symbol, next⟩, ht, htaken⟩ := List.exists_of_findSome?_eq_some h
  have hnext := next?_of_mem_transitionsFrom ht
  cases symbol with
  | literal s description level span =>
    dsimp only at htaken hnext
    split at htaken
    · next hfront =>
      cases htaken
      obtain ⟨rest, rfl⟩ := List.isPrefixOf_iff_prefix.mp hfront
      refine ⟨_, s, hnext, rfl, ?_⟩
      rw [← String.length_toList, List.drop_left]
    · cases htaken
  | _ => cases htaken

/-- The literals that are taken off are those along a path to the state that is reached. -/
theorem Ends.exists_word {state : ℕ} {text : List Char} {ending : Ending}
    (h : Ends a shell state text ending) :
    ∃ word taken, a.run? state word = some ending.reached ∧ Input.spelling word = some taken ∧
      text = taken ++ ending.rest := by
  induction h with
  | whole state => exact ⟨[], [], rfl, rfl, rfl⟩
  | guessed => exact ⟨[], [], rfl, rfl, rfl⟩
  | stranded => exact ⟨[], [], rfl, rfl, rfl⟩
  | step hleft hliteral _ ih =>
    obtain ⟨input, s, hnext, htext, rfl⟩ := takeLiteral?_eq_some hliteral
    obtain ⟨word, taken, hrun, hspelling, rfl⟩ := ih
    refine ⟨input :: word, s.toList ++ taken, ?_, ?_, (List.append_assoc ..).symm⟩
    · rw [run?, hnext, Option.bind_some, hrun]
    · simp [Input.spelling, htext, hspelling]

/-- An ambiguous input that is given what is left is on a transition, and something is left. -/
theorem Ends.guessed_cases {state : ℕ} {text : List Char} {ending : Ending}
    (h : Ends a shell state text ending) {reached target : ℕ} {rest : List Char}
    (hending : ending = .guessed reached rest target) :
    rest ≠ [] ∧ ∃ input, a.next? reached input = some target ∧ input.isAmbiguous shell = true := by
  induction h with
  | whole => cases hending
  | guessed hleft _ hambiguous =>
    cases hending
    have hnext := next?_of_mem_transitionsFrom (List.mem_of_find?_eq_some hambiguous)
    have hholds := List.find?_some hambiguous
    exact ⟨hleft, _, hnext, hholds⟩
  | stranded => cases hending
  | step _ _ _ ih => exact ih hending

/-- A text whose matching ends in an accepting state is covered unless nothing fits what is left. -/
theorem Ends.covers_or_strands {text : List Char} {ending : Ending}
    (h : Ends a shell a.start text ending) (haccepting : ending.last ∈ a.accepting) :
    a.Covers shell text ∨ a.Strands shell text := by
  obtain ⟨word, taken, hrun, hspelling, htext⟩ := h.exists_word
  cases ending with
  | whole state =>
    rw [Ending.rest, List.append_nil] at htext
    exact .inl ⟨word, state, hrun, .inl ⟨htext ▸ hspelling, haccepting⟩⟩
  | guessed state rest target =>
    obtain ⟨hleft, input, hnext, hambiguous⟩ := h.guessed_cases rfl
    exact .inl ⟨word, state, hrun, .inr ⟨taken, rest, hspelling, htext, hleft, input, target, hnext,
      hambiguous, haccepting⟩⟩
  | stranded state rest => exact .inr ⟨state, rest, h, haccepting⟩

theorem matchText_succ (fuel state : ℕ) (text : List Char) :
    a.matchText shell (fuel + 1) state text =
      if text.isEmpty then state
      else match a.takeLiteral? state text with
        | some (target, rest) => a.matchText shell fuel target rest
        | none =>
          match (a.transitionsFrom state).find? (·.symbol.isAmbiguous shell) with
          | some t => t.target
          | none => state := rfl

/-- Matching ends in the state of its ending if there is fuel for one step more than there are characters
and no literal is empty. -/
theorem exists_ends (hliterals : ∀ t ∈ a.transitions, t.symbol.text? ≠ some "") (shell : Shell)
    {fuel : ℕ} {text : List Char} (hfuel : text.length < fuel) (state : ℕ) :
    ∃ ending, Ends a shell state text ending ∧ a.matchText shell fuel state text = ending.last := by
  -- each literal takes a character off, so what is left needs less fuel
  induction fuel generalizing text state with
  | zero => omega
  | succ fuel ih =>
    rw [matchText_succ]
    by_cases hleft : text = []
    · subst hleft
      exact ⟨.whole state, .whole state, rfl⟩
    rw [if_neg (by simpa using hleft)]
    cases hliteral : a.takeLiteral? state text with
    | some taken =>
      obtain ⟨target, rest⟩ := taken
      obtain ⟨input, s, hnext, htext, rfl⟩ := takeLiteral?_eq_some hliteral
      have hne : s ≠ "" := by
        rintro rfl
        exact hliterals ⟨state, input, target⟩ ((a.mem_transitions _).mpr hnext) htext
      have hpos : 0 < s.toList.length := List.length_pos_of_ne_nil (by simpa using hne)
      rw [List.length_append] at hfuel
      have hrest : rest.length < fuel := by omega
      obtain ⟨ending, hends, hlast⟩ := ih hrest target
      exact ⟨ending, .step hleft hliteral hends, hlast⟩
    | none =>
      dsimp only
      cases hambiguous : (a.transitionsFrom state).find? (·.symbol.isAmbiguous shell) with
      | some t => exact ⟨_, .guessed hleft hliteral hambiguous, rfl⟩
      | none => exact ⟨_, .stranded hleft hliteral hambiguous, rfl⟩

/-- Matching ends in one way only. -/
theorem Ends.unique {state : ℕ} {text : List Char} {ending other : Ending}
    (h : Ends a shell state text ending) (hother : Ends a shell state text other) : ending = other := by
  induction h with
  | whole => cases hother <;> trivial
  | guessed hleft hliteral hambiguous => cases hother <;> simp_all
  | stranded hleft hliteral hambiguous => cases hother <;> simp_all
  | step hleft hliteral _ ih =>
    cases hother with
    | step _ hliteral' hrest =>
      rw [hliteral] at hliteral'
      cases hliteral'
      exact ih hrest
    | _ => simp_all

/-- How matching a text ends decides whether it is matched. -/
theorem exists_ends_matchesText (hliterals : ∀ t ∈ a.transitions, t.symbol.text? ≠ some "")
    (shell : Shell) (text : String) : ∃ ending, Ends a shell a.start text.toList ending ∧
      (a.matchesText shell text = true ↔ ending.last ∈ a.accepting) := by
  have hfuel : text.toList.length < (text.length + 1) * (a.states.size + 1) := by
    rw [String.length_toList]
    exact Nat.lt_of_lt_of_le (Nat.lt_succ_self _) (Nat.le_mul_of_pos_right _ (Nat.succ_pos _))
  obtain ⟨ending, hends, hlast⟩ := exists_ends hliterals shell hfuel a.start
  refine ⟨ending, hends, ?_⟩
  rw [matchesText, hlast]
  rfl

/-- A text that is matched is covered or stranded, if no literal is empty. A stranded text is always
matched, so the texts that are matched without being covered are the stranded ones among those that are
not covered. -/
theorem matched_covered_or_stranded (hliterals : ∀ t ∈ a.transitions, t.symbol.text? ≠ some "")
    (shell : Shell) (text : String) :
    (a.matchesText shell text = true → a.Covers shell text.toList ∨ a.Strands shell text.toList) ∧
      (a.Strands shell text.toList → a.matchesText shell text = true) := by
  obtain ⟨ending, hends, hmatched⟩ := exists_ends_matchesText hliterals shell text
  constructor
  · intro h
    exact hends.covers_or_strands (hmatched.mp h)
  · rintro ⟨state, rest, hstranded, haccepting⟩
    rw [hmatched, hends.unique hstranded]
    exact haccepting

/-- The automaton of `cmd --sort=(name | <KEY>)` inside its word. -/
def sortKey : Automaton Input :=
  .ofTransitions 0 [⟨0, .literal "--sort=" none 0 none, 1⟩, ⟨1, .literal "name" none 0 none, 2⟩,
    ⟨1, .reference "KEY" none 0 none, 2⟩] [2] []

/-- A text that it matches. -/
theorem matched_covered_or_stranded_sortKey :
    (∀ t ∈ sortKey.transitions, t.symbol.text? ≠ some "") ∧
      sortKey.matchesText .bash "--sort=size" = true ∧
      (sortKey.Covers .bash "--sort=size".toList ∨ sortKey.Strands .bash "--sort=size".toList) := by
  have hliterals : ∀ t ∈ sortKey.transitions, t.symbol.text? ≠ some "" := by decide +kernel
  have hmatched : sortKey.matchesText .bash "--sort=size" = true := by decide +kernel
  exact ⟨hliterals, hmatched, (matched_covered_or_stranded hliterals .bash "--sort=size").1 hmatched⟩

/-- The automaton of `cmd foo;`. -/
def singleLiteral : Automaton Input :=
  .ofTransitions 0 [⟨0, .literal "foo" none 0 (some ⟨0, 4, 7⟩), 1⟩] [1] []

/-- A text that goes on behind the only literal is matched. -/
theorem matched_not_covered_foobar :
    (∀ t ∈ singleLiteral.transitions, t.symbol.text? ≠ some "") ∧
      singleLiteral.matchesText .bash "foobar" = true ∧
      ¬ singleLiteral.Covers .bash "foobar".toList := by
  refine ⟨by decide +kernel, by decide +kernel, ?_⟩
  have hnext : ∀ {s c t}, singleLiteral.next? s c = some t →
      s = 0 ∧ c = .literal "foo" none 0 (some ⟨0, 4, 7⟩) ∧ t = 1 := by
    intro s c t h
    have hmem := (singleLiteral.mem_transitions ⟨s, c, t⟩).mpr h
    have htransitions : singleLiteral.transitions =
        [⟨0, .literal "foo" none 0 (some ⟨0, 4, 7⟩), 1⟩] := by decide +kernel
    rw [htransitions, List.mem_singleton] at hmem
    cases hmem
    exact ⟨rfl, rfl, rfl⟩
  rintro ⟨word, state, hrun, ⟨hspelling, -⟩ | ⟨-, -, -, -, -, input, target, hinput, hambiguous, -⟩⟩
  · cases word with
    | nil => exact absurd hspelling (by decide)
    | cons c word =>
      obtain ⟨next, hfirst, hrun⟩ := Option.bind_eq_some_iff.mp hrun
      obtain ⟨-, rfl, rfl⟩ := hnext hfirst
      cases word with
      | nil => exact absurd hspelling (by decide)
      | cons d word =>
        obtain ⟨next, hsecond, -⟩ := Option.bind_eq_some_iff.mp hrun
        exact absurd (hnext hsecond).1 (by decide)
  · obtain ⟨-, rfl, -⟩ := hnext hinput
    cases hambiguous

end Automaton

end ShellCompletion
