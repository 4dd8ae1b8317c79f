import ShellCompletion.Automaton.Basic
import ShellCompletion.Proofs.Collections

/-!
# Runs of an automaton

Acceptance from an arbitrary state, and what the lists of transitions and states of an automaton hold.
An automaton is trim if its rows are exactly the states that lie between the start and acceptance.
-/

namespace ShellCompletion.Automaton

variable {α : Type} (a : Automaton α)

/-- The states of an automaton are the dead state and the ends of its transitions. -/
theorem mem_states (s : ℕ) :
    s ∈ a.states ↔ s = deadState ∨ ∃ t ∈ a.transitions, s = t.source ∨ s = t.target := by
  have general : ∀ (ts : List (Transition α)) (states : NatSet),
      s ∈ ts.foldl (fun states t => (states.insert t.source).insert t.target) states ↔
      s ∈ states ∨ ∃ t ∈ ts, s = t.source ∨ s = t.target := by
    intro ts
    induction ts with
    | nil => simp
    | cons t ts ih =>
      intro states
      rw [List.foldl_cons, ih]
      simp [or_assoc]
  rw [states, general, NatSet.mem_singleton]

variable [DecidableEq α]

/-- The transitions are the answers to the question for the next state. -/
theorem mem_transitions (t : Transition α) :
    t ∈ a.transitions ↔ a.next? t.source t.symbol = some t.target := by
  simp only [transitions, List.mem_flatMap, List.mem_map, Prod.exists, next?,
    Option.bind_eq_some_iff, OrderedMap.mem_entries_iff]
  constructor
  · rintro ⟨s, row, hrow, c, target, hentry, rfl⟩
    exact ⟨row, hrow, hentry⟩
  · rintro ⟨row, hrow, hentry⟩
    exact ⟨t.source, row, hrow, t.symbol, t.target, hentry, rfl⟩

/-- A state with a next state has a row. -/
theorem mem_keys_of_next? {s t : ℕ} {c : α} (h : a.next? s c = some t) : s ∈ a.rows.keys := by
  obtain ⟨row, hrow, -⟩ := Option.bind_eq_some_iff.mp h
  exact (a.rows.mem_keys_iff s).mpr ⟨row, hrow⟩

/-- Whether a word leads from a state to an accepting one. -/
def acceptsFrom (state : ℕ) (word : List α) : Bool :=
  match a.run? state word with
  | some s => a.accepting.contains s
  | none => false

theorem accepts_eq (word : List α) : a.accepts word = a.acceptsFrom a.start word := rfl

@[simp] theorem acceptsFrom_nil (s : ℕ) : a.acceptsFrom s [] = a.accepting.contains s := rfl

/-- A word is accepted from a state if its rest is from the next one. -/
theorem acceptsFrom_cons_some {s t : ℕ} {c : α} (h : a.next? s c = some t) (word : List α) :
    a.acceptsFrom s (c :: word) = a.acceptsFrom t word := by
  simp only [acceptsFrom, run?, h, Option.bind_some]

/-- No word is accepted that begins with a symbol for which there is no transition. -/
theorem acceptsFrom_cons_none {s : ℕ} {c : α} (h : a.next? s c = none) (word : List α) :
    a.acceptsFrom s (c :: word) = false := by
  simp only [acceptsFrom, run?, h, Option.bind_none]

/-- A word is run through in two parts. -/
theorem run?_append (s : ℕ) (u v : List α) :
    a.run? s (u ++ v) = (a.run? s u).bind (a.run? · v) := by
  induction u generalizing s with
  | nil => rfl
  | cons c u ih =>
    simp only [List.cons_append, run?]
    cases a.next? s c with
    | none => rfl
    | some t => exact ih t

/-- A word is accepted from a state if its end is from where its beginning leads. -/
theorem acceptsFrom_append {s t : ℕ} {u : List α} (h : a.run? s u = some t) (v : List α) :
    a.acceptsFrom s (u ++ v) = a.acceptsFrom t v := by
  rw [acceptsFrom, run?_append, h]
  rfl

/-- What the automaton of a pattern has in common with every automaton without useless states: its
rows are the states that are reached from the start and lead to acceptance, the dead state has none,
and some symbol can be read at the start. -/
structure Trim : Prop where
  start_row : a.start ∈ a.rows.keys
  start_moves : ∃ c t, a.next? a.start c = some t
  dead_row : deadState ∉ a.rows.keys
  symbol_mem : ∀ {s t : ℕ} {c : α}, a.next? s c = some t → c ∈ a.symbols.toList
  target_row : ∀ {s t : ℕ} {c : α}, a.next? s c = some t → t ∈ a.rows.keys
  accepting_row : ∀ s ∈ a.accepting, s ∈ a.rows.keys
  reached : ∀ s ∈ a.rows.keys, ∃ word, a.run? a.start word = some s
  useful : ∀ s ∈ a.rows.keys, ∃ word, a.acceptsFrom s word = true

/-- Whether only symbols of the automaton can be read. -/
def ReadsSymbols : Prop := ∀ {s t : ℕ} {c : α}, a.next? s c = some t → c ∈ a.symbols.toList

/-- The state after one symbol, where missing transitions lead to the dead state. -/
def step (s : ℕ) (c : α) : ℕ := (a.next? s c).getD deadState

theorem step_mem_states (s : ℕ) (c : α) : a.step s c ∈ a.states := by
  rw [mem_states, step]
  cases h : a.next? s c with
  | none => exact .inl rfl
  | some t => exact .inr ⟨⟨s, c, t⟩, (a.mem_transitions _).mpr h, .inr rfl⟩

variable {a}

namespace Trim

theorem readsSymbols (ha : a.Trim) : a.ReadsSymbols := ha.symbol_mem

/-- A row is the start, or some transition leads to it. -/
theorem start_or_target (ha : a.Trim) {s : ℕ} (hs : s ∈ a.rows.keys) :
    s = a.start ∨ ∃ q c, a.next? q c = some s := by
  obtain ⟨word, hword⟩ := ha.reached s hs
  rcases List.eq_nil_or_concat word with rfl | ⟨word, c, rfl⟩
  · exact .inl (Option.some.inj hword).symm
  · rw [List.concat_eq_append, run?_append] at hword
    obtain ⟨q, -, hq⟩ := Option.bind_eq_some_iff.mp hword
    obtain ⟨t, ht, hend⟩ := Option.bind_eq_some_iff.mp hq
    cases hend
    exact .inr ⟨q, c, ht⟩

/-- A row accepts or has a transition. -/
theorem accepting_or_next (ha : a.Trim) {s : ℕ} (hs : s ∈ a.rows.keys) :
    s ∈ a.accepting ∨ ∃ c t, a.next? s c = some t := by
  obtain ⟨word, hword⟩ := ha.useful s hs
  cases word with
  | nil => exact .inl hword
  | cons c word =>
    cases hnext : a.next? s c with
    | none =>
      rw [a.acceptsFrom_cons_none hnext] at hword
      cases hword
    | some t => exact .inr ⟨c, t, hnext⟩

/-- The states of a trim automaton are its rows and the dead state. -/
theorem mem_states (ha : a.Trim) (s : ℕ) : s ∈ a.states ↔ s = deadState ∨ s ∈ a.rows.keys := by
  rw [Automaton.mem_states]
  refine or_congr_right ⟨?_, fun hs => ?_⟩
  · rintro ⟨t, ht, rfl | rfl⟩
    · exact a.mem_keys_of_next? ((a.mem_transitions t).mp ht)
    · exact ha.target_row ((a.mem_transitions t).mp ht)
  · rcases ha.start_or_target hs with rfl | ⟨q, c, hq⟩
    · obtain ⟨c, t, ht⟩ := ha.start_moves
      exact ⟨⟨a.start, c, t⟩, (a.mem_transitions _).mpr ht, .inl rfl⟩
    · exact ⟨⟨q, c, s⟩, (a.mem_transitions _).mpr hq, .inr rfl⟩

/-- No transition leaves the dead state. -/
theorem next?_dead (ha : a.Trim) (c : α) : a.next? deadState c = none := by
  cases h : a.next? deadState c with
  | none => rfl
  | some t => exact (ha.dead_row (a.mem_keys_of_next? h)).elim

/-- A step ends in the dead state only where a transition is missing. -/
theorem step_eq_dead (ha : a.Trim) {s : ℕ} {c : α} : a.step s c = deadState ↔ a.next? s c = none := by
  rw [step]
  cases h : a.next? s c with
  | none => simp
  | some t =>
    rw [Option.getD_some]
    refine iff_of_false ?_ (by simp)
    rintro rfl
    exact ha.dead_row (ha.target_row h)

/-- A symbol that does not belong to the automaton leads to the dead state. -/
theorem step_of_not_mem (ha : a.Trim) {c : α} (hc : c ∉ a.symbols.toList) (s : ℕ) :
    a.step s c = deadState := by
  rw [ha.step_eq_dead]
  exact Option.eq_none_iff_forall_ne_some.mpr fun t ht => hc (ha.symbol_mem ht)

theorem dead_not_accepting (ha : a.Trim) : ¬ deadState ∈ a.accepting := fun h =>
  ha.dead_row (ha.accepting_row _ h)

/-- No word leads from the dead state to acceptance. -/
theorem acceptsFrom_dead (ha : a.Trim) (word : List α) : a.acceptsFrom deadState word = false := by
  cases word with
  | nil =>
    rw [acceptsFrom_nil, ← Bool.not_eq_true, NatSet.contains_iff]
    exact ha.dead_not_accepting
  | cons c word => exact a.acceptsFrom_cons_none (ha.next?_dead c) word

/-- Acceptance of a word is acceptance of its rest after one step. -/
theorem acceptsFrom_cons (ha : a.Trim) (s : ℕ) (c : α) (word : List α) :
    a.acceptsFrom s (c :: word) = a.acceptsFrom (a.step s c) word := by
  rw [step]
  cases h : a.next? s c with
  | none => rw [a.acceptsFrom_cons_none h, Option.getD_none, ha.acceptsFrom_dead]
  | some t => rw [a.acceptsFrom_cons_some h, Option.getD_some]

end Trim

variable (a)

/-- Whether the same words lead from two states to acceptance. -/
def Alike (s t : ℕ) : Prop := ∀ word, a.acceptsFrom s word = a.acceptsFrom t word

variable {a}

theorem Alike.symm {s t : ℕ} (h : a.Alike s t) : a.Alike t s := fun word => (h word).symm

theorem Alike.trans {s t u : ℕ} (h : a.Alike s t) (h' : a.Alike t u) : a.Alike s u :=
  fun word => (h word).trans (h' word)

/-- States that are alike lead to states that are alike. -/
theorem Alike.step {s t : ℕ} (ha : a.Trim) (h : a.Alike s t) (c : α) :
    a.Alike (a.step s c) (a.step t c) := fun word => by
  rw [← ha.acceptsFrom_cons, ← ha.acceptsFrom_cons, h]

/-- States that are alike accept together. -/
theorem Alike.accepting {s t : ℕ} (h : a.Alike s t) : s ∈ a.accepting ↔ t ∈ a.accepting := by
  have hnil := h []
  rw [acceptsFrom_nil, acceptsFrom_nil] at hnil
  rw [← NatSet.contains_iff, ← NatSet.contains_iff, hnil]

/-- States that are alike are both rows or both none. -/
theorem Alike.mem_keys {s t : ℕ} (ha : a.Trim) (h : a.Alike s t) (hs : s ∈ a.rows.keys)
    (ht : t ∈ a.states) : t ∈ a.rows.keys := by
  rcases (ha.mem_states t).mp ht with rfl | ht
  · obtain ⟨word, hword⟩ := ha.useful s hs
    rw [h word, ha.acceptsFrom_dead] at hword
    cases hword
  · exact ht

end ShellCompletion.Automaton
