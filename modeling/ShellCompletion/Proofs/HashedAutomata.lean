import ShellCompletion.Input
import ShellCompletion.Proofs.Interning

/-!
# Hashing and numbering of automata

Automata are numbered by looking for an equal one in a hash map. Automata are the same if they agree as
maps and sets, whatever the order of their rows, transitions and symbols; but what the hash function is
given of an automaton follows that order. It determines which of the same automata one has, so those that
differ in order are not found and get numbers of their own. For automata in the same order, or with
different transitions, numbers are given as they should be, and each number gives back its automaton.
-/

namespace ShellCompletion

namespace Interner

variable {α : Type} [DecidableEq α]

/-- Number automata one after the other. -/
def internAll (interner : Interner α) : List (Automaton α) → Interner α × List ℕ
  | [] => (interner, [])
  | a :: rest =>
    let (next, id) := interner.intern a
    let (last, ids) := next.internAll rest
    (last, id :: ids)

theorem internAll_cons (s : Interner α) (a : Automaton α) (rest : List (Automaton α)) :
    s.internAll (a :: rest) = (((s.intern a).1.internAll rest).1,
      (s.intern a).2 :: ((s.intern a).1.internAll rest).2) := rfl

/-- Taking up automata only adds to those there are. -/
theorem internAll_extends (s : Interner α) (automata : List (Automaton α)) :
    (s.internAll automata).1.Extends s := by
  induction automata generalizing s with
  | nil => exact .refl s
  | cons a rest ih => exact (ih (s.intern a).1).trans (s.intern_extends a)

/-- Every automaton gets a number. -/
theorem length_internAll (s : Interner α) (automata : List (Automaton α)) :
    (s.internAll automata).2.length = automata.length := by
  induction automata generalizing s with
  | nil => rfl
  | cons a rest ih => rw [internAll_cons, List.length_cons, ih, List.length_cons]

/-- A number that was given once gives back its automaton ever after, and the automaton gets it again. -/
theorem get?_and_intern_of_mem_zip {s : Interner α} {automata : List (Automaton α)}
    {a : Automaton α} {id : ℕ} (h : (a, id) ∈ automata.zip (s.internAll automata).2) :
    (s.internAll automata).1.get? id = some a ∧
      ((s.internAll automata).1.intern a).2 = id := by
  induction automata generalizing s with
  | nil => cases h
  | cons first rest ih =>
    rw [internAll_cons, List.zip_cons_cons, List.mem_cons] at h
    rcases h with heq | h
    · cases heq
      have hextends := (s.intern a).1.internAll_extends rest
      rw [internAll_cons]
      exact ⟨hextends.get?_eq_some (s.get?_intern a), by rw [intern_of_extends hextends]⟩
    · exact ih h

/-- Automata get the same number exactly if they are equal. -/
theorem id_eq_iff {s : Interner α} {automata : List (Automaton α)} {x y : Automaton α × ℕ}
    (hx : x ∈ automata.zip (s.internAll automata).2)
    (hy : y ∈ automata.zip (s.internAll automata).2) : x.2 = y.2 ↔ x.1 = y.1 := by
  obtain ⟨hgetx, hidx⟩ := get?_and_intern_of_mem_zip hx
  obtain ⟨hgety, hidy⟩ := get?_and_intern_of_mem_zip hy
  constructor
  · intro hid
    rw [hid, hgety] at hgetx
    exact (Option.some.inj hgetx).symm
  · intro heq
    rw [← hidx, ← hidy, heq]

/-- Every automaton that was taken up has a number. -/
theorem exists_mem_zip (s : Interner α) {automata : List (Automaton α)} {a : Automaton α}
    (ha : a ∈ automata) : ∃ id, (a, id) ∈ automata.zip (s.internAll automata).2 := by
  have hmap : (automata.zip (s.internAll automata).2).map Prod.fst = automata :=
    List.map_fst_zip (s.length_internAll automata).ge
  rw [← hmap] at ha
  obtain ⟨⟨_, id⟩, hmem, rfl⟩ := List.mem_map.mp ha
  exact ⟨id, hmem⟩

/-- Of automata that are the same, those that differ in order give the hash function different values.
Whatever automata are numbered one after the other, each number gives back its automaton, and two numbers
are equal exactly if the automata are the same and give the hash function the same values. So the numbers
tell whether automata are the same exactly if none of those that are the same differ in order. -/
theorem numbers_right_iff (s : Interner α) (automata : List (Automaton α)) :
    (∀ a b : Automaton α, a.same b = true → (a.fed = b.fed ↔ a = b)) ∧
    ∃ last ids, s.internAll automata = (last, ids) ∧ ids.length = automata.length ∧
      (∀ x ∈ automata.zip ids, last.get? x.2 = some x.1) ∧
      (∀ x ∈ automata.zip ids, ∀ y ∈ automata.zip ids,
        (x.2 = y.2 ↔ x.1.same y.1 = true ∧ x.1.fed = y.1.fed)) ∧
      ((∀ x ∈ automata.zip ids, ∀ y ∈ automata.zip ids, (x.2 = y.2 ↔ x.1.same y.1 = true)) ↔
        ∀ a ∈ automata, ∀ b ∈ automata, a.same b = true → a.fed = b.fed) := by
  refine ⟨fun a b => Automaton.fed_eq_iff_of_same, _, _, rfl, s.length_internAll automata, ?_, ?_, ?_, ?_⟩
  · exact fun x hx => (get?_and_intern_of_mem_zip hx).1
  · intro x hx y hy
    rw [id_eq_iff hx hy, Automaton.same_and_fed_eq_iff]
  · intro hright a ha b hb hsame
    obtain ⟨i, hi⟩ := s.exists_mem_zip ha
    obtain ⟨j, hj⟩ := s.exists_mem_zip hb
    have heq : a = b := (id_eq_iff hi hj).mp ((hright _ hi _ hj).mpr hsame)
    rw [heq]
  · intro hfed x hx y hy
    rw [id_eq_iff hx hy, ← Automaton.same_and_fed_eq_iff, and_iff_left_iff_imp]
    exact hfed x.1 (List.of_mem_zip hx).1 y.1 (List.of_mem_zip hy).1

/-- The automaton with the transitions on `a` and `b` from its start, in the given order. -/
def forked (transitions : List (Transition Input)) : Automaton Input :=
  .ofTransitions 1 transitions [2, 3] []

/-- The transition on `a`. -/
def toLeft : Transition Input := ⟨1, .literal "a" none 0 none, 2⟩

/-- The transition on `b`. -/
def toRight : Transition Input := ⟨1, .literal "b" none 0 none, 3⟩

/-- Two automata that only differ in the order of two transitions are the same, but they get two
numbers. -/
theorem numbers_wrong_swapped :
    (forked [toLeft, toRight]).same (forked [toRight, toLeft]) = true ∧
      (forked [toLeft, toRight]).fed ≠ (forked [toRight, toLeft]).fed ∧
      (internAll {} [forked [toLeft, toRight], forked [toRight, toLeft]]).2 = [0, 1] := by
  refine ⟨?_, ?_, ?_⟩ <;> decide +kernel

end Interner

end ShellCompletion
