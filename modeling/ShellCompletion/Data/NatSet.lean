/-!
# Finite sets of natural numbers

A set is held as the number whose binary digits mark its members, so that equal sets are equal
values, unions are bitwise and the members come out in ascending order. Positions of a pattern and
states of an automaton are kept in such sets.
-/

namespace ShellCompletion

/-- A finite set of natural numbers. -/
structure NatSet where
  /-- The number whose digit at place `n` says whether `n` is a member. -/
  bits : Nat
deriving DecidableEq, Repr, Hashable

namespace NatSet

/-- The set without members. -/
def empty : NatSet := ⟨0⟩

instance : Inhabited NatSet := ⟨empty⟩

instance : EmptyCollection NatSet := ⟨empty⟩

/-- Whether a number is a member. -/
def contains (s : NatSet) (n : Nat) : Bool := s.bits.testBit n

instance : Membership Nat NatSet := ⟨fun s n => s.contains n = true⟩

instance (s : NatSet) (n : Nat) : Decidable (n ∈ s) :=
  inferInstanceAs (Decidable (s.contains n = true))

/-- The set with one member. -/
def singleton (n : Nat) : NatSet := ⟨1 <<< n⟩

/-- The members of either set. -/
def union (s t : NatSet) : NatSet := ⟨s.bits ||| t.bits⟩

/-- The members of both sets. -/
def inter (s t : NatSet) : NatSet := ⟨s.bits &&& t.bits⟩

/-- The members of the first set that are not in the second. -/
def diff (s t : NatSet) : NatSet := ⟨s.bits ^^^ (s.bits &&& t.bits)⟩

/-- Add a member. -/
def insert (s : NatSet) (n : Nat) : NatSet := s.union (singleton n)

/-- Whether the set has no members. -/
def isEmpty (s : NatSet) : Bool := s.bits == 0

/-- The members of a list. -/
def ofList (ns : List Nat) : NatSet := ns.foldl insert empty

/-- A number above all members. -/
def bound (s : NatSet) : Nat := if s.bits = 0 then 0 else s.bits.log2 + 1

/-- The members in ascending order. -/
def toList (s : NatSet) : List Nat := (List.range s.bound).filter s.contains

/-- The number of members. -/
def size (s : NatSet) : Nat := s.toList.length

/-- The sizes of several sets together. -/
def totalSize : List NatSet → Nat
  | [] => 0
  | s :: sets => s.size + totalSize sets

/-- The least member. -/
def min? (s : NatSet) : Option Nat := s.toList.head?

/-- The greatest member. -/
def max? (s : NatSet) : Option Nat := s.toList.getLast?

/-- A number is in a set if its bit is set. -/
theorem mem_iff (s : NatSet) (n : Nat) : n ∈ s ↔ s.bits.testBit n = true := Iff.rfl

@[simp] theorem not_mem_empty (n : Nat) : ¬ n ∈ empty := by
  simp [mem_iff, empty]

@[simp] theorem mem_singleton (m n : Nat) : n ∈ singleton m ↔ n = m := by
  simp only [mem_iff, singleton, Nat.one_shiftLeft, Nat.testBit_two_pow, decide_eq_true_eq]
  exact eq_comm

@[simp] theorem mem_union (s t : NatSet) (n : Nat) : n ∈ s.union t ↔ n ∈ s ∨ n ∈ t := by
  simp [mem_iff, union, Nat.testBit_or]

@[simp] theorem mem_inter (s t : NatSet) (n : Nat) : n ∈ s.inter t ↔ n ∈ s ∧ n ∈ t := by
  simp [mem_iff, inter, Nat.testBit_and]

@[simp] theorem mem_diff (s t : NatSet) (n : Nat) : n ∈ s.diff t ↔ n ∈ s ∧ ¬ n ∈ t := by
  simp only [mem_iff, diff, Nat.testBit_xor, Nat.testBit_and]
  cases s.bits.testBit n <;> cases t.bits.testBit n <;> simp

@[simp] theorem mem_insert (s : NatSet) (m n : Nat) : n ∈ s.insert m ↔ n ∈ s ∨ n = m := by
  rw [insert, mem_union, mem_singleton]

/-- A number is a member of the set of a list exactly if the list holds it. -/
@[simp] theorem mem_ofList (ns : List Nat) (n : Nat) : n ∈ ofList ns ↔ n ∈ ns := by
  have general : ∀ s : NatSet, n ∈ ns.foldl insert s ↔ n ∈ s ∨ n ∈ ns := by
    induction ns with
    | nil => simp
    | cons m ns ih =>
      intro s
      rw [List.foldl_cons, ih, mem_insert, List.mem_cons, or_assoc]
  rw [ofList, general]
  simp

/-- Members lie below the bound. -/
theorem lt_bound_of_mem {s : NatSet} {n : Nat} (h : n ∈ s) : n < s.bound := by
  have hpos : s.bits ≠ 0 := by
    intro h0
    rw [mem_iff, h0, Nat.zero_testBit] at h
    exact Bool.false_ne_true h
  rw [bound, if_neg hpos]
  have hle : 2 ^ n ≤ s.bits := Nat.ge_two_pow_of_testBit h
  have hlog : n ≤ s.bits.log2 := (Nat.le_log2 hpos).2 hle
  omega

/-- The list of a set holds its members. -/
@[simp] theorem mem_toList (s : NatSet) (n : Nat) : n ∈ s.toList ↔ n ∈ s := by
  rw [toList, List.mem_filter, List.mem_range]
  exact ⟨fun h => h.2, fun h => ⟨lt_bound_of_mem h, h⟩⟩

/-- A set is empty if no number is a member. -/
theorem isEmpty_iff (s : NatSet) : s.isEmpty = true ↔ s = empty := by
  cases s with
  | mk bits => simp [isEmpty, empty]

/-- Sets with the same members are equal. -/
theorem ext {s t : NatSet} (h : ∀ n, n ∈ s ↔ n ∈ t) : s = t := by
  cases s with
  | mk a =>
    cases t with
    | mk b =>
      congr
      apply Nat.eq_of_testBit_eq
      intro n
      have hn := h n
      simp only [mem_iff] at hn
      cases ha : a.testBit n <;> cases hb : b.testBit n <;> simp_all

end NatSet

end ShellCompletion
