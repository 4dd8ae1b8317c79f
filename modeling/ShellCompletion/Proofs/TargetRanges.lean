import Mathlib.Order.Bounds.Defs
import ShellCompletion.Automaton.Minimization
import ShellCompletion.Proofs.RangeSearch
import ShellCompletion.Proofs.Runs

/-!
# Transitions whose targets lie in a range

The image of an automaton lists its transitions and those to the dead state that are missing in its rows,
each once and in ascending order of the targets. Transitions into a group of states are looked for in the
range from the least to the greatest state of the group. In every list that is sorted by targets the range
search finds exactly the stretch of the transitions whose targets lie in the range, so no transition into
the group is left out.
-/

namespace ShellCompletion.Automaton

variable {α : Type} [DecidableEq α] (a : Automaton α)

/-- The image of an automaton holds the transitions of its rows and those that are missing. -/
theorem mem_image (t : Transition α) :
    t ∈ a.image.toList ↔ t.source ∈ a.rows.keys ∧ (a.next? t.source t.symbol = some t.target ∨
      t.symbol ∈ a.symbols.toList ∧ a.next? t.source t.symbol = none ∧ t.target = deadState) := by
  simp only [image, List.mem_mergeSort, List.mem_flatMap, List.mem_append, List.mem_map,
    List.mem_filter, Prod.exists, OrderedMap.mem_entries_iff, Bool.not_eq_true',
    OrderedMap.contains, Option.isSome_eq_false_iff, Option.isNone_iff_eq_none]
  constructor
  · rintro ⟨s, row, hrow, ⟨c, target, hentry, rfl⟩ | ⟨c, ⟨hc, hmissing⟩, rfl⟩⟩
    · exact ⟨(a.rows.mem_keys_iff s).mpr ⟨row, hrow⟩, .inl (by simp [next?, hrow, hentry])⟩
    · exact ⟨(a.rows.mem_keys_iff s).mpr ⟨row, hrow⟩, .inr ⟨hc, by simp [next?, hrow, hmissing], rfl⟩⟩
  · rintro ⟨hs, ht⟩
    obtain ⟨row, hrow⟩ := (a.rows.mem_keys_iff t.source).mp hs
    simp only [next?, hrow, Option.bind_some] at ht
    refine ⟨t.source, row, hrow, ?_⟩
    rcases ht with hentry | ⟨hc, hmissing, hdead⟩
    · exact .inl ⟨t.symbol, t.target, hentry, rfl⟩
    · exact .inr ⟨t.symbol, ⟨hc, hmissing⟩, by rw [← hdead]⟩

/-- The transitions of a row, and those to the dead state that the row lacks. -/
def completedRow (r : ℕ × OrderedMap α ℕ) : List (Transition α) :=
  r.2.entries.map (fun e => ⟨r.1, e.1, e.2⟩) ++
    (a.symbols.toList.filter (!r.2.contains ·)).map fun symbol => ⟨r.1, symbol, deadState⟩

/-- The transitions of a completed row leave its state. -/
theorem source_of_mem_completedRow {r : ℕ × OrderedMap α ℕ} {t : Transition α}
    (h : t ∈ a.completedRow r) : t.source = r.1 := by
  rcases List.mem_append.mp h with h | h
  · obtain ⟨e, -, rfl⟩ := List.mem_map.mp h
    rfl
  · obtain ⟨c, -, rfl⟩ := List.mem_map.mp h
    rfl

/-- No symbol of a row is both given and missing, so a row is completed without repetition. -/
theorem nodup_completedRow (r : ℕ × OrderedMap α ℕ) : (a.completedRow r).Nodup := by
  refine List.Nodup.append ?_ ?_ ?_
  · refine (r.2.nodup.of_map _).map_on fun e _ e' _ h => ?_
    rw [Transition.mk.injEq] at h
    exact Prod.ext h.2.1 h.2.2
  · refine (a.symbols.nodup.filter _).map fun c c' h => ?_
    rw [Transition.mk.injEq] at h
    exact h.2.1
  · intro t hgiven hmissing
    obtain ⟨e, he, rfl⟩ := List.mem_map.mp hgiven
    obtain ⟨c, hc, h⟩ := List.mem_map.mp hmissing
    rw [Transition.mk.injEq] at h
    have hkey : e.1 ∈ r.2.keys := List.mem_map_of_mem he
    rw [← h.2.1, ← OrderedMap.contains_iff] at hkey
    simp [hkey] at hc

/-- The image has the transitions of all completed rows. -/
theorem perm_image : a.image.toList.Perm (a.rows.entries.flatMap a.completedRow) :=
  List.mergeSort_perm _ _

/-- The image of an automaton holds each transition once. -/
theorem nodup_image : a.image.toList.Nodup := by
  rw [a.perm_image.nodup_iff, List.nodup_flatMap]
  refine ⟨fun r _ => a.nodup_completedRow r, ?_⟩
  -- Rows are completed apart from each other because they have different sources.
  refine (List.pairwise_map.mp a.rows.nodup).imp fun {r r'} hne t ht ht' => hne ?_
  rw [← a.source_of_mem_completedRow ht, ← a.source_of_mem_completedRow ht']

/-- Transitions in ascending order of their targets. -/
def SortedByTarget (transitions : Array (Transition α)) : Prop :=
  transitions.toList.Pairwise fun s t => s.target ≤ t.target

omit [DecidableEq α] in
/-- The targets of sorted transitions are ascending. -/
theorem SortedByTarget.ascending {transitions : Array (Transition α)}
    (h : SortedByTarget transitions) : Range.Ascending (transitions.map (·.target)) := by
  intro i j ki kj hij hi hj
  rw [Array.getElem?_map, Option.map_eq_some_iff] at hi hj
  obtain ⟨s, hs, rfl⟩ := hi
  obtain ⟨t, ht, rfl⟩ := hj
  rw [← Array.getElem?_toList] at hs ht
  obtain ⟨hilt, rfl⟩ := List.getElem?_eq_some_iff.mp hs
  obtain ⟨hjlt, rfl⟩ := List.getElem?_eq_some_iff.mp ht
  rcases Nat.lt_or_eq_of_le hij with hij | rfl
  · exact List.pairwise_iff_getElem.mp h i j hilt hjlt hij
  · exact le_rfl

/-- The image of an automaton is in ascending order of its targets. -/
theorem sortedByTarget_image : SortedByTarget a.image := by
  have htrans : ∀ s t u : Transition α, decide (s.target ≤ t.target) = true →
      decide (t.target ≤ u.target) = true → decide (s.target ≤ u.target) = true := by
    intro s t u hst htu
    simp only [decide_eq_true_eq] at *
    omega
  have htotal : ∀ s t : Transition α,
      (decide (s.target ≤ t.target) || decide (t.target ≤ s.target)) = true := by
    intro s t
    simp only [Bool.or_eq_true, decide_eq_true_eq]
    omega
  simpa [SortedByTarget, image] using List.pairwise_mergeSort htrans htotal _

/-- The stretch of a list in which exactly the members with a property stand is what a filter by the
property leaves. -/
theorem take_drop_eq_filter {β : Type} (P : β → Bool) (xs : List β) (i j : ℕ)
    (h : ∀ k x, xs[k]? = some x → (i ≤ k ∧ k < j ↔ P x = true)) :
    (xs.drop i).take (j - i) = xs.filter P := by
  induction xs generalizing i j with
  | nil => simp
  | cons x xs ih =>
    have hx := h 0 x (by simp)
    have htail : ∀ i' j', (∀ k, i' ≤ k ∧ k < j' ↔ i ≤ k + 1 ∧ k + 1 < j) →
        (xs.drop i').take (j' - i') = xs.filter P := fun i' j' hij =>
      ih i' j' fun k y hy => (hij k).trans (h (k + 1) y (by simpa using hy))
    cases i with
    | zero =>
      cases j with
      | zero =>
        rw [List.filter_cons_of_neg (by simp [← hx])]
        exact htail 0 0 fun k => by omega
      | succ j =>
        rw [List.filter_cons_of_pos (by simp [← hx]), ← htail 0 j fun k => by omega]
        simp
    | succ i =>
      rw [List.filter_cons_of_neg (by simp [← hx]), ← htail i (j - 1) fun k => by omega,
        List.drop_succ_cons]
      congr 1
      omega

omit [DecidableEq α] in
/-- The places that the range search finds among sorted transitions are those of the transitions whose
targets lie between two states. -/
theorem bounds_targets_eq_some {transitions : Array (Transition α)} (h : SortedByTarget transitions)
    {low high first behind : ℕ}
    (hbounds : Range.bounds (transitions.map (·.target)) low high = some (first, behind)) :
    first < behind ∧ behind ≤ transitions.size ∧ (transitions.extract first behind).toList =
      transitions.toList.filter fun t => decide (low ≤ t.target ∧ t.target ≤ high) := by
  obtain ⟨hlt, hle, hspec⟩ := Range.bounds_eq_some h.ascending hbounds
  refine ⟨hlt, by simpa using hle, ?_⟩
  rw [Array.toList_extract, List.extract_eq_take_drop]
  refine take_drop_eq_filter _ _ _ _ fun k t ht => ?_
  rw [hspec k t.target (by rw [Array.getElem?_map, ← Array.getElem?_toList, ht]; rfl),
    decide_eq_true_eq]

omit [DecidableEq α] in
/-- The range search finds no place exactly if no target lies between two states. -/
theorem bounds_targets_eq_none_iff {transitions : Array (Transition α)}
    (h : SortedByTarget transitions) {low high : ℕ} :
    Range.bounds (transitions.map (·.target)) low high = none ↔
      ∀ t ∈ transitions, ¬ (low ≤ t.target ∧ t.target ≤ high) := by
  rw [Range.bounds_eq_none_iff h.ascending]
  constructor
  · intro hnone t ht
    obtain ⟨k, hk⟩ := Array.mem_iff_getElem?.mp ht
    exact hnone k t.target (by rw [Array.getElem?_map, hk]; rfl)
  · intro hnone k key hkey
    rw [Array.getElem?_map, Option.map_eq_some_iff] at hkey
    obtain ⟨t, ht, rfl⟩ := hkey
    exact hnone t (Array.mem_of_getElem? ht)

omit [DecidableEq α] in
/-- The range search finds all transitions whose targets lie between two states. -/
theorem toList_between {transitions : Array (Transition α)} (h : SortedByTarget transitions)
    (low high : ℕ) : (between transitions low high).toList =
      transitions.toList.filter fun t => decide (low ≤ t.target ∧ t.target ≤ high) := by
  unfold between
  split
  · next first behind hbounds => exact (bounds_targets_eq_some h hbounds).2.2
  · next hbounds =>
    symm
    rw [List.filter_eq_nil_iff]
    intro t ht
    rw [decide_eq_true_eq]
    exact (bounds_targets_eq_none_iff h).mp hbounds t (Array.mem_toList_iff.mp ht)

/-- A transition that an automaton lacks: from a state with a row, by a symbol for which the row has no
entry, to the dead state. -/
structure Missing (t : Transition α) : Prop where
  source_row : t.source ∈ a.rows.keys
  symbol_mem : t.symbol ∈ a.symbols.toList
  next?_eq_none : a.next? t.source t.symbol = none
  target_dead : t.target = deadState

/-- The image has the transitions of the automaton and those that are missing in it. -/
theorem mem_image_iff_missing (t : Transition α) :
    t ∈ a.image.toList ↔ t ∈ a.transitions ∨ a.Missing t := by
  rw [mem_image, mem_transitions]
  constructor
  · rintro ⟨hs, hnext | ⟨hc, hnext, hdead⟩⟩
    · exact .inl hnext
    · exact .inr ⟨hs, hc, hnext, hdead⟩
  · rintro (hnext | ⟨hs, hc, hnext, hdead⟩)
    · exact ⟨a.mem_keys_of_next? hnext, .inl hnext⟩
    · exact ⟨hs, .inr ⟨hc, hnext, hdead⟩⟩

/-- Every transition of an image into a group lies in the range from the least to the greatest state of
the group. -/
theorem mem_between_image {group : NatSet} {low high : ℕ}
    (hlow : ∀ n ∈ group, low ≤ n) (hhigh : ∀ n ∈ group, n ≤ high) {t : Transition α}
    (ht : t.target ∈ group) : t ∈ between a.image low high ↔ t ∈ a.image.toList := by
  rw [← Array.mem_toList_iff, toList_between a.sortedByTarget_image, List.mem_filter,
    decide_eq_true_eq]
  exact and_iff_left ⟨hlow _ ht, hhigh _ ht⟩

/-- The range search is exact. Among transitions that are sorted by their targets it finds no place if no
target lies in the range, and else the stretch of all transitions whose targets do. Over the image of an
automaton and the range of a group that is not empty, it finds each transition into the group once, those
to the dead state that are missing in the rows included. -/
theorem range_search_exact :
    (∀ (transitions : Array (Transition α)) (low high : ℕ), SortedByTarget transitions →
      (Range.bounds (transitions.map (·.target)) low high = none ↔
        ∀ t ∈ transitions, ¬ (low ≤ t.target ∧ t.target ≤ high)) ∧
      ∀ first behind, Range.bounds (transitions.map (·.target)) low high = some (first, behind) →
        first < behind ∧ behind ≤ transitions.size ∧
          between transitions low high = transitions.extract first behind ∧
          (transitions.extract first behind).toList =
            transitions.toList.filter fun t => decide (low ≤ t.target ∧ t.target ≤ high)) ∧
    ∀ (a : Automaton α) (group : NatSet), group.isEmpty = false → SortedByTarget a.image ∧
      ∃ low high, group.min? = some low ∧ IsLeast {n | n ∈ group} low ∧
        group.max? = some high ∧ IsGreatest {n | n ∈ group} high ∧
        (between a.image low high).toList.Nodup ∧ ∀ t : Transition α, t.target ∈ group →
          (t ∈ between a.image low high ↔ t ∈ a.transitions ∨ a.Missing t) := by
  constructor
  · intro transitions low high hsorted
    refine ⟨bounds_targets_eq_none_iff hsorted, fun first behind hbounds => ?_⟩
    obtain ⟨hlt, hle, hfilter⟩ := bounds_targets_eq_some hsorted hbounds
    exact ⟨hlt, hle, by rw [between, hbounds], hfilter⟩
  · intro a group hgroup
    obtain ⟨n, hn⟩ := (group.isEmpty_eq_false_iff).mp hgroup
    obtain ⟨low, hmin, hlow, hleast⟩ := NatSet.exists_min? hn
    obtain ⟨high, hmax, hhigh, hgreatest⟩ := NatSet.exists_max? hn
    refine ⟨a.sortedByTarget_image, low, high, hmin, ⟨hlow, hleast⟩, hmax, ⟨hhigh, hgreatest⟩, ?_,
      fun t ht => ?_⟩
    · rw [toList_between a.sortedByTarget_image]
      exact a.nodup_image.filter _
    · rw [a.mem_between_image hleast hgreatest ht, mem_image_iff_missing]

/-- Sorted transitions, of which some have the same target. -/
def sharedTargets : Array (Transition Char) :=
  #[⟨1, 'a', 0⟩, ⟨2, 'a', 2⟩, ⟨3, 'b', 2⟩, ⟨1, 'b', 3⟩, ⟨2, 'b', 5⟩]

/-- Two states, each of which lacks one of two symbols. -/
def alternation : Automaton Char := .ofTransitions 1 [⟨1, 'a', 2⟩, ⟨2, 'b', 1⟩] [2] []

/-- A range with several targets, one without any, and one that takes in the dead state. -/
theorem range_search_sharedTargets :
    (Range.bounds (sharedTargets.map (·.target)) 2 4 = some (1, 4) ∧
      between sharedTargets 2 4 = sharedTargets.extract 1 4 ∧
      (sharedTargets.extract 1 4).toList =
        sharedTargets.toList.filter fun t => decide (2 ≤ t.target ∧ t.target ≤ 4)) ∧
    Range.bounds (sharedTargets.map (·.target)) 4 4 = none ∧
    ⟨1, 'a', 2⟩ ∈ between alternation.image 0 2 ∧ ⟨1, 'b', 0⟩ ∈ between alternation.image 0 2 ∧
    ⟨2, 'a', 0⟩ ∈ between alternation.image 0 2 := by
  have hsorted : SortedByTarget sharedTargets := by
    unfold SortedByTarget
    decide
  have htargets : sharedTargets.map (·.target) = #[0, 2, 2, 3, 5] := by simp [sharedTargets]
  have hbounds : Range.bounds (sharedTargets.map (·.target)) 2 4 = some (1, 4) := by
    rw [htargets]
    decide
  obtain ⟨hsearch, himage⟩ := range_search_exact (α := Char)
  obtain ⟨-, -, hbetween, hfilter⟩ := (hsearch sharedTargets 2 4 hsorted).2 1 4 hbounds
  have hnone := (hsearch sharedTargets 4 4 hsorted).1.mpr (by decide)
  obtain ⟨-, low, high, hlow, -, hhigh, -, -, hmem⟩ :=
    himage alternation (.ofList [0, 2]) (by decide)
  obtain rfl : 0 = low := Option.some.inj hlow
  obtain rfl : 2 = high := Option.some.inj hhigh
  refine ⟨⟨hbounds, hbetween, hfilter⟩, hnone, ?_, ?_, ?_⟩
  · exact (hmem ⟨1, 'a', 2⟩ (by decide)).mpr (.inl (by decide))
  · exact (hmem ⟨1, 'b', 0⟩ (by decide)).mpr (.inr ⟨by decide, by decide, by decide, rfl⟩)
  · exact (hmem ⟨2, 'a', 0⟩ (by decide)).mpr (.inr ⟨by decide, by decide, by decide, rfl⟩)

end ShellCompletion.Automaton
