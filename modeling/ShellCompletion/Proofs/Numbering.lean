import ShellCompletion.Proofs.Minimality
import ShellCompletion.Proofs.RowOrder

/-!
# The numbering of a minimized automaton

Minimization numbers states in the order in which they appear in the transitions that it keeps. This is
the order in which a search from the start finds them, with the rows in ascending order, exactly if the
sources of these transitions are entered in ascending order. They are if refinement leaves the blocks that
whole rounds leave: the automaton of positions is numbered in this way, and merging then keeps for each
transition one that comes no later and leads into the same block.
-/

namespace ShellCompletion.Automaton

open Refinement

variable {α : Type}

section Appearance

variable {start : ℕ} {ts : List (Transition α)}

/-- A state appears at its place. -/
theorem getElem?_place {s : ℕ} (hs : s ∈ (appearances start ts).toList) :
    (appearances start ts).toList[place start ts s]? = some s := by
  obtain ⟨i, hi, hget⟩ := OrderedSet.exists_indexOf? hs
  rw [place, hi, Option.getD_some, hget]

/-- A state has the place at which it appears first. -/
theorem place_eq_iff {s n : ℕ} (hs : s ∈ (appearances start ts).toList) :
    place start ts s = n ↔ (appearances start ts).toList[n]? = some s := by
  have hget := getElem?_place hs
  have hlt := (List.getElem?_eq_some_iff.mp hget).1
  rw [← hget, eq_comm (a := (appearances start ts).toList[n]?),
    List.getElem?_inj hlt (appearances start ts).nodup]

/-- The numbers of the states that appear are those below their number. -/
theorem exists_place_iff (n : ℕ) : (∃ s ∈ (appearances start ts).toList, place start ts s = n) ↔
    n < (appearances start ts).toList.length := by
  constructor
  · rintro ⟨s, hs, rfl⟩
    exact (List.getElem?_eq_some_iff.mp (getElem?_place hs)).1
  · intro hn
    have hmem := List.getElem_mem hn
    exact ⟨_, hmem, (place_eq_iff hmem).mpr (List.getElem?_eq_getElem hn)⟩

/-- The start appears first. -/
theorem place_start : place start ts start = 0 := by
  rw [place_eq_iff ((mem_appearances start ts start).mpr (.inl rfl))]
  obtain ⟨rest, hrest⟩ := OrderedSet.toList_foldl_insert (OrderedSet.ofList [start])
    (ts.flatMap fun t => [t.source, t.target])
  rw [← OrderedSet.ofList_append, List.singleton_append] at hrest
  rw [appearances, ← hrest]
  rfl

/-- A state has a smaller number than another one if it appears earlier. -/
theorem place_lt_iff {s u : ℕ} (hs : s ∈ (appearances start ts).toList)
    (hu : u ∈ (appearances start ts).toList) : place start ts s < place start ts u ↔
      Precedes (start :: ts.flatMap fun t => [t.source, t.target]) s u := by
  rw [← Precedes.iff_lt (appearances start ts).nodup (getElem?_place hs) (getElem?_place hu)]
  exact ⟨Precedes.of_ofList, Precedes.ofList⟩

/-- Under new numbers the states appear in ascending order. -/
theorem toList_appearances_renumbered : (appearances 0 (renumbered start ts)).toList =
    List.range (appearances start ts).toList.length := by
  have hmap : (0 :: (renumbered start ts).flatMap fun t => [t.source, t.target]) =
      (start :: ts.flatMap fun t => [t.source, t.target]).map (place start ts) := by
    rw [List.map_cons, place_start, List.map_flatMap, renumbered, List.flatMap_map]
    rfl
  have happears : ∀ s, s ∈ (start :: ts.flatMap fun t => [t.source, t.target]) ↔
      s ∈ (appearances start ts).toList := fun s => (OrderedSet.mem_ofList _ s).symm
  refine toList_ofList_eq_range (fun k => ?_) ?_
  · rw [hmap, List.mem_map, ← exists_place_iff]
    simp only [happears]
  · intro k hk j hj
    rw [hmap] at hk ⊢
    obtain ⟨u, hu, rfl⟩ := List.mem_map.mp hk
    rw [happears] at hu
    have hlt := (exists_place_iff _).mp ⟨u, hu, rfl⟩
    obtain ⟨s, hs, rfl⟩ := (exists_place_iff j).mpr (hj.trans hlt)
    have hprecedes := (place_lt_iff hs hu).mp hj
    intro front' back' hsplit'
    obtain ⟨front, rest, hsplit, rfl, hrest⟩ := List.map_eq_append_iff.mp hsplit'
    obtain ⟨v, back, rfl, hv, -⟩ := List.map_eq_cons_iff.mp hrest
    have hv' : v ∈ (appearances start ts).toList := by
      rw [← happears, hsplit]
      simp
    obtain rfl := place_inj hv' hu hv
    exact List.mem_map_of_mem (hprecedes front back hsplit)

/-- In a renumbered automaton every state is its own place. -/
theorem place_renumbered {n : ℕ} (hn : n < (appearances start ts).toList.length) :
    place 0 (renumbered start ts) n = n := by
  have hmem : n ∈ (appearances 0 (renumbered start ts)).toList := by
    rw [toList_appearances_renumbered, List.mem_range]
    exact hn
  rw [place_eq_iff hmem, toList_appearances_renumbered]
  simp [hn]

/-- Where a state appears it is the source or the target of a transition. -/
theorem exists_split_of_flatMap {front back : List ℕ} {s : ℕ}
    (h : (ts.flatMap fun t => [t.source, t.target]) = front ++ s :: back) :
    ∃ before t after, ts = before ++ t :: after ∧
      (s = t.source ∧ front = before.flatMap (fun t => [t.source, t.target]) ∨
        s = t.target ∧ front = before.flatMap (fun t => [t.source, t.target]) ++ [t.source]) := by
  induction ts generalizing front with
  | nil => simp at h
  | cons t ts ih =>
    rw [List.flatMap_cons, List.cons_append, List.singleton_append] at h
    cases front with
    | nil =>
      rw [List.nil_append, List.cons.injEq] at h
      exact ⟨[], t, ts, rfl, .inl ⟨h.1.symm, rfl⟩⟩
    | cons source front =>
      rw [List.cons_append, List.cons.injEq] at h
      obtain ⟨rfl, h⟩ := h
      cases front with
      | nil =>
        rw [List.nil_append, List.cons.injEq] at h
        exact ⟨[], t, ts, rfl, .inr ⟨h.1.symm, rfl⟩⟩
      | cons target front =>
        rw [List.cons_append, List.cons.injEq] at h
        obtain ⟨rfl, h⟩ := h
        obtain ⟨before, u, after, rfl, hfront⟩ := ih h
        refine ⟨t :: before, u, after, rfl, ?_⟩
        rcases hfront with ⟨hs, rfl⟩ | ⟨hs, rfl⟩
        · exact .inl ⟨hs, by simp⟩
        · exact .inr ⟨hs, by simp⟩

end Appearance

section Entering

/-- Whether the given states are entered in ascending order: a transition leads to each of them before
those from it and those to a greater one. -/
def EntersInOrder (start : ℕ) (ts : List (Transition α)) (given : ℕ → Prop) : Prop :=
  ∀ before t after, ts = before ++ t :: after → ∀ s, given s →
    s = t.source ∨ s < t.target ∧ given t.target → s ∈ start :: before.map (·.target)

variable {start : ℕ} {ts : List (Transition α)}

/-- What has been entered has appeared. -/
theorem mem_appeared {before : List (Transition α)} {s : ℕ} (h : s ∈ start :: before.map (·.target)) :
    s ∈ start :: before.flatMap fun t => [t.source, t.target] := by
  rcases List.mem_cons.mp h with rfl | h
  · exact List.mem_cons_self ..
  · obtain ⟨t, ht, rfl⟩ := List.mem_map.mp h
    exact List.mem_cons_of_mem _ (List.mem_flatMap.mpr ⟨t, ht, by simp⟩)

namespace EntersInOrder

variable (h : EntersInOrder start ts (· ∈ ts.map (·.source)))
include h

/-- A transition leaves a state that has appeared before it. -/
theorem source_mem {before after : List (Transition α)} {t : Transition α}
    (hsplit : ts = before ++ t :: after) : t.source ∈ start :: before.map (·.target) :=
  h before t after hsplit t.source (by simp [hsplit]) (.inl rfl)

/-- What has appeared before the target of a transition has been entered before it. -/
theorem mem_of_appeared {before after : List (Transition α)} {t : Transition α}
    (hsplit : ts = before ++ t :: after) {s : ℕ}
    (hs : s ∈ start :: (before.flatMap (fun t => [t.source, t.target]) ++ [t.source])) :
    s ∈ start :: before.map (·.target) := by
  rw [List.mem_cons, List.mem_append, List.mem_singleton] at hs
  rcases hs with rfl | hs | rfl
  · exact List.mem_cons_self ..
  · obtain ⟨u, hu, hs⟩ := List.mem_flatMap.mp hs
    have hends : s = u.source ∨ s = u.target := by simpa using hs
    obtain ⟨first, rest, rfl⟩ := List.append_of_mem hu
    rcases hends with rfl | rfl
    · rw [List.append_assoc, List.cons_append] at hsplit
      have hfirst := h.source_mem hsplit
      rw [List.map_append]
      exact List.mem_append_left _ hfirst
    · simp
  · exact h.source_mem hsplit

/-- Sources appear in ascending order, if the start is the least one. -/
theorem precedes (hstart : ∀ t ∈ ts, start ≤ t.source) {s u : ℕ} (hs : s ∈ ts.map (·.source))
    (hu : u ∈ ts.map (·.source)) (hlt : s < u) :
    Precedes (start :: ts.flatMap fun t => [t.source, t.target]) s u := by
  have hne : u ≠ start := by
    obtain ⟨t, ht, rfl⟩ := List.mem_map.mp hs
    have hle := hstart t ht
    omega
  -- Before a transition to the greater source the smaller one has been entered.
  have htarget : ∀ before t after, ts = before ++ t :: after → t.target = u →
      s ∈ start :: before.map (·.target) := by
    rintro before t after hsplit rfl
    exact h before t after hsplit s hs (.inr ⟨hlt, hu⟩)
  intro front back hfront
  cases front with
  | nil => exact (hne (List.cons.inj hfront).1.symm).elim
  | cons first front =>
    rw [List.cons_append, List.cons.injEq] at hfront
    obtain ⟨rfl, hfront⟩ := hfront
    obtain ⟨before, t, after, hsplit, hwhere⟩ := exists_split_of_flatMap hfront
    rcases hwhere with ⟨rfl, rfl⟩ | ⟨rfl, rfl⟩
    · have hentered := (List.mem_cons.mp (h.source_mem hsplit)).resolve_left hne
      obtain ⟨v, hv, heq⟩ := List.mem_map.mp hentered
      obtain ⟨early, late, rfl⟩ := List.append_of_mem hv
      have hs := htarget early v (late ++ t :: after) (by rw [hsplit]; simp) heq
      have happeared := mem_appeared hs
      rw [List.flatMap_append]
      exact List.mem_append_left _ happeared
    · have happeared := mem_appeared (htarget before t after hsplit rfl)
      exact List.mem_append_left _ happeared

end EntersInOrder

/-- What ascends along transitions that stand in ascending order of sources ascends with the sources. -/
theorem le_of_source_lt {f : Transition α → ℕ} (hsorted : ts.Pairwise fun t u => t.source ≤ u.source)
    (hascending : ts.Pairwise fun t u => f t ≤ f u) {u v : Transition α} (hu : u ∈ ts) (hv : v ∈ ts)
    (hlt : u.source < v.source) : f u ≤ f v := by
  obtain ⟨first, rest, rfl⟩ := List.append_of_mem hu
  have hboth := hsorted.and hascending
  rw [List.pairwise_append, List.pairwise_cons] at hboth
  rw [List.mem_append, List.mem_cons] at hv
  rcases hv with hv | rfl | hv
  · have hback := (hboth.2.2 v hv u (by simp)).1
    omega
  · omega
  · exact (hboth.2.1.1 v hv).2

/-- What is entered under new numbers are the new numbers of what is entered. -/
theorem map_place_entered (before : List (Transition α)) :
    0 :: (before.map fun t => (⟨place start ts t.source, t.symbol, place start ts t.target⟩ :
      Transition α)).map (·.target) = (start :: before.map (·.target)).map (place start ts) := by
  rw [List.map_cons, place_start, List.map_map, List.map_map]
  rfl

/-- If the sources are entered in ascending order, they ascend under new numbers too. -/
theorem EntersInOrder.pairwise_renumbered (h : EntersInOrder start ts (· ∈ ts.map (·.source)))
    (hsorted : ts.Pairwise fun t u => t.source ≤ u.source) (hstart : ∀ t ∈ ts, start ≤ t.source) :
    (renumbered start ts).Pairwise fun t u => t.source ≤ u.source := by
  rw [renumbered, List.pairwise_map]
  refine hsorted.imp_of_mem fun {t u} ht hu hle => ?_
  rcases lt_or_eq_of_le hle with hlt | heq
  · have hprecedes := h.precedes hstart (List.mem_map_of_mem ht) (List.mem_map_of_mem hu) hlt
    exact ((place_lt_iff (source_mem_appearances ht) (source_mem_appearances hu)).mpr hprecedes).le
  · exact le_of_eq (congrArg (place start ts) heq)

/-- If the sources are entered in ascending order, so are all states under new numbers. -/
theorem EntersInOrder.entersInOrder_renumbered (h : EntersInOrder start ts (· ∈ ts.map (·.source))) :
    EntersInOrder 0 (renumbered start ts) (· < (appearances start ts).toList.length) := by
  intro before' t' after' hsplit' n hn hcase
  obtain ⟨before, rest, hsplit, rfl, hrest⟩ := List.map_eq_append_iff.mp hsplit'
  obtain ⟨t, after, rfl, rfl, rfl⟩ := List.map_eq_cons_iff.mp hrest
  obtain ⟨s, hs, rfl⟩ := (exists_place_iff n).mpr hn
  have ht : t ∈ ts := by simp [hsplit]
  rw [map_place_entered]
  refine List.mem_map_of_mem (h.mem_of_appeared hsplit ?_)
  rcases hcase with heq | ⟨hlt, -⟩
  · have hsame := place_inj hs (source_mem_appearances ht) heq
    simp [hsame]
  · refine (place_lt_iff hs (target_mem_appearances ht)).mp hlt _
      (after.flatMap fun t => [t.source, t.target]) ?_
    simp [hsplit]

/-- Conversely, if the sources ascend under new numbers and all states are entered in ascending order. -/
theorem entersInOrder_of_renumbered (hsorted : ts.Pairwise fun t u => t.source ≤ u.source)
    (hascending : (renumbered start ts).Pairwise fun t u => t.source ≤ u.source)
    (h : EntersInOrder 0 (renumbered start ts) (· < (appearances start ts).toList.length)) :
    EntersInOrder start ts (· ∈ ts.map (·.source)) := by
  intro before t after hsplit s hs hcase
  obtain ⟨u, hu, rfl⟩ := List.mem_map.mp hs
  have ht : t ∈ ts := by simp [hsplit]
  have hcase' : place start ts u.source = place start ts t.source ∨
      place start ts u.source < place start ts t.target := by
    rcases hcase with heq | ⟨hlt, hhead⟩
    · exact .inl (congrArg (place start ts) heq)
    · rw [renumbered, List.pairwise_map] at hascending
      obtain ⟨v, hv, hvt⟩ := List.mem_map.mp hhead
      have hle := le_of_source_lt hsorted hascending hu hv (by omega)
      rw [hvt] at hle
      refine .inr (lt_of_le_of_ne hle fun heq => ?_)
      have hsame := place_inj (source_mem_appearances hu) (target_mem_appearances ht) heq
      omega
  have hbound : ∀ {s}, s ∈ (appearances start ts).toList →
      place start ts s < (appearances start ts).toList.length := fun hs =>
    (exists_place_iff _).mp ⟨_, hs, rfl⟩
  have hsplit' := congrArg (List.map fun t =>
    (⟨place start ts t.source, t.symbol, place start ts t.target⟩ : Transition α)) hsplit
  rw [List.map_append, List.map_cons] at hsplit'
  have hmem := h _ _ _ hsplit' _ (hbound (source_mem_appearances hu))
    (hcase'.imp_right fun hlt => ⟨hlt, hbound (target_mem_appearances ht)⟩)
  rw [map_place_entered] at hmem
  obtain ⟨s, hs, heq⟩ := List.mem_map.mp hmem
  have hs' : s ∈ (appearances start ts).toList := by
    rcases List.mem_cons.mp hs with rfl | hs
    · exact (mem_appearances s ts s).mpr (.inl rfl)
    · obtain ⟨v, hv, rfl⟩ := List.mem_map.mp hs
      exact target_mem_appearances (by simp [hsplit, hv])
  exact place_inj hs' (source_mem_appearances hu) heq ▸ hs

/-- If transitions stand in ascending order of sources and the start is the least one, the sources are
entered in ascending order exactly if, under new numbers, the transitions stand in ascending order as well
and all states are entered in ascending order. -/
theorem entersInOrder_iff (hsorted : ts.Pairwise fun t u => t.source ≤ u.source)
    (hstart : ∀ t ∈ ts, start ≤ t.source) :
    EntersInOrder start ts (· ∈ ts.map (·.source)) ↔
      (renumbered start ts).Pairwise (fun t u => t.source ≤ u.source) ∧
        EntersInOrder 0 (renumbered start ts) (· < (appearances start ts).toList.length) := by
  constructor
  · intro h
    exact ⟨h.pairwise_renumbered hsorted hstart, h.entersInOrder_renumbered⟩
  · rintro ⟨hascending, h⟩
    exact entersInOrder_of_renumbered hsorted hascending h

end Entering

section Search

variable [DecidableEq α]

/-- Whether the states are numbered from zero in the order in which a search from the start finds them,
first in, first out and in the order of the symbols, and the rows stand in ascending order. -/
structure Canonical (a : Automaton α) (n : ℕ) : Prop where
  start : a.start = 0
  occurs : ∀ s, a.Occurs s ↔ s < n
  reached : ∀ s < n, ∃ word, a.run? a.start word = some s
  found : Positions.reachable a.successors n [] [a.start] = some (List.range n)
  rows : a.rows.keys.Pairwise (· < ·)

variable {a : Automaton α} {n : ℕ}

/-- The numbers that a search takes up are met in ascending order exactly if they are entered so. -/
theorem meetsInOrder_iff (hoccurs : ∀ s, a.Occurs s ↔ s < n)
    (hsteps : Positions.steps a.successors (List.range n) =
      a.transitions.map fun t => (t.source, t.target)) :
    Positions.MeetsInOrder a.successors n ↔ EntersInOrder 0 a.transitions (· < n) := by
  constructor
  · intro h before t after hsplit s hs hcase
    have hsplit' : Positions.steps a.successors (List.range n) =
        before.map (fun t => (t.source, t.target)) ++ (t.source, t.target) ::
          after.map fun t => (t.source, t.target) := by
      rw [hsteps, hsplit, List.map_append, List.map_cons]
    have hmem := h _ _ _ _ hsplit' s hs (hcase.imp_right And.left)
    rw [List.map_map] at hmem
    exact hmem
  · intro h before' after' b c hsplit' s hs hcase
    rw [hsteps] at hsplit'
    obtain ⟨before, rest, hsplit, rfl, hrest⟩ := List.map_eq_append_iff.mp hsplit'
    obtain ⟨t, after, rfl, ht, rfl⟩ := List.map_eq_cons_iff.mp hrest
    cases ht
    have htarget : t.target < n := (hoccurs _).mp (.inr ⟨t, by simp [hsplit], .inr rfl⟩)
    have hmem := h before t after hsplit s hs (hcase.imp_right fun hlt => ⟨hlt, htarget⟩)
    rw [List.map_map]
    exact hmem

/-- A number is the start or the target of a transition, if all are entered in ascending order. -/
theorem lt_iff_mem_flatMap (hstart : a.start = 0) (hoccurs : ∀ s, a.Occurs s ↔ s < n)
    (hsteps : Positions.steps a.successors (List.range n) =
      a.transitions.map fun t => (t.source, t.target))
    (h : EntersInOrder 0 a.transitions (· < n)) (k : ℕ) :
    k < n ↔ k = 0 ∨ k ∈ (List.range n).flatMap a.successors := by
  have htargets : (List.range n).flatMap a.successors = a.transitions.map (·.target) := by
    rw [← Positions.map_snd_steps, hsteps, List.map_map]
    rfl
  rw [htargets]
  constructor
  · intro hk
    rcases (hoccurs k).mpr hk with rfl | ⟨t, ht, rfl | rfl⟩
    · exact .inl hstart
    · obtain ⟨before, after, hsplit⟩ := List.append_of_mem ht
      rcases List.mem_cons.mp (h before t after hsplit _ hk (.inl rfl)) with hzero | hmem
      · exact .inl hzero
      · obtain ⟨u, hu, heq⟩ := List.mem_map.mp hmem
        exact .inr (List.mem_map.mpr ⟨u, by simp [hsplit, hu], heq⟩)
    · exact .inr (List.mem_map_of_mem ht)
  · rintro (rfl | hk)
    · exact (hoccurs 0).mp (.inl hstart.symm)
    · obtain ⟨t, ht, rfl⟩ := List.mem_map.mp hk
      exact (hoccurs _).mp (.inr ⟨t, ht, .inr rfl⟩)

/-- States that are met in ascending order can be reached. -/
theorem exists_run_of_meetsInOrder (hmeets : Positions.MeetsInOrder a.successors n)
    (hmem : ∀ k, k < n ↔ k = 0 ∨ k ∈ (List.range n).flatMap a.successors) {k : ℕ} (hk : k < n) :
    ∃ word, a.run? 0 word = some k := by
  induction k using Nat.strong_induction_on with
  | _ k ih =>
    rcases List.mem_cons.mp (hmeets.mem_flatMap hmem hk) with rfl | hfrom
    · exact ⟨[], rfl⟩
    · obtain ⟨j, hj, hnext⟩ := List.mem_flatMap.mp hfrom
      rw [List.mem_range] at hj
      obtain ⟨c, -, hc⟩ := List.mem_filterMap.mp hnext
      obtain ⟨word, hword⟩ := ih j hj (hj.trans hk)
      refine ⟨word ++ [c], ?_⟩
      rw [run?_append, hword, Option.bind_some, run?, hc]
      rfl

/-- An automaton that is numbered from zero, without empty rows and with rows in the order of the symbols,
is numbered in the order of a search exactly if its transitions stand in ascending order of sources and
its states are entered in ascending order. -/
theorem canonical_iff (hstart : a.start = 0) (hoccurs : ∀ s, a.Occurs s ↔ s < n)
    (hfollows : a.FollowsSymbols) (hmoves : ∀ g ∈ a.rows.entries, g.2.entries ≠ []) :
    a.Canonical n ↔ a.transitions.Pairwise (fun t u => t.source ≤ u.source) ∧
      EntersInOrder 0 a.transitions (· < n) := by
  have hkeys : ∀ s ∈ a.rows.keys, s < n := by
    intro s hs
    obtain ⟨g, hg, rfl⟩ := List.mem_map.mp hs
    obtain ⟨e, es, he⟩ := List.exists_cons_of_ne_nil (hmoves g hg)
    refine (hoccurs _).mp (.inr ⟨⟨g.1, e.1, e.2⟩, ?_, .inl rfl⟩)
    exact List.mem_flatMap.mpr ⟨g, hg, by simp [he]⟩
  have hlength : (List.range n).length ≤ n := by rw [List.length_range]
  constructor
  · intro h
    refine ⟨pairwise_listed h.rows, ?_⟩
    have hsteps := hfollows.steps_successors h.rows hkeys
    have horder := (Positions.reachable_eq_some_iff hlength).mp h.found
    rw [← meetsInOrder_iff hoccurs hsteps]
    intro before after b c hsplit s _ hcase
    have hmem := horder.mem_of_steps hsplit (hcase.imp_right Precedes.range)
    rwa [hstart] at hmem
  · rintro ⟨hsorted, hentered⟩
    have hrows : a.rows.keys.Pairwise (· < ·) := pairwise_of_listed a.rows.nodup hmoves hsorted
    have hsteps := hfollows.steps_successors hrows hkeys
    have hmeets := (meetsInOrder_iff hoccurs hsteps).mpr hentered
    have hmem := lt_iff_mem_flatMap hstart hoccurs hsteps hentered
    refine ⟨hstart, hoccurs, ?_, ?_, hrows⟩
    · rw [hstart]
      exact fun s hs => exists_run_of_meetsInOrder hmeets hmem hs
    · rw [hstart, Positions.reachable_eq_some_iff hlength]
      exact hmeets.searchOrder hmem

end Search

section Merged

variable [DecidableEq α]

/-- What the automaton of positions has from the search that made it: rows in ascending order from the
start on, with transitions in the order of the symbols, which are entered in ascending order. -/
structure InSearchOrder (a : Automaton α) : Prop where
  follows : a.FollowsSymbols
  rows : a.rows.keys.Pairwise (· < ·)
  start_le : ∀ s ∈ a.rows.keys, a.start ≤ s
  entered : EntersInOrder a.start a.transitions (· ∈ a.rows.keys)

/-- Whether the transitions that are kept after refinement enter their sources in ascending order. -/
def KeepsOrder (a : Automaton α) : Prop := ∃ r, a.refinement = .ok r ∧
  EntersInOrder (r.rep a.start) (a.kept r).1 (· ∈ (a.kept r).1.map (·.source))

variable {a : Automaton α} {r : Refinement}

/-- The start represents its block. -/
theorem InSearchOrder.rep_start (h : a.InSearchOrder) (hcoarse : a.Coarse r) (ha : a.Trim) :
    r.rep a.start = a.start := by
  obtain ⟨B, hB, -, hmem⟩ := hcoarse.exists_block ha ha.start_row
  have hle := (representative?_eq hcoarse.partition hB hmem).2.2 _ hmem
  exact le_antisymm hle (h.start_le _ (hcoarse.represented_rep ha ha.start_row).1)

omit [DecidableEq α] in
/-- The transitions that are kept come in ascending order of their states. -/
theorem pairwise_kept (hrows : a.rows.keys.Pairwise (· < ·)) :
    (a.kept r).1.Pairwise fun t u => t.source ≤ u.source := by
  refine List.Pairwise.filter _ ?_
  rw [merged, List.pairwise_map]
  exact pairwise_listed hrows

namespace Settled

variable (h : a.Settled (fun _ => False) r) (hpending : r.pending.toList = []) (ha : a.Trim)
include h hpending ha

/-- The states of the merged automaton are numbered from zero. -/
theorem occurs_mergeBlocks (n : ℕ) : (a.mergeBlocks r).Occurs n ↔
    n < (appearances (r.rep a.start) (a.kept r).1).toList.length := by
  rw [← exists_place_iff, Occurs, h.transitions_mergeBlocks hpending ha]
  simp only [Automaton.mem_appearances, renumbered, List.mem_map, mergeBlocks]
  constructor
  · rintro (rfl | ⟨t', ⟨t, ht, rfl⟩, rfl | rfl⟩)
    · exact ⟨_, .inl rfl, rfl⟩
    · exact ⟨_, .inr ⟨t, ht, .inl rfl⟩, rfl⟩
    · exact ⟨_, .inr ⟨t, ht, .inr rfl⟩, rfl⟩
  · rintro ⟨s, rfl | ⟨t, ht, rfl | rfl⟩, rfl⟩
    · exact .inl rfl
    · exact .inr ⟨_, ⟨t, ht, rfl⟩, .inl rfl⟩
    · exact .inr ⟨_, ⟨t, ht, rfl⟩, .inr rfl⟩

/-- The merged automaton is numbered in the order of a search exactly if the transitions that are kept
enter their sources in ascending order. -/
theorem canonical_mergeBlocks_iff (horder : a.InSearchOrder) :
    (a.mergeBlocks r).Canonical (appearances (r.rep a.start) (a.kept r).1).toList.length ↔
      EntersInOrder (r.rep a.start) (a.kept r).1 (· ∈ (a.kept r).1.map (·.source)) := by
  have hfollows : (a.mergeBlocks r).FollowsSymbols := by
    intro g hg
    rw [h.entries_mergeBlocks hpending ha] at hg
    obtain ⟨kept, hkept, rfl⟩ := List.mem_map.mp hg
    obtain ⟨row, hrow, rfl⟩ := List.mem_map.mp (List.mem_of_mem_filter hkept)
    rw [keys_relabel, keys_relabel]
    exact horder.follows row (List.mem_of_mem_filter hrow)
  rw [canonical_iff place_start (h.occurs_mergeBlocks hpending ha) hfollows
    (h.moves_mergeBlocks hpending ha), h.transitions_mergeBlocks hpending ha,
    ← entersInOrder_iff (pairwise_kept horder.rows)]
  intro t ht
  obtain ⟨-, u, hu, -⟩ := (h.toCoarse.mem_kept ha t).mp ht
  rw [horder.rep_start h.toCoarse ha]
  exact horder.start_le _ (a.mem_keys_of_next? hu)

end Settled

/-- No state is less than the one that represents it. -/
theorem Coarse.rep_le (h : a.Coarse r) (ha : a.Trim) {s : ℕ} (hs : s ∈ a.rows.keys) : r.rep s ≤ s := by
  obtain ⟨B, hB, -, hsB⟩ := h.exists_block ha hs
  exact (representative?_eq h.partition hB hsB).2.2 s hsB

omit [DecidableEq α] in
/-- What is kept before a transition comes from transitions before its own one. -/
theorem exists_split_of_kept {before after : List (Transition α)} {t : Transition α}
    (h : (a.kept r).1 = before ++ t :: after) :
    ∃ early t₀ late, a.transitions = early ++ t₀ :: late ∧
      (⟨t₀.source, t₀.symbol, r.rep t₀.target⟩ : Transition α) = t ∧
      ∀ u ∈ early, (⟨u.source, u.symbol, r.rep u.target⟩ : Transition α) ∈ (a.kept r).1 →
        ⟨u.source, u.symbol, r.rep u.target⟩ ∈ before := by
  have hfilter : ∃ p : Transition α → Bool, (a.kept r).1 = (a.merged r).filter p := ⟨_, rfl⟩
  obtain ⟨p, hp⟩ := hfilter
  rw [hp, List.filter_eq_append_iff] at h
  obtain ⟨front, rest, hmerged, rfl, hrest⟩ := h
  rw [List.filter_eq_cons_iff] at hrest
  obtain ⟨skipped, back, rfl, hskipped, -, -⟩ := hrest
  rw [← List.append_assoc, merged, List.map_eq_append_iff] at hmerged
  obtain ⟨early, rest, hsplit, hearly, hrest⟩ := hmerged
  obtain ⟨t₀, late, rfl, rfl, -⟩ := List.map_eq_cons_iff.mp hrest
  refine ⟨early, t₀, late, hsplit, rfl, fun u hu hkept => ?_⟩
  rw [hp, List.mem_filter] at hkept
  have hmem : (⟨u.source, u.symbol, r.rep u.target⟩ : Transition α) ∈ front ++ skipped := by
    rw [← hearly]
    exact List.mem_map_of_mem hu
  rcases List.mem_append.mp hmem with hfront | hskip
  · exact List.mem_filter.mpr ⟨hfront, hkept.2⟩
  · exact (hskipped _ hskip hkept.2).elim

/-- If the states of each block are alike, a transition leads into the same block as that of the
representative of its source on the same symbol. -/
theorem Coarse.exists_kept (h : a.Coarse r) (ha : a.Trim)
    (halike : ∀ B ∈ r.blocks.toList, ∀ s t, s ∈ B → t ∈ B → a.Alike s t) {t : Transition α}
    (ht : t ∈ a.transitions) :
    ∃ u, ⟨r.rep t.source, t.symbol, u⟩ ∈ a.transitions ∧ r.rep u = r.rep t.target := by
  have hnext := (a.mem_transitions t).mp ht
  have hsource := a.mem_keys_of_next? hnext
  have htarget := ha.target_row hnext
  obtain ⟨B, hB, -, hsB⟩ := h.exists_block ha hsource
  have hsame := (halike B hB _ _ (rep_mem h.partition hB hsB) hsB).symm.step ha t.symbol
  have hstep : a.step t.source t.symbol = t.target := by rw [step, hnext, Option.getD_some]
  rw [hstep] at hsame
  have hrow := hsame.mem_keys ha htarget (a.step_mem_states _ _)
  obtain ⟨C, hC, -, htC⟩ := h.exists_block ha htarget
  have huC := h.saturated C hC _ _ ((ha.mem_states _).mpr (.inr htarget))
    ((ha.mem_states _).mpr (.inr hrow)) hsame htC
  refine ⟨a.step (r.rep t.source) t.symbol, (a.mem_transitions _).mpr ?_,
    rep_eq_rep h.partition hC huC htC⟩
  cases hrep : a.next? (r.rep t.source) t.symbol with
  | none =>
    rw [ha.step_eq_dead.mpr hrep] at hrow
    exact (ha.dead_row hrow).elim
  | some u => rw [step, hrep, Option.getD_some]

/-- If the states of each block are alike, the transitions that are kept enter their sources in ascending
order. -/
theorem InSearchOrder.keepsOrder (horder : a.InSearchOrder) (h : a.Coarse r) (ha : a.Trim)
    (halike : ∀ B ∈ r.blocks.toList, ∀ s t, s ∈ B → t ∈ B → a.Alike s t) :
    EntersInOrder (r.rep a.start) (a.kept r).1 (· ∈ (a.kept r).1.map (·.source)) := by
  intro before t after hsplit s hs hcase
  obtain ⟨early, t₀, late, hsplit₀, rfl, hbefore⟩ := exists_split_of_kept hsplit
  obtain ⟨w, hw, rfl⟩ := List.mem_map.mp hs
  obtain ⟨hrep, u, hu, -⟩ := (h.mem_kept ha w).mp hw
  have hrow := a.mem_keys_of_next? hu
  have ht₀ : t₀ ∈ a.transitions := by simp [hsplit₀]
  have htarget := ha.target_row ((a.mem_transitions t₀).mp ht₀)
  have hentered : w.source ∈ a.start :: early.map (·.target) := by
    refine horder.entered early t₀ late hsplit₀ _ hrow (hcase.imp_right fun hlt => ⟨?_, htarget⟩)
    exact lt_of_lt_of_le hlt.1 (h.rep_le ha htarget)
  rcases List.mem_cons.mp hentered with heq | hmem
  · rw [← hrep, heq]
    exact List.mem_cons_self ..
  · obtain ⟨v, hv, heq⟩ := List.mem_map.mp hmem
    have hv' : v ∈ a.transitions := by simp [hsplit₀, hv]
    have hvrow := a.mem_keys_of_next? ((a.mem_transitions v).mp hv')
    obtain ⟨u, hu, hsame⟩ := h.exists_kept ha halike hv'
    have hnext : a.next? (r.rep v.source) v.symbol = some u := (a.mem_transitions _).mp hu
    -- The transition of the representative comes no later, as the representative is no greater.
    have hearly : ⟨r.rep v.source, v.symbol, u⟩ ∈ early := by
      rcases lt_or_eq_of_le (h.rep_le ha hvrow) with hlt | hown
      · have hsorted := pairwise_listed horder.rows
        change a.transitions.Pairwise _ at hsorted
        rw [hsplit₀] at hu hsorted
        refine (List.mem_append.mp hu).resolve_right fun hlate => ?_
        have hle : v.source ≤ r.rep v.source := (List.pairwise_append.mp hsorted).2.2 v hv _ hlate
        omega
      · rw [hown, (a.mem_transitions v).mp hv', Option.some.injEq] at hnext
        rw [hown, ← hnext]
        exact hv
    have hkept := hbefore _ hearly
      ((h.mem_kept ha _).mpr ⟨(h.represented_rep ha hvrow).2, u, hnext, rfl⟩)
    refine List.mem_cons_of_mem _ (List.mem_map.mpr ⟨_, hkept, ?_⟩)
    rw [hsame, heq, hrep]

end Merged

end ShellCompletion.Automaton

namespace ShellCompletion.Positions

variable {α : Type} [DecidableEq α] {p : Positions α} {sets : List NatSet}

/-- The transitions of the automaton are the steps of the search, numbered. -/
theorem map_transitions_ofSets (hnodup : sets.Nodup) :
    ((p.ofSets sets).transitions.map fun t => (t.source, t.target)) =
      (steps (fun set => (p.moves (OrderedSet.ofList p.symbols.toList).toList set).map Prod.snd)
        sets).map fun e => (stateOf sets e.1, stateOf sets e.2) := by
  rw [Automaton.transitions, entries_ofSets hnodup, steps, List.flatMap_map, List.map_flatMap,
    List.map_flatMap]
  refine List.flatMap_congr fun set _ => ?_
  rw [entries_row]
  simp [Function.comp_def]

/-- Sets are numbered in the order in which they are found. -/
theorem precedes_of_stateOf_lt {S T : NatSet} (hnodup : sets.Nodup) (hS : S ∈ sets) (hT : T ∈ sets)
    (h : stateOf sets S < stateOf sets T) : Precedes sets S T := by
  refine (Precedes.iff_lt hnodup (List.getElem?_idxOf hS) (List.getElem?_idxOf hT)).mpr ?_
  simpa [stateOf] using h

/-- The rows of an automaton come in ascending order of their states. -/
theorem pairwise_keys_ofSets (hnodup : sets.Nodup) : (p.ofSets sets).rows.keys.Pairwise (· < ·) := by
  rw [keys_ofSets hnodup, List.pairwise_map, List.pairwise_iff_getElem]
  intro i j hi hj hlt
  rw [stateOf, stateOf, hnodup.idxOf_getElem i hi, hnodup.idxOf_getElem j hj]
  omega

/-- The first set is found first. -/
theorem idxOf_first (h : p.found? = some sets) : sets.idxOf p.first = 0 := by
  obtain ⟨hmem, -, hlimit⟩ := mem_found_iff (fun a => OrderedSet.mem_ofList _ a) h
  have horder := (reachable_eq_some_iff hlimit).mp h
  have hfirst : p.first ∈ sets := (hmem p.first).mpr .first
  obtain ⟨S, rest, rfl⟩ := List.exists_cons_of_ne_nil (List.ne_nil_of_mem hfirst)
  obtain ⟨_, htaken⟩ := horder.taken [] S ⟨rest, rfl⟩
  have heq : S = p.first := (List.cons.inj htaken).1
  rw [heq, List.idxOf_cons_self]

/-- The transitions enter the sets in the order in which the search finds them. -/
theorem entersInOrder_ofSets (h : p.found? = some sets) : Automaton.EntersInOrder (p.ofSets sets).start
    (p.ofSets sets).transitions (· ∈ (p.ofSets sets).rows.keys) := by
  obtain ⟨-, hnodup, hlimit⟩ := mem_found_iff (fun a => OrderedSet.mem_ofList _ a) h
  have horder := (reachable_eq_some_iff hlimit).mp h
  intro before t after hsplit s hs hcase
  have hsteps := map_transitions_ofSets (p := p) hnodup
  rw [hsplit, List.map_append, List.map_cons, eq_comm, List.map_eq_append_iff] at hsteps
  obtain ⟨early, rest, hsplit', hearly, hrest⟩ := hsteps
  obtain ⟨⟨S, T⟩, late, rfl, hends, -⟩ := List.map_eq_cons_iff.mp hrest
  obtain ⟨hsource, htarget⟩ := Prod.mk.inj hends
  rw [keys_ofSets hnodup] at hs
  obtain ⟨U, hU, rfl⟩ := List.mem_map.mp hs
  have hcase' : U = S ∨ Precedes sets U T := by
    rcases hcase with heq | ⟨hlt, hrow⟩
    · exact .inl (stateOf_inj hU (heq.trans hsource.symm))
    · rw [← htarget] at hlt hrow
      rw [keys_ofSets hnodup] at hrow
      obtain ⟨V, hV, heq⟩ := List.mem_map.mp hrow
      have hT : V = T := stateOf_inj hV heq
      exact .inr (precedes_of_stateOf_lt hnodup hU (hT ▸ hV) hlt)
  have hmet := List.mem_map_of_mem (f := stateOf sets) (horder.mem_of_steps hsplit' hcase')
  have htargets : (early.map Prod.snd).map (stateOf sets) = before.map (·.target) := by
    have hseconds := congrArg (List.map Prod.snd) hearly
    rw [List.map_map, List.map_map] at hseconds
    rw [List.map_map]
    exact hseconds
  rw [List.map_cons, htargets] at hmet
  exact hmet

/-- The automaton of the sets that the search finds has the order of the search. -/
theorem inSearchOrder_ofSets (h : p.found? = some sets) : (p.ofSets sets).InSearchOrder := by
  obtain ⟨-, hnodup, -⟩ := mem_found_iff (fun a => OrderedSet.mem_ofList _ a) h
  refine ⟨?_, pairwise_keys_ofSets hnodup, ?_, entersInOrder_ofSets h⟩
  · intro g hg
    rw [entries_ofSets hnodup] at hg
    obtain ⟨S, -, rfl⟩ := List.mem_map.mp hg
    rw [OrderedMap.keys, entries_row, List.map_map]
    exact sublist_moves _ S
  · intro s hs
    rw [keys_ofSets hnodup] at hs
    obtain ⟨S, -, rfl⟩ := List.mem_map.mp hs
    have hstart := idxOf_first h
    change sets.idxOf p.first + 1 ≤ sets.idxOf S + 1
    omega

end ShellCompletion.Positions

namespace ShellCompletion.Expr

/-- The automaton of an expression without empty sequences and choices can always be minimized. If some
discovered set of positions does not hold the end position, the states of the result are numbered from
zero, the start first. They are numbered in the order in which a search from the start finds them exactly
if the transitions that are kept enter their sources in ascending order, and in particular if refinement
leaves the blocks that it would leave if no round ended early. -/
theorem minimize_canonical_iff {check : Positions Input → Result Unit}
    {specializations : Specializations} {s t : Interner Input} {e : Expr} {p : Pattern Input}
    (h : e.toPattern check specializations s = .ok (t, p)) (hfull : e.Full)
    (hlimit : {S | p.positions.Discovered S}.encard ≤ Positions.stateLimit)
    (hrejects : ∃ S, p.positions.Discovered S ∧ ¬ p.positions.stop ∈ S) :
    ∃ d m n, p.positions.automaton = .ok d ∧ d.minimize = .ok m ∧ m.start = 0 ∧
      (∀ s, m.Occurs s ↔ s < n) ∧ (m.Canonical n ↔ d.KeepsOrder) ∧
      (d.RefinedWholly → m.Canonical n) := by
  obtain ⟨-, d, number, hd, hrep⟩ | ⟨hlt, -⟩ := p.positions.automaton_cases
  · have htrim := hrep.trim (full_toPattern h hfull)
    have hothers : d.others.isEmpty = false := by
      rw [← Bool.not_eq_true, hrep.isEmpty_others_iff htrim]
      obtain ⟨S, hS, hstop⟩ := hrejects
      exact fun hall => hstop (hall S hS)
    have horder : d.InSearchOrder := by
      obtain ⟨sets, hfound, rfl⟩ := Positions.exists_sets hd
      exact Positions.inSearchOrder_ofSets hfound
    obtain ⟨r, hr, hsettled, hpending⟩ := Automaton.exists_refinement htrim hothers
    have hm := hsettled.minimize_eq hpending htrim hothers hr
    have hiff := hsettled.canonical_mergeBlocks_iff hpending htrim horder
    refine ⟨d, _, _, hd, hm, Automaton.place_start, hsettled.occurs_mergeBlocks hpending htrim, ?_, ?_⟩
    · rw [hiff, Automaton.KeepsOrder, hr]
      simp
    · intro hwhole
      have halike := (hsettled.toCoarse.refinedWholly_iff htrim hothers hr).mp hwhole
      exact hiff.mpr (horder.keepsOrder hsettled.toCoarse htrim halike)
  · exact absurd hlimit (not_le_of_gt hlt)

/-- Its minimized form is numbered in order. -/
theorem canonical_repeatedChoice : ∃ m n, repeatedChoiceAutomaton.minimize = .ok m ∧ m.Canonical n := by
  have hfirst : ¬ repeatedChoicePattern.positions.stop ∈ repeatedChoicePattern.positions.first := by
    decide +kernel
  obtain ⟨d, m, n, hd, hm, -, -, -, hwhole⟩ := minimize_canonical_iff toPattern_repeatedChoice
    (by simp [repeatedChoice, Full, FullAll]) discovered_repeatedChoice ⟨_, .first, hfirst⟩
  rw [automaton_repeatedChoice] at hd
  cases hd
  exact ⟨m, n, hm, hwhole refinedWholly_repeatedChoice⟩

/-- A repeated choice of which one branch returns by a repetition: `([a [(a b)...] a] | b)...`. -/
def optionalReturn : Expr :=
  let a : Expr := .literal "a" none 0 none
  let b : Expr := .literal "b" none 0 none
  .repeated (.alternative [.optional (.sequence [a, .optional (.repeated (.sequence [a, b])), a]), b])

/-- The pattern of that expression. -/
def optionalReturnPattern : Pattern Input :=
  let a : Pattern Input := .symbol (.literal "a" none 0 none)
  let b : Pattern Input := .symbol (.literal "b" none 0 none)
  .repeated (.alternative [.optional (.sequence [a, .optional (.repeated (.sequence [a, b])), a]), b])

/-- The automaton of that pattern. -/
def optionalReturnAutomaton : Automaton Input :=
  let a : Input := .literal "a" none 0 none
  let b : Input := .literal "b" none 0 none
  .ofTransitions 1 [⟨1, a, 2⟩, ⟨1, b, 1⟩, ⟨2, a, 3⟩, ⟨3, a, 2⟩, ⟨3, b, 4⟩, ⟨4, a, 5⟩, ⟨4, b, 1⟩,
    ⟨5, a, 5⟩, ⟨5, b, 4⟩] [1, 3, 4, 5] [a, b]

/-- What the automaton is minimized to. -/
def optionalReturnMinimized : Automaton Input :=
  let a : Input := .literal "a" none 0 none
  let b : Input := .literal "b" none 0 none
  .ofTransitions 0 [⟨0, a, 1⟩, ⟨0, b, 0⟩, ⟨1, a, 0⟩, ⟨2, a, 3⟩, ⟨2, b, 0⟩, ⟨3, a, 3⟩, ⟨3, b, 2⟩]
    [0, 2, 3] [a, b]

/-- The third state of the result occurs, but no word leads to it from the start. -/
theorem not_canonical_optionalReturn :
    optionalReturn.toPattern (fun _ => .ok ()) .empty {} = .ok ({}, optionalReturnPattern) ∧
      optionalReturnPattern.positions.automaton = .ok optionalReturnAutomaton ∧
      optionalReturnAutomaton.minimize = .ok optionalReturnMinimized ∧
      ∀ n, ¬ optionalReturnMinimized.Canonical n := by
  refine ⟨rfl, by decide +kernel, by cbv, fun n h => ?_⟩
  have hstay : ∀ t ∈ optionalReturnMinimized.transitions, t.source < 2 → t.target < 2 := by
    decide +kernel
  have hrun : ∀ (word : List Input) (s k : ℕ), s < 2 →
      optionalReturnMinimized.run? s word = some k → k < 2 := by
    intro word
    induction word with
    | nil =>
      intro s k hs hk
      cases hk
      exact hs
    | cons c word ih =>
      intro s k hs hk
      obtain ⟨t, ht, hrest⟩ := Option.bind_eq_some_iff.mp hk
      have hmem := (optionalReturnMinimized.mem_transitions ⟨s, c, t⟩).mpr ht
      exact ih t k (hstay _ hmem hs) hrest
  have hoccurs : optionalReturnMinimized.Occurs 2 :=
    .inr ⟨⟨2, .literal "a" none 0 none, 3⟩, by decide +kernel, .inl rfl⟩
  obtain ⟨word, hword⟩ := h.reached 2 ((h.occurs 2).mp hoccurs)
  have hlt := hrun word _ 2 (by decide +kernel) hword
  omega

end ShellCompletion.Expr
