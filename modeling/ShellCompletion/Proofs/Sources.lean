import ShellCompletion.Proofs.Results
import ShellCompletion.Proofs.TargetRanges

/-!
# The sets by which blocks are split

Blocks are split by the states from which one symbol leads into a group. Those sets are found by a
search for the range of targets that the group spans; the search leaves out no transition, so each set
holds every state from which its symbol leads into the group, the dead state standing in for missing
transitions.
-/

namespace ShellCompletion.Automaton

variable {α : Type} [DecidableEq α] (a : Automaton α)

section SourcesInto

variable {a} (group : NatSet)

/-- The sources that are gathered for a symbol are those of its transitions into the group, and a
symbol has an entry only if it has such a transition. -/
theorem get?_sourcesInto (ts : List (Transition α)) (c : α) :
    (∀ s, s ∈ ((sourcesInto group ts).get? c).getD .empty ↔
        ∃ t ∈ ts, t.symbol = c ∧ t.target ∈ group ∧ t.source = s) ∧
      ((sourcesInto group ts).get? c = none ↔ ¬ ∃ t ∈ ts, t.symbol = c ∧ t.target ∈ group) := by
  have general : ∀ sources : OrderedMap α NatSet,
      let result := ts.foldl (fun sources t => if group.contains t.target then
        sources.alter t.symbol .empty (·.insert t.source) else sources) sources
      (∀ s, s ∈ (result.get? c).getD .empty ↔ s ∈ (sources.get? c).getD .empty ∨
          ∃ t ∈ ts, t.symbol = c ∧ t.target ∈ group ∧ t.source = s) ∧
        (result.get? c = none ↔
          sources.get? c = none ∧ ¬ ∃ t ∈ ts, t.symbol = c ∧ t.target ∈ group) := by
    induction ts with
    | nil => simp
    | cons t ts ih =>
      intro sources
      simp only [List.foldl_cons, List.mem_cons, exists_eq_or_imp]
      by_cases ht : t.target ∈ group
      · rw [if_pos ((group.contains_iff t.target).mpr ht)]
        obtain ⟨hmem, hnone⟩ := ih (sources.alter t.symbol .empty (·.insert t.source))
        by_cases hc : c = t.symbol
        · subst hc
          simp only [OrderedMap.get?_alter, if_true, Option.getD_some, NatSet.mem_insert,
            reduceCtorEq, false_and, iff_false] at hmem hnone
          refine ⟨fun s => (hmem s).trans ?_, iff_of_false hnone (by simp [ht])⟩
          simp only [ht, true_and, or_assoc, eq_comm]
        · have hc' : ¬ t.symbol = c := fun h => hc h.symm
          simp only [OrderedMap.get?_alter, hc, if_false] at hmem hnone
          simp only [hc', false_and, false_or]
          exact ⟨hmem, hnone⟩
      · rw [if_neg (mt (group.contains_iff t.target).mp ht)]
        simpa [ht] using ih sources
  simpa [sourcesInto] using general .empty

/-- Transitions that do not lead into the group can be left out. -/
theorem sourcesInto_filter (ts : List (Transition α)) (P : Transition α → Bool)
    (h : ∀ t ∈ ts, t.target ∈ group → P t = true) :
    sourcesInto group (ts.filter P) = sourcesInto group ts := by
  unfold sourcesInto
  generalize OrderedMap.empty = sources
  induction ts generalizing sources with
  | nil => rfl
  | cons t ts ih =>
    have ih := ih fun u hu => h u (by simp [hu])
    by_cases hP : P t = true
    · rw [List.filter_cons_of_pos hP, List.foldl_cons, List.foldl_cons, ih]
    · have ht : ¬ group.contains t.target = true := fun ht => hP (h t (by simp) ht)
      rw [List.filter_cons_of_neg hP, List.foldl_cons, if_neg ht, ih]

end SourcesInto

/-- The sets of sources into a group, one for each symbol that leads into it. -/
def sourceSets (group : NatSet) : List NatSet :=
  (sourcesInto group a.image.toList).entries.map Prod.snd

/-- The states of the rows from which a symbol leads into a group. -/
structure LeadsInto (c : α) (group X : NatSet) : Prop where
  symbol_mem : c ∈ a.symbols.toList
  mem_iff : ∀ s, s ∈ X ↔ s ∈ a.rows.keys ∧ a.step s c ∈ group

variable {a}

/-- The sets of sources are those that lead into the group by some symbol and are not empty. -/
theorem mem_sourceSets (ha : a.ReadsSymbols) (group X : NatSet) :
    X ∈ a.sourceSets group ↔ (∃ s, s ∈ X) ∧ ∃ c, a.LeadsInto c group X := by
  have himage : ∀ s c, (∃ t ∈ a.image.toList, t.symbol = c ∧ t.target ∈ group ∧ t.source = s) ↔
      c ∈ a.symbols.toList ∧ s ∈ a.rows.keys ∧ a.step s c ∈ group := by
    intro s c
    constructor
    · rintro ⟨t, ht, rfl, hgroup, rfl⟩
      obtain ⟨hs, hnext | ⟨hc, hnext, hdead⟩⟩ := (a.mem_image t).mp ht
      · exact ⟨ha hnext, hs, by rw [step, hnext]; exact hgroup⟩
      · exact ⟨hc, hs, by rw [step, hnext, Option.getD_none, ← hdead]; exact hgroup⟩
    · rintro ⟨hc, hs, hgroup⟩
      refine ⟨⟨s, c, a.step s c⟩, (a.mem_image _).mpr ⟨hs, ?_⟩, rfl, hgroup, rfl⟩
      cases hnext : a.next? s c with
      | none => exact .inr ⟨hc, rfl, by rw [step, hnext, Option.getD_none]⟩
      | some t => exact .inl (by rw [step, hnext, Option.getD_some])
  simp only [sourceSets, List.mem_map, Prod.exists, exists_eq_right, OrderedMap.mem_entries_iff]
  constructor
  · rintro ⟨c, hget⟩
    obtain ⟨hmem, hnone⟩ := get?_sourcesInto group a.image.toList c
    simp only [hget, Option.getD_some, himage, reduceCtorEq, false_iff, not_not] at hmem hnone
    obtain ⟨t, ht, hc, hgroup⟩ := hnone
    have hsource := (himage t.source c).mp ⟨t, ht, hc, hgroup, rfl⟩
    exact ⟨⟨t.source, (hmem _).mpr hsource⟩, c, hsource.1,
      fun s => (hmem s).trans (and_iff_right hsource.1)⟩
  · rintro ⟨⟨s, hs⟩, c, hc, hX⟩
    obtain ⟨hmem, hnone⟩ := get?_sourcesInto group a.image.toList c
    have hsource := (hX s).mp hs
    refine ⟨c, ?_⟩
    cases hget : (sourcesInto group a.image.toList).get? c with
    | none =>
      obtain ⟨t, ht, hsymbol, hgroup, -⟩ := (himage s c).mpr ⟨hc, hsource⟩
      exact (hnone.mp hget ⟨t, ht, hsymbol, hgroup⟩).elim
    | some Y =>
      simp only [hget, Option.getD_some, himage] at hmem
      congr 1
      exact NatSet.ext fun n => (hmem n).trans ((and_iff_right hc).trans (hX n).symm)

/-- A symbol that leads from some row into the group has a set of sources. -/
theorem exists_sourceSet (ha : a.ReadsSymbols) {group : NatSet} {s : ℕ} {c : α}
    (hc : c ∈ a.symbols.toList) (hs : s ∈ a.rows.keys) (hgroup : a.step s c ∈ group) :
    ∃ X ∈ a.sourceSets group, a.LeadsInto c group X := by
  have hX : a.LeadsInto c group (.ofList (a.rows.keys.filter fun t => a.step t c ∈ group)) :=
    ⟨hc, fun t => by simp⟩
  exact ⟨_, (mem_sourceSets ha group _).mpr ⟨⟨s, (hX.mem_iff s).mpr ⟨hs, hgroup⟩⟩, c, hX⟩, hX⟩

/-- A round of splitting by a group uses all its sets of sources. -/
theorem splitByGroup_eq {group : NatSet} {n : ℕ} (hn : n ∈ group) (r : Refinement) :
    Refinement.splitByGroup a.image group r =
      .ok ((a.sourceSets group).foldl (Refinement.splitBySources group) r) := by
  obtain ⟨low, hlow, -, hleast⟩ := NatSet.exists_min? hn
  obtain ⟨high, hhigh, -, hgreatest⟩ := NatSet.exists_max? hn
  rw [Refinement.splitByGroup, hlow, hhigh]
  simp only [require, Result.ok_bind, toList_between a.sortedByTarget_image]
  rw [sourcesInto_filter group _ _ fun t _ ht => by
    simp only [decide_eq_true_eq]
    exact ⟨hleast _ ht, hgreatest _ ht⟩]
  rfl

end ShellCompletion.Automaton
