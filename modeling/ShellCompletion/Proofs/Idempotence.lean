import ShellCompletion.Proofs.ConfusedStates
import ShellCompletion.Proofs.Interning

/-!
# When minimization is idempotent

A second minimization leaves a minimized automaton as it is exactly if every state represents itself and is
entered: then nothing is dropped and every state keeps its number. Otherwise a transition or a state gets
lost. As the start of a minimized automaton has the number of the dead state, this is no matter of
minimality alone: states may be confused though different words lead from them to acceptance.
-/

namespace ShellCompletion

section Sameness

variable {κ ν : Type} [DecidableEq κ]

namespace OrderedMap

variable {same : ν → ν → Bool} {m n : OrderedMap κ ν}

/-- In maps that agree each key of the first has a value in the second that agrees with its own. -/
theorem exists_get?_of_sameBy (h : m.sameBy same n = true) {k : κ} {v : ν} (hv : m.get? k = some v) :
    ∃ w, n.get? k = some w ∧ same v w = true := by
  rw [sameBy, Bool.and_eq_true, List.all_eq_true] at h
  have hentry := h.2 (k, v) ((mem_entries_iff m k v).mpr hv)
  cases hn : n.get? k with
  | none =>
    simp only [hn] at hentry
    cases hentry
  | some w =>
    simp only [hn] at hentry
    exact ⟨w, rfl, hentry⟩

/-- Maps that agree have the same keys. -/
theorem mem_keys_of_sameBy (h : m.sameBy same n = true) (k : κ) : k ∈ m.keys ↔ k ∈ n.keys := by
  have hsub : m.keys ⊆ n.keys := by
    intro k hk
    obtain ⟨v, hv⟩ := (m.mem_keys_iff k).mp hk
    obtain ⟨w, hw, -⟩ := exists_get?_of_sameBy h hv
    exact (n.mem_keys_iff k).mpr ⟨w, hw⟩
  have hsize : m.size = n.size := by
    rw [sameBy, Bool.and_eq_true, beq_iff_eq] at h
    exact h.1
  have hlength : n.keys.length ≤ m.keys.length := by
    rw [keys, keys, List.length_map, List.length_map]
    exact hsize.ge
  exact ((m.nodup.subperm hsub).perm_of_length_le hlength).mem_iff

/-- What one of two maps that are the same does not have, the other one does not have either. -/
theorem get?_eq_none_of_sameBy (h : m.sameBy same n = true) {k : κ} (hk : m.get? k = none) :
    n.get? k = none := by
  refine get?_eq_none fun hmem => ?_
  obtain ⟨v, hv⟩ := (m.mem_keys_iff k).mp ((mem_keys_of_sameBy h k).mpr hmem)
  rw [hk] at hv
  cases hv

end OrderedMap

end Sameness

namespace Automaton

open Refinement

variable {α : Type} [DecidableEq α]

section Same

variable {a b : Automaton α}

/-- Automata that are the same have the same transitions. -/
theorem next?_eq_of_same (h : a.same b = true) (s : ℕ) (c : α) : a.next? s c = b.next? s c := by
  simp only [same, Bool.and_eq_true] at h
  have hrows := h.1.1.2
  cases hrow : a.rows.get? s with
  | none => rw [next?, next?, hrow, OrderedMap.get?_eq_none_of_sameBy hrows hrow]
  | some row =>
    obtain ⟨row', hrow', hsame⟩ := OrderedMap.exists_get?_of_sameBy hrows hrow
    rw [next?, next?, hrow, hrow', Option.bind_some, Option.bind_some]
    cases hentry : row.get? c with
    | none => rw [OrderedMap.get?_eq_none_of_sameBy hsame hentry]
    | some t =>
      obtain ⟨u, hu, heq⟩ := OrderedMap.exists_get?_of_sameBy hsame hentry
      rw [hu, beq_iff_eq.mp heq]

omit [DecidableEq α] in
/-- No transition is listed twice. -/
theorem nodup_transitions (a : Automaton α) : a.transitions.Nodup := by
  rw [transitions, List.nodup_iff_pairwise_ne, List.pairwise_flatMap]
  constructor
  · intro g _
    rw [List.pairwise_map]
    have hentries : g.2.entries.Pairwise fun e f => e.1 ≠ f.1 := List.pairwise_map.mp g.2.nodup
    exact hentries.imp fun hne heq => hne (congrArg Transition.symbol heq)
  · have hrows : a.rows.entries.Pairwise fun g g' => g.1 ≠ g'.1 := List.pairwise_map.mp a.rows.nodup
    refine hrows.imp fun hne t ht u hu heq => ?_
    obtain ⟨e, -, rfl⟩ := List.mem_map.mp ht
    obtain ⟨f, -, rfl⟩ := List.mem_map.mp hu
    exact hne (congrArg Transition.source heq)

/-- Automata that are the same have the same transitions. -/
theorem perm_transitions_of_same (h : a.same b = true) : a.transitions.Perm b.transitions := by
  rw [List.perm_ext_iff_of_nodup a.nodup_transitions b.nodup_transitions]
  intro t
  rw [mem_transitions, mem_transitions, next?_eq_of_same h]

/-- Automata that are the same have the same states. -/
theorem occurs_iff_of_same (h : a.same b = true) (s : ℕ) : a.Occurs s ↔ b.Occurs s := by
  have hstart : a.start = b.start := by
    simp only [same, Bool.and_eq_true, beq_iff_eq] at h
    exact h.1.1.1
  have hperm := perm_transitions_of_same h
  rw [Occurs, Occurs, hstart]
  simp only [hperm.mem_iff]

end Same

section Again

variable {a m : Automaton α} {r : Refinement}

/-- Whether every state but the start is the target of a transition. -/
def EntersAll (a : Automaton α) : Prop :=
  ∀ s, a.Occurs s → s = a.start ∨ ∃ t ∈ a.transitions, t.target = s

namespace Compact

variable (ha : a.Compact)
include ha

/-- No transition of a minimized automaton is useless. -/
theorem dropUseless_transitions : dropUseless a.transitions a.accepting = a.transitions := by
  rw [dropUseless, List.filter_eq_self]
  intro t ht
  rw [Bool.or_eq_true, NatSet.contains_iff, NatSet.contains_iff, NatSet.mem_ofList, List.mem_map]
  by_cases hkey : t.target ∈ a.rows.keys
  · obtain ⟨c, u, hu⟩ := ha.exists_next hkey
    exact .inr ⟨⟨t.target, c, u⟩, (a.mem_transitions _).mpr hu, rfl⟩
  · exact .inl (ha.stops _ (.inr ⟨t, ht, .inr rfl⟩) hkey)

/-- The states have the numbers that they get in order of appearance. -/
theorem renumber_transitions :
    renumber a.start a.transitions a.accepting a.symbols = .ok a := by
  have hrenumbered : renumbered a.start a.transitions = a.transitions := by
    rw [renumbered]
    conv_rhs => rw [← List.map_id a.transitions]
    refine List.map_congr_left fun t ht => ?_
    have hsource := ha.place_eq t.source (.inr ⟨t, ht, .inl rfl⟩)
    have htarget := ha.place_eq t.target (.inr ⟨t, ht, .inr rfl⟩)
    rw [hsource, htarget]
    rfl
  have haccepting : NatSet.ofList (a.accepting.toList.map (place a.start a.transitions)) =
      a.accepting := by
    refine NatSet.ext fun s => ?_
    rw [NatSet.mem_ofList, List.mem_map]
    simp only [NatSet.mem_toList]
    constructor
    · rintro ⟨t, ht, rfl⟩
      rwa [ha.place_eq t (ha.accepting_occurs t ht)]
    · exact fun hs => ⟨s, hs, ha.place_eq s (ha.accepting_occurs s hs)⟩
  have happears : ∀ s, s ∈ a.accepting → s ∈ (appearances a.start a.transitions).toList := by
    intro s hs
    rw [mem_appearances]
    exact ha.accepting_occurs s hs
  rw [renumber_eq a.accepting a.symbols happears, hrenumbered, haccepting, rowsOf_transitions ha.moves,
    ha.place_eq a.start (.inl rfl)]

/-- If every state represents itself and is entered, everything is kept. -/
theorem kept_eq (hrep : ∀ s, a.Occurs s → r.rep s = s) (hentered : a.EntersAll) :
    a.kept r = (a.transitions, a.accepting) := by
  have hstart : r.rep a.start = a.start := hrep _ (.inl rfl)
  have hmerged : a.merged r = a.transitions := by
    rw [merged]
    conv_rhs => rw [← List.map_id a.transitions]
    refine List.map_congr_left fun t ht => ?_
    rw [hrep t.target (.inr ⟨t, ht, .inr rfl⟩)]
    rfl
  have hreached : ∀ s, a.Occurs s →
      s = a.start ∨ s ∈ NatSet.ofList (a.transitions.map (·.target)) := by
    intro s hs
    refine (hentered s hs).imp_right fun hmem => ?_
    obtain ⟨t, ht, rfl⟩ := hmem
    rw [NatSet.mem_ofList]
    exact List.mem_map_of_mem ht
  rw [kept, hstart, hmerged, keepReached]
  refine Prod.ext ?_ ?_
  · rw [List.filter_eq_self]
    intro t ht
    have htarget : t.target ∈ NatSet.ofList (a.transitions.map (·.target)) := by
      rw [NatSet.mem_ofList]
      exact List.mem_map_of_mem ht
    rw [Bool.or_eq_true, Bool.and_eq_true, beq_iff_eq, NatSet.contains_iff, NatSet.contains_iff]
    exact (hreached t.source (.inr ⟨t, ht, .inl rfl⟩)).imp_right fun hs => ⟨hs, htarget⟩
  · refine NatSet.ext fun s => ?_
    simp only [NatSet.mem_ofList, List.mem_filter, NatSet.mem_toList, Bool.or_eq_true, beq_iff_eq,
      NatSet.contains_iff, List.mem_map]
    constructor
    · rintro ⟨⟨t, ht, rfl⟩, -⟩
      rwa [hrep t (ha.accepting_occurs t ht)]
    · intro hs
      have hoccurs := ha.accepting_occurs s hs
      refine ⟨⟨s, hs, hrep s hoccurs⟩, ?_⟩
      simpa only [NatSet.mem_ofList, List.mem_map] using hreached s hoccurs

/-- Minimization merges the states in blocks and numbers what is left. -/
theorem minimize_eq (hothers : a.others.isEmpty = false) (hr : a.refinement = .ok r)
    (hdivided : a.Divided r) : a.minimize =
      renumber (r.rep a.start) (dropUseless (a.kept r).1 (a.kept r).2) (a.kept r).2 a.symbols := by
  have hblock : ∀ {s}, a.Occurs s → ∃ B ∈ r.blocks.toList, s ∈ B := fun hs =>
    (hdivided.cover _).mp ((ha.mem_states _).mpr hs)
  exact minimize_eq_renumber hothers hr (hblock (.inl rfl))
    (fun s hs => hblock (ha.accepting_occurs s hs)) (fun t ht => hblock (.inr ⟨t, ht, .inr rfl⟩))

/-- If every state represents itself and is entered, a second minimization changes nothing. -/
theorem minimize_eq_self (hothers : a.others.isEmpty = false) (hr : a.refinement = .ok r)
    (hdivided : a.Divided r) (hrep : ∀ s, a.Occurs s → r.rep s = s) (hentered : a.EntersAll) :
    a.minimize = .ok a := by
  rw [ha.minimize_eq hothers hr hdivided, ha.kept_eq hrep hentered, hrep a.start (.inl rfl),
    ha.dropUseless_transitions, ha.renumber_transitions]

/-- The states are the numbers below that of the appearances. -/
theorem occurs_iff_lt (s : ℕ) :
    a.Occurs s ↔ s < (appearances a.start a.transitions).toList.length := by
  have happears : ∀ s, s ∈ (appearances a.start a.transitions).toList ↔ a.Occurs s :=
    fun s => mem_appearances a.start a.transitions s
  rw [← exists_place_iff]
  constructor
  · exact fun hs => ⟨s, (happears s).mpr hs, ha.place_eq s hs⟩
  · rintro ⟨t, ht, rfl⟩
    rw [happears] at ht
    rwa [ha.place_eq t ht]

section Unchanged

variable (hothers : a.others.isEmpty = false) (hr : a.refinement = .ok r) (hdivided : a.Divided r)
  (hm : a.minimize = .ok m) (hsame : m.same a = true)
include hothers hr hdivided hm hsame

/-- If a second minimization changes nothing, it dropped no transition. -/
theorem kept_eq_merged : (a.kept r).1 = a.merged r ∧
    m.start = place (r.rep a.start) (a.merged r) (r.rep a.start) ∧
    m.rows = rowsOf (renumbered (r.rep a.start) (a.merged r)) := by
  rw [ha.minimize_eq hothers hr hdivided] at hm
  obtain ⟨hstart, hrows⟩ := rows_of_renumber hm
  set ts := dropUseless (a.kept r).1 (a.kept r).2
  have hdropped : ts.Sublist (a.kept r).1 := List.filter_sublist
  have hkept : (a.kept r).1.Sublist (a.merged r) := List.filter_sublist
  -- There are no more transitions in the end than there were left, and as many as before.
  have hleft : m.transitions.length ≤ ts.length := by
    have hsub : m.transitions ⊆ renumbered (r.rep a.start) ts := by
      intro t ht
      rw [mem_transitions, next?, hrows] at ht
      exact mem_of_get?_rowsOf ht
    have hle := (m.nodup_transitions.subperm hsub).length_le
    rwa [renumbered, List.length_map] at hle
  have hbefore : m.transitions.length = (a.merged r).length := by
    rw [(perm_transitions_of_same hsame).length_eq, merged, List.length_map]
  have hlength := hdropped.length_le
  have heq : ts = a.merged r := (hdropped.trans hkept).eq_of_length_le (by omega)
  rw [heq] at hstart hrows
  exact ⟨hkept.eq_of_length_le (by omega), hstart, hrows⟩

/-- If a second minimization changes nothing, sources are representatives that are entered. -/
theorem source_eq {t : Transition α} (ht : t ∈ a.transitions) :
    t.source = r.rep a.start ∨ ∃ u ∈ a.transitions, t.source = r.rep u.target := by
  obtain ⟨hkept, -⟩ := ha.kept_eq_merged hothers hr hdivided hm hsame
  have hmem : (⟨t.source, t.symbol, r.rep t.target⟩ : Transition α) ∈ (a.kept r).1 := by
    rw [hkept]
    exact List.mem_map_of_mem ht
  rw [kept, keepReached, List.mem_filter, Bool.or_eq_true, Bool.and_eq_true, beq_iff_eq,
    NatSet.contains_iff, NatSet.mem_ofList] at hmem
  refine hmem.2.imp_right fun hreached => ?_
  obtain ⟨u', hu', htarget⟩ := List.mem_map.mp hreached.1
  obtain ⟨u, hu, rfl⟩ := List.mem_map.mp hu'
  exact ⟨u, hu, htarget.symm⟩

/-- What appears after merging represents itself. -/
theorem rep_of_appears {s : ℕ} (hs : s ∈ (appearances (r.rep a.start) (a.merged r)).toList) :
    a.Occurs s ∧ r.rep s = s := by
  have hrep : ∀ {s}, a.Occurs s → a.Occurs (r.rep s) ∧ r.rep (r.rep s) = r.rep s := by
    intro s hs
    have hstate := (ha.mem_states s).mpr hs
    obtain ⟨-, B, hB, -, hmem, -⟩ := exists_representative? ((hdivided.cover s).mp hstate)
    exact ⟨(ha.mem_states _).mp ((hdivided.cover _).mpr ⟨B, hB, hmem⟩), hdivided.rep_rep hstate⟩
  rw [mem_appearances] at hs
  rcases hs with rfl | ⟨t', ht', hends⟩
  · exact hrep (.inl rfl)
  · obtain ⟨t, ht, rfl⟩ := List.mem_map.mp ht'
    rcases hends with rfl | rfl
    · rcases ha.source_eq hothers hr hdivided hm hsame ht with heq | ⟨u, hu, heq⟩
      · rw [heq]
        exact hrep (.inl rfl)
      · rw [heq]
        exact hrep (.inr ⟨u, hu, .inr rfl⟩)
    · exact hrep (.inr ⟨t, ht, .inr rfl⟩)

/-- If a second minimization changes nothing, every state represents itself: otherwise fewer states would
appear. -/
theorem rep_eq_of_same {s : ℕ} (hs : a.Occurs s) : r.rep s = s := by
  obtain ⟨-, hstart, hrows⟩ := ha.kept_eq_merged hothers hr hdivided hm hsame
  have hsub : (appearances (r.rep a.start) (a.merged r)).toList ⊆
      List.range (appearances a.start a.transitions).toList.length := by
    intro k hk
    rw [List.mem_range, ← ha.occurs_iff_lt]
    exact (ha.rep_of_appears hothers hr hdivided hm hsame hk).1
  have hlength : (appearances a.start a.transitions).toList.length ≤
      (appearances (r.rep a.start) (a.merged r)).toList.length := by
    refine le_of_forall_lt fun k hk => ?_
    rw [← ha.occurs_iff_lt, ← occurs_iff_of_same hsame] at hk
    rw [← exists_place_iff]
    have hmem : ∀ t ∈ m.transitions, t ∈ renumbered (r.rep a.start) (a.merged r) := by
      intro t ht
      rw [mem_transitions, next?, hrows] at ht
      exact mem_of_get?_rowsOf ht
    rcases hk with rfl | ⟨t', ht', hends⟩
    · exact ⟨_, (mem_appearances _ _ _).mpr (.inl rfl), hstart.symm⟩
    · obtain ⟨t, ht, rfl⟩ := List.mem_map.mp (hmem t' ht')
      rcases hends with rfl | rfl
      · exact ⟨_, source_mem_appearances ht, rfl⟩
      · exact ⟨_, target_mem_appearances ht, rfl⟩
  have hperm := ((appearances (r.rep a.start) (a.merged r)).nodup.subperm hsub).perm_of_length_le
    (by rwa [List.length_range])
  refine (ha.rep_of_appears hothers hr hdivided hm hsame ?_).2
  rw [hperm.mem_iff, List.mem_range, ← ha.occurs_iff_lt]
  exact hs

/-- An automaton that minimizing leaves the same enters all of its blocks. -/
theorem entersAll_of_same : a.EntersAll := by
  have hrep := fun s (hs : a.Occurs s) => ha.rep_eq_of_same hothers hr hdivided hm hsame hs
  intro s hs
  rcases hs with rfl | ⟨t, ht, rfl | rfl⟩
  · exact .inl rfl
  · rcases ha.source_eq hothers hr hdivided hm hsame ht with heq | ⟨u, hu, heq⟩
    · rw [hrep a.start (.inl rfl)] at heq
      exact .inl heq
    · rw [hrep u.target (.inr ⟨u, hu, .inr rfl⟩)] at heq
      exact .inr ⟨u, hu, heq.symm⟩
  · exact .inr ⟨t, ht, rfl⟩

end Unchanged

/-- A second minimization of a minimized automaton in which some state but the start does not accept
changes nothing exactly if refinement leaves the blocks that whole rounds leave, all states are entered
and no two are confused. -/
theorem minimize_same_iff (hothers : a.others.isEmpty = false) :
    (∃ m, a.minimize = .ok m ∧ m.same a = true) ↔ a.RefinedWholly ∧ a.EntersAll ∧
      ∀ s t, a.Occurs s → a.Occurs t → a.Confused s t → s = t := by
  have hinitial := ha.divided_initial hothers
  obtain ⟨r, hr, hrounds⟩ := exists_refinement_rounds hinitial.toPopulated
  have hdivided := hinitial.rounds (fun group r X => cuts_splitBySources group r X) hrounds
  have hiff := ha.rep_eq_iff hothers hr
  constructor
  · rintro ⟨m, hm, hsame⟩
    obtain ⟨hwhole, hapart⟩ :=
      hiff.mp fun s hs => ha.rep_eq_of_same hothers hr hdivided hm hsame hs
    exact ⟨hwhole, ha.entersAll_of_same hothers hr hdivided hm hsame, hapart⟩
  · rintro ⟨hwhole, hentered, hapart⟩
    exact ⟨a, ha.minimize_eq_self hothers hr hdivided (hiff.mpr ⟨hwhole, hapart⟩) hentered,
      same_self a⟩

end Compact

/-- Merging yields such an automaton. -/
theorem Settled.compact_mergeBlocks (h : a.Settled (fun _ => False) r)
    (hpending : r.pending.toList = []) (ha : a.Trim) : (a.mergeBlocks r).Compact := by
  have hmerged := h.mergedInto hpending ha
  have hoccurs := h.occurs_mergeBlocks hpending ha
  refine ⟨place_start, ?_, ?_, h.moves_mergeBlocks hpending ha, ?_, ?_, ?_⟩
  · intro n k c hk
    obtain ⟨s, hs, rfl⟩ := hmerged.source hk
    rw [hmerged.next hs, Option.map_eq_some_iff] at hk
    obtain ⟨t, ht, -⟩ := hk
    exact ha.symbol_mem ht
  · intro n hn
    rw [h.transitions_mergeBlocks hpending ha]
    exact (congrArg (place · _ n) place_start).trans (place_renumbered ((hoccurs n).mp hn))
  · intro n hn hkey
    obtain ⟨s, hs, rfl⟩ := hmerged.exists_of_occurs h.toCoarse ha hn
    rw [hmerged.accepting hs]
    rcases ha.accepting_or_next hs.1 with hacc | ⟨c, t, ht⟩
    · exact hacc
    · have hnext := hmerged.next hs c
      rw [ht, Option.map_some] at hnext
      exact (hkey (mem_keys_of_next? _ hnext)).elim
  · intro n hn
    rw [mem_accepting_mergeBlocks] at hn
    obtain ⟨s, hs, rfl⟩ := hn
    obtain ⟨hs, hrep⟩ := (h.toCoarse.mem_kept_accepting ha s).mp hs
    have happears := h.mem_appearances hpending ha ⟨ha.accepting_row s hs, hrep⟩
    exact (hoccurs _).mpr ((exists_place_iff _).mp ⟨s, happears, rfl⟩)
  · obtain ⟨s, hs⟩ := ha.exists_accepting
    have hrow := ha.accepting_row s hs
    obtain ⟨B, hB, -, hsB⟩ := h.toCoarse.exists_block ha hrow
    refine ⟨_, (hmerged.accepting (h.toCoarse.represented_rep ha hrow)).mpr ?_⟩
    exact h.accepting B hB s _ hsB (rep_mem h.partition hB hsB) hs

omit [DecidableEq α] in
/-- All states but the dead one accept exactly if there is nothing to refine. -/
theorem isEmpty_others_iff (hstart : a.start ∈ a.states) : a.others.isEmpty = true ↔
    ∀ s, a.Occurs s → s ≠ deadState → s ∈ a.accepting := by
  have hstates : ∀ s, s ≠ deadState → (s ∈ a.states ↔ a.Occurs s) := by
    intro s hs
    rw [mem_states, or_iff_right hs, Occurs]
    refine ⟨.inr, fun h => h.elim (fun heq => ?_) id⟩
    rw [← heq, mem_states, or_iff_right hs] at hstart
    exact hstart
  rw [NatSet.isEmpty_iff_forall]
  constructor
  · intro hnone s hs hdead
    by_contra hrejects
    exact hnone s ((mem_others s).mpr ⟨(hstates s hdead).mpr hs, hrejects, hdead⟩)
  · intro hall s hs
    obtain ⟨hstate, hrejects, hdead⟩ := (mem_others s).mp hs
    exact hrejects (hall s ((hstates s hdead).mp hstate) hdead)

/-- A trim automaton is minimized to one that a second minimization leaves as it is exactly if all its
states but the dead one accept, or it is refined as by whole rounds, enters all its states and confuses no
two of them. -/
theorem Trim.exists_minimize_same_iff (ha : a.Trim) : ∃ m, a.minimize = .ok m ∧
    ((∃ m', m.minimize = .ok m' ∧ m'.same m = true) ↔
      (∀ s, m.Occurs s → s ≠ deadState → s ∈ m.accepting) ∨
        m.RefinedWholly ∧ m.EntersAll ∧
          ∀ s t, m.Occurs s → m.Occurs t → m.Confused s t → s = t) := by
  have hempty : ∀ {m : Automaton α}, m.others.isEmpty = true →
      ∃ m', m.minimize = .ok m' ∧ m'.same m = true :=
    fun hothers => ⟨_, minimize_of_isEmpty hothers, same_self _⟩
  cases hothers : a.others.isEmpty with
  | true =>
    have hstart := (ha.mem_states a.start).mpr (.inr ha.start_row)
    have hall := (isEmpty_others_iff hstart).mp hothers
    exact ⟨a, minimize_of_isEmpty hothers, iff_of_true (hempty hothers) (.inl hall)⟩
  | false =>
    obtain ⟨r, hr, hsettled, hpending⟩ := exists_refinement ha hothers
    refine ⟨_, hsettled.minimize_eq hpending ha hothers hr, ?_⟩
    have hcompact := hsettled.compact_mergeBlocks hpending ha
    rw [← isEmpty_others_iff ((hcompact.mem_states _).mpr (.inl rfl))]
    cases hothers' : (a.mergeBlocks r).others.isEmpty with
    | true => exact iff_of_true (hempty hothers') (.inl rfl)
    | false => rw [hcompact.minimize_same_iff hothers', or_iff_right Bool.false_ne_true]

end Again

end Automaton

namespace Expr

/-- The automaton of an expression without empty sequences and choices can always be minimized. A second
minimization returns the same automaton exactly if all its states but the dead one accept, or refinement
leaves the blocks that it would leave if no round ended early, every state but the start is the target of a
transition, and no two states are confused if the start is taken for the dead state. -/
theorem minimize_idempotent_iff {check : Positions Input → Result Unit}
    {specializations : Specializations} {s t : Interner Input} {e : Expr} {p : Pattern Input}
    (h : e.toPattern check specializations s = .ok (t, p)) (hfull : e.Full)
    (hlimit : {S | p.positions.Discovered S}.encard ≤ Positions.stateLimit) :
    ∃ d m, p.positions.automaton = .ok d ∧ d.minimize = .ok m ∧
      ((∃ m', m.minimize = .ok m' ∧ m'.same m = true) ↔
        (∀ s, m.Occurs s → s ≠ Automaton.deadState → s ∈ m.accepting) ∨
          m.RefinedWholly ∧ m.EntersAll ∧
            ∀ s t, m.Occurs s → m.Occurs t → m.Confused s t → s = t) := by
  obtain ⟨-, d, number, hd, hrep⟩ | ⟨hlt, -⟩ := p.positions.automaton_cases
  · obtain ⟨m, hm, hiff⟩ := (hrep.trim (full_toPattern h hfull)).exists_minimize_same_iff
    exact ⟨d, m, hd, hm, hiff⟩
  · exact absurd hlimit (not_le_of_gt hlt)

/-- What the automaton of `(a | b [a])... a` is minimized to. -/
def repeatedChoiceMinimized : Automaton Input :=
  let a : Input := .literal "a" none 0 none
  let b : Input := .literal "b" none 0 none
  .ofTransitions 0 [⟨0, a, 1⟩, ⟨0, b, 1⟩, ⟨1, a, 2⟩, ⟨1, b, 1⟩, ⟨2, a, 2⟩, ⟨2, b, 1⟩] [2] [a, b]

/-- A second minimization does not change it, and so none of its states are confused. -/
theorem idempotent_repeatedChoice :
    repeatedChoiceAutomaton.minimize = .ok repeatedChoiceMinimized ∧
      repeatedChoiceMinimized.minimize = .ok repeatedChoiceMinimized ∧
      repeatedChoiceMinimized.EntersAll ∧ ∀ s t, repeatedChoiceMinimized.Occurs s →
        repeatedChoiceMinimized.Occurs t → repeatedChoiceMinimized.Confused s t → s = t := by
  have hm : repeatedChoiceAutomaton.minimize = .ok repeatedChoiceMinimized := by cbv
  have hagain : repeatedChoiceMinimized.minimize = .ok repeatedChoiceMinimized := by cbv
  obtain ⟨d, m, hd, hm', hiff⟩ := minimize_idempotent_iff toPattern_repeatedChoice
    (by simp [repeatedChoice, Full, FullAll]) discovered_repeatedChoice
  rw [automaton_repeatedChoice] at hd
  cases hd
  rw [hm] at hm'
  cases hm'
  rcases hiff.mp ⟨_, hagain, Automaton.same_self _⟩ with hall | ⟨-, hentered, hapart⟩
  · have hoccurs : repeatedChoiceMinimized.Occurs 1 :=
      .inr ⟨⟨1, .literal "a" none 0 none, 2⟩, by decide +kernel, .inl rfl⟩
    have hrejects : ¬ 1 ∈ repeatedChoiceMinimized.accepting := by decide +kernel
    exact (hrejects (hall 1 hoccurs (by decide))).elim
  · exact ⟨hm, hagain, hentered, hapart⟩

/-- A repeated choice that may be skipped: `([b [a]] | c c)...`. -/
def skippedChoice : Expr :=
  let a : Expr := .literal "a" none 0 none
  let b : Expr := .literal "b" none 0 none
  let c : Expr := .literal "c" none 0 none
  .repeated (.alternative [.optional (.sequence [b, .optional a]), .sequence [c, c]])

/-- The pattern of that expression. -/
def skippedChoicePattern : Pattern Input :=
  let a : Pattern Input := .symbol (.literal "a" none 0 none)
  let b : Pattern Input := .symbol (.literal "b" none 0 none)
  let c : Pattern Input := .symbol (.literal "c" none 0 none)
  .repeated (.alternative [.optional (.sequence [b, .optional a]), .sequence [c, c]])

/-- What the automaton of that pattern is minimized to. -/
def skippedChoiceMinimized : Automaton Input :=
  let a : Input := .literal "a" none 0 none
  let b : Input := .literal "b" none 0 none
  let c : Input := .literal "c" none 0 none
  .ofTransitions 0 [⟨0, b, 1⟩, ⟨0, c, 2⟩, ⟨1, b, 1⟩, ⟨1, a, 0⟩, ⟨1, c, 2⟩, ⟨2, c, 0⟩] [0, 1] [b, a, c]

/-- What this automaton is minimized to in turn. -/
def skippedChoiceAgain : Automaton Input :=
  let a : Input := .literal "a" none 0 none
  let b : Input := .literal "b" none 0 none
  let c : Input := .literal "c" none 0 none
  .ofTransitions 0 [⟨0, b, 0⟩, ⟨0, c, 1⟩, ⟨1, c, 0⟩] [0] [b, a, c]

/-- A second minimization takes the start for the dead state and merges the second state into it, so that
the word `b a` is no longer accepted. -/
theorem not_idempotent_skippedChoice :
    skippedChoice.toPattern (fun _ => .ok ()) .empty {} = .ok ({}, skippedChoicePattern) ∧
      (skippedChoicePattern.positions.automaton >>= Automaton.minimize) = .ok skippedChoiceMinimized ∧
      skippedChoiceMinimized.minimize = .ok skippedChoiceAgain ∧
      skippedChoiceAgain.same skippedChoiceMinimized = false ∧
      skippedChoiceMinimized.accepts [.literal "b" none 0 none, .literal "a" none 0 none] = true ∧
      skippedChoiceAgain.accepts [.literal "b" none 0 none, .literal "a" none 0 none] = false :=
  ⟨rfl, by cbv, by cbv, by decide +kernel, by decide +kernel, by decide +kernel⟩

end Expr

end ShellCompletion
