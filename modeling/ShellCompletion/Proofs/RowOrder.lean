import ShellCompletion.Proofs.Minimization
import ShellCompletion.Proofs.SearchOrder

/-!
# The order of rows

Rows that are gathered from transitions stand in the order in which their sources appear. Transitions that
are listed row by row are therefore gathered into these very rows, also if their states were renamed. So
the transitions of a merged automaton are those that were kept, in order, under new numbers.
-/

namespace ShellCompletion

namespace OrderedMap

variable {κ ν : Type} [DecidableEq κ]

/-- A new entry comes last. -/
theorem entries_insert_of_not_mem {m : OrderedMap κ ν} {k : κ} (h : k ∉ m.keys) (v : ν) :
    (m.insert k v).entries = m.entries ++ [(k, v)] := put_of_not_mem h

/-- Of two values for a key the later one counts. -/
theorem insert_insert (m : OrderedMap κ ν) (k : κ) (v w : ν) :
    (m.insert k v).insert k w = m.insert k w := by
  have hput : ∀ es : List (κ × ν), put k w (put k v es) = put k w es := by
    intro es
    induction es with
    | nil => simp [put]
    | cons e es ih =>
      by_cases he : e.1 = k
      · simp [put, he]
      · simp [put, he, ih]
  simp only [insert, hput]

omit [DecidableEq κ] in
/-- Maps with the same entries are equal. -/
theorem eq_of_entries {m n : OrderedMap κ ν} (h : m.entries = n.entries) : m = n := by
  cases m
  cases n
  cases h
  rfl

/-- A map is made from its own entries. -/
theorem ofList_entries (m : OrderedMap κ ν) : ofList m.entries = m :=
  eq_of_entries (entries_ofList m.nodup)

theorem ofList_append_singleton (es : List (κ × ν)) (e : κ × ν) :
    ofList (es ++ [e]) = (ofList es).insert e.1 e.2 := by
  rw [ofList, List.foldl_append, ofList]
  rfl

theorem get?_eq_none {m : OrderedMap κ ν} {k : κ} (h : k ∉ m.keys) : m.get? k = none :=
  Option.eq_none_iff_forall_ne_some.mpr fun v hv => h ((m.mem_keys_iff k).mpr ⟨v, hv⟩)

end OrderedMap

namespace Automaton

variable {α : Type}

section Listing

/-- The transitions of rows, row by row. -/
def listed (rows : List (ℕ × OrderedMap α ℕ)) : List (Transition α) :=
  rows.flatMap fun g => g.2.entries.map fun e => ⟨g.1, e.1, e.2⟩

theorem listed_append (rows rows' : List (ℕ × OrderedMap α ℕ)) :
    listed (rows ++ rows') = listed rows ++ listed rows' := List.flatMap_append

/-- Rows without transitions are not listed. -/
theorem listed_filter_nonempty (rows : List (ℕ × OrderedMap α ℕ)) :
    listed (rows.filter fun g => !g.2.entries.isEmpty) = listed rows := by
  induction rows with
  | nil => rfl
  | cons g rows ih =>
    cases hentries : g.2.entries with
    | nil => simpa [listed, hentries] using ih
    | cons e es => simpa [listed, hentries] using ih

/-- The transitions from some of the states are those of their rows. -/
theorem listed_filter (rows : List (ℕ × OrderedMap α ℕ)) (keep : ℕ → Bool) :
    listed (rows.filter fun g => keep g.1) = (listed rows).filter fun t => keep t.source := by
  induction rows with
  | nil => rfl
  | cons g rows ih =>
    cases hkeep : keep g.1 with
    | true => simpa [listed, hkeep, List.filter_map, Function.comp_def] using ih
    | false => simpa [listed, hkeep, List.filter_map, Function.comp_def] using ih

/-- A row with its state and its targets renamed. -/
def relabel (source target : ℕ → ℕ) (g : ℕ × OrderedMap α ℕ) : ℕ × OrderedMap α ℕ :=
  (source g.1, ⟨g.2.entries.map fun e => (e.1, target e.2), by
    simpa [Function.comp_def] using g.2.nodup⟩)

@[simp] theorem relabel_fst (source target : ℕ → ℕ) (g : ℕ × OrderedMap α ℕ) :
    (relabel source target g).1 = source g.1 := rfl

@[simp] theorem keys_relabel (source target : ℕ → ℕ) (g : ℕ × OrderedMap α ℕ) :
    (relabel source target g).2.keys = g.2.keys := by
  simp [relabel, OrderedMap.keys, Function.comp_def]

/-- Relabelled rows list relabelled transitions. -/
theorem listed_relabel (source target : ℕ → ℕ) (rows : List (ℕ × OrderedMap α ℕ)) :
    listed (rows.map (relabel source target)) =
      (listed rows).map fun t => ⟨source t.source, t.symbol, target t.target⟩ := by
  simp [listed, relabel, List.map_flatMap, List.flatMap_map, Function.comp_def]

/-- Rows in ascending order list their transitions in ascending order of sources. -/
theorem pairwise_listed {rows : List (ℕ × OrderedMap α ℕ)}
    (h : (rows.map Prod.fst).Pairwise (· < ·)) :
    (listed rows).Pairwise fun t u => t.source ≤ u.source := by
  rw [List.pairwise_map] at h
  rw [listed, List.pairwise_flatMap]
  constructor
  · intro g _
    rw [List.pairwise_map]
    exact List.pairwise_of_forall fun _ _ => le_rfl
  · refine h.imp fun hlt t ht u hu => ?_
    obtain ⟨e, -, rfl⟩ := List.mem_map.mp ht
    obtain ⟨f, -, rfl⟩ := List.mem_map.mp hu
    exact hlt.le

/-- Conversely, if each row has a transition. -/
theorem pairwise_of_listed {rows : List (ℕ × OrderedMap α ℕ)} (hnodup : (rows.map Prod.fst).Nodup)
    (hmoves : ∀ g ∈ rows, g.2.entries ≠ [])
    (h : (listed rows).Pairwise fun t u => t.source ≤ u.source) :
    (rows.map Prod.fst).Pairwise (· < ·) := by
  rw [listed, List.pairwise_flatMap] at h
  rw [List.Nodup, List.pairwise_map] at hnodup
  rw [List.pairwise_map]
  refine (h.2.and hnodup).imp_of_mem ?_
  intro g g' hg hg' hboth
  obtain ⟨e, es, he⟩ := List.exists_cons_of_ne_nil (hmoves g hg)
  obtain ⟨f, fs, hf⟩ := List.exists_cons_of_ne_nil (hmoves g' hg')
  have hle := hboth.1 ⟨g.1, e.1, e.2⟩ (by simp [he]) ⟨g'.1, f.1, f.2⟩ (by simp [hf])
  exact lt_of_le_of_ne hle hboth.2

end Listing

variable [DecidableEq α]

section Gathering

/-- Gathering the transitions of one new row. -/
theorem foldl_row {rows : OrderedMap ℕ (OrderedMap α ℕ)} {k : ℕ} (hk : k ∉ rows.keys)
    (es : List (α × ℕ)) :
    (es.map fun e => (⟨k, e.1, e.2⟩ : Transition α)).foldl
      (fun rows t => rows.alter t.source .empty (·.insert t.symbol t.target)) rows =
      if es = [] then rows else rows.insert k (.ofList es) := by
  induction es using List.reverseRecOn with
  | nil => rfl
  | append_singleton es e ih =>
    have hne : ¬ es ++ [e] = [] := by simp
    rw [List.map_append, List.foldl_append, ih, if_neg hne, OrderedMap.ofList_append_singleton]
    by_cases hes : es = []
    · rw [if_pos hes, hes]
      simp [OrderedMap.alter, OrderedMap.get?_eq_none hk, OrderedMap.ofList]
    · rw [if_neg hes]
      simp [OrderedMap.alter, OrderedMap.get?_insert, OrderedMap.insert_insert]

/-- Transitions that are listed row by row are gathered into these rows. -/
theorem entries_rowsOf_listed {rows : List (ℕ × OrderedMap α ℕ)}
    (hnodup : (rows.map Prod.fst).Nodup) :
    (rowsOf (listed rows)).entries = rows.filter fun g => !g.2.entries.isEmpty := by
  induction rows using List.reverseRecOn with
  | nil => rfl
  | append_singleton rows g ih =>
    rw [List.map_append, List.nodup_append] at hnodup
    have ih := ih hnodup.1
    have hnew : g.1 ∉ (rowsOf (listed rows)).keys := by
      rw [OrderedMap.keys, ih]
      intro hmem
      obtain ⟨g', hg', heq⟩ := List.mem_map.mp hmem
      have hg'' : g'.1 ∈ rows.map Prod.fst := List.mem_map_of_mem (List.mem_of_mem_filter hg')
      exact hnodup.2.2 _ hg'' g.1 (by simp) heq
    have hlast : listed [g] = g.2.entries.map fun e => ⟨g.1, e.1, e.2⟩ := by simp [listed]
    rw [listed_append, hlast, rowsOf, List.foldl_append, ← rowsOf, foldl_row hnew, List.filter_append]
    by_cases hempty : g.2.entries = []
    · rw [if_pos hempty, ih]
      simp [hempty]
    · rw [if_neg hempty, OrderedMap.entries_insert_of_not_mem hnew, ih, OrderedMap.ofList_entries]
      simp [hempty]

/-- Rows without an empty one are gathered from their transitions. -/
theorem rowsOf_transitions {a : Automaton α} (hmoves : ∀ g ∈ a.rows.entries, g.2.entries ≠ []) :
    rowsOf a.transitions = a.rows := by
  refine OrderedMap.eq_of_entries ((entries_rowsOf_listed a.rows.nodup).trans ?_)
  rw [List.filter_eq_self]
  intro g hg
  simpa using hmoves g hg

end Gathering

section Successors

variable (a : Automaton α)

/-- The states that are reached from a state by one symbol, in the order of the symbols. -/
def successors (s : ℕ) : List ℕ := a.symbols.toList.filterMap (a.next? s)

/-- Whether the transitions in each row stand in the order of the symbols. -/
def FollowsSymbols : Prop := ∀ g ∈ a.rows.entries, g.2.keys.Sublist a.symbols.toList

variable {a}

/-- Looking up symbols one after the other yields the values of entries whose keys are among them, in
order. -/
theorem filterMap_find? {keys symbols : List α} (h : keys.Sublist symbols) (hsymbols : symbols.Nodup)
    {es : List (α × ℕ)} (hes : es.map Prod.fst = keys) :
    symbols.filterMap (fun c => (es.find? (·.1 = c)).map Prod.snd) = es.map Prod.snd := by
  induction h generalizing es with
  | slnil => simp [List.map_eq_nil_iff.mp hes]
  | cons c hsub ih =>
    rw [List.nodup_cons] at hsymbols
    have hfind : es.find? (·.1 = c) = none := by
      rw [List.find?_eq_none]
      intro e he heq
      refine hsymbols.1 (hsub.subset ?_)
      rw [← hes]
      exact List.mem_map.mpr ⟨e, he, by simpa using heq⟩
    rw [List.filterMap_cons_none (by rw [hfind]; rfl), ih hsymbols.2 hes]
  | cons_cons c hsub ih =>
    rw [List.nodup_cons] at hsymbols
    rw [List.map_eq_cons_iff] at hes
    obtain ⟨e, es, rfl, rfl, hes⟩ := hes
    have hfirst : ((e :: es).find? (·.1 = e.1)).map Prod.snd = some e.2 := by simp
    rw [List.filterMap_cons, hfirst, List.map_cons, ← ih hsymbols.2 hes]
    refine congrArg (e.2 :: ·) ?_
    refine List.filterMap_congr fun c hc => ?_
    have hne : ¬ e.1 = c := fun heq => hsymbols.1 (heq ▸ hc)
    simp [hne]

/-- The successors of a state are the targets of its row, in order. -/
theorem FollowsSymbols.successors_eq (h : a.FollowsSymbols) {g : ℕ × OrderedMap α ℕ}
    (hg : g ∈ a.rows.entries) : a.successors g.1 = g.2.entries.map Prod.snd := by
  have hrow : a.next? g.1 = g.2.get? := by
    funext c
    rw [next?, (a.rows.mem_entries_iff g.1 g.2).mp hg, Option.bind_some]
  rw [successors, hrow]
  exact filterMap_find? (h g hg) a.symbols.nodup rfl

/-- A state without a row has no successors. -/
theorem successors_of_not_mem {s : ℕ} (hs : s ∉ a.rows.keys) : a.successors s = [] := by
  rw [successors, List.filterMap_eq_nil_iff]
  intro c _
  rw [next?, OrderedMap.get?_eq_none hs, Option.bind_none]

/-- If the rows stand in ascending order, the transitions are the steps of a search that takes up the
states in ascending order. -/
theorem FollowsSymbols.steps_successors (h : a.FollowsSymbols) (hrows : a.rows.keys.Pairwise (· < ·))
    {n : ℕ} (hn : ∀ s ∈ a.rows.keys, s < n) :
    Positions.steps a.successors (List.range n) = a.transitions.map fun t => (t.source, t.target) := by
  have hkeys : a.rows.keys = (List.range n).filter (· ∈ a.rows.keys) := by
    refine hrows.eq_of_mem_iff (List.pairwise_lt_range.filter _) fun s => ?_
    rw [List.mem_filter, List.mem_range, decide_eq_true_eq]
    exact ⟨fun hs => ⟨hn s hs, hs⟩, And.right⟩
  have hskip : ∀ ss : List ℕ, Positions.steps a.successors ss =
      Positions.steps a.successors (ss.filter (· ∈ a.rows.keys)) := by
    intro ss
    induction ss with
    | nil => rfl
    | cons s ss ih =>
      by_cases hs : s ∈ a.rows.keys
      · simpa [Positions.steps, hs] using ih
      · simpa [Positions.steps, hs, successors_of_not_mem hs] using ih
  rw [hskip, ← hkeys, Positions.steps, OrderedMap.keys, List.flatMap_map, transitions,
    List.map_flatMap]
  refine List.flatMap_congr fun g hg => ?_
  rw [h.successors_eq hg]
  simp [Function.comp_def]

end Successors

section Merged

variable {a : Automaton α} {r : Refinement}

/-- The rows of representatives, with targets replaced by representatives. -/
def keptRows (a : Automaton α) (r : Refinement) : List (ℕ × OrderedMap α ℕ) :=
  (a.rows.entries.filter fun g => r.rep g.1 == g.1).map (relabel id r.rep)

/-- The transitions that are kept are listed row by row. -/
theorem Coarse.kept_eq_listed (h : a.Coarse r) (ha : a.Trim) :
    (a.kept r).1 = listed (a.keptRows r) := by
  have hmerged : a.merged r =
      (listed a.rows.entries).map fun t => ⟨id t.source, t.symbol, r.rep t.target⟩ := rfl
  have hkept : (a.kept r).1 = (a.merged r).filter fun t => r.rep t.source == t.source := by
    have hsub : (a.kept r).1 = (a.merged r).filter fun t => t.source == r.rep a.start ||
      ((NatSet.ofList ((a.merged r).map (·.target))).contains t.source &&
        (NatSet.ofList ((a.merged r).map (·.target))).contains t.target) := rfl
    rw [hsub]
    refine List.filter_congr fun t ht => ?_
    have hmem := h.mem_kept ha t
    rw [hsub, List.mem_filter] at hmem
    rw [Bool.eq_iff_iff, beq_iff_eq]
    constructor
    · exact fun hreached => (hmem.mp ⟨ht, hreached⟩).1
    · intro hrep
      obtain ⟨u, hu, rfl⟩ := List.mem_map.mp ht
      exact (hmem.mpr ⟨hrep, u.target, (a.mem_transitions u).mp hu, rfl⟩).2
  rw [hkept, hmerged, List.filter_map, keptRows, listed_relabel,
    listed_filter a.rows.entries fun s => r.rep s == s]
  rfl

omit [DecidableEq α] in
/-- There is one row for each state that is kept. -/
theorem nodup_keptRows (a : Automaton α) (r : Refinement) : ((a.keptRows r).map Prod.fst).Nodup := by
  rw [keptRows, List.map_map]
  exact a.rows.nodup.sublist (List.filter_sublist.map _)

/-- The rows of the merged automaton are those of representatives that have transitions, renumbered. -/
theorem Settled.entries_mergeBlocks (h : a.Settled (fun _ => False) r)
    (hpending : r.pending.toList = []) (ha : a.Trim) :
    (a.mergeBlocks r).rows.entries =
      ((a.keptRows r).filter fun g => !g.2.entries.isEmpty).map
        (relabel (place (r.rep a.start) (a.kept r).1) (place (r.rep a.start) (a.kept r).1)) := by
  set number := place (r.rep a.start) (a.kept r).1 with hnumber
  have hrenumbered : renumbered (r.rep a.start) (a.kept r).1 =
      listed ((a.keptRows r).map (relabel number number)) := by
    rw [listed_relabel, ← h.toCoarse.kept_eq_listed ha]
    rfl
  have hnodup : (((a.keptRows r).map (relabel number number)).map Prod.fst).Nodup := by
    have hkeys : ((a.keptRows r).map (relabel number number)).map Prod.fst =
        ((a.keptRows r).map Prod.fst).map number := by
      simp [Function.comp_def]
    rw [hkeys]
    refine (nodup_keptRows a r).map_on fun s hs t ht heq => ?_
    have hrep : ∀ {s}, s ∈ (a.keptRows r).map Prod.fst → a.Represented r s := by
      intro s hs
      obtain ⟨g, hg, rfl⟩ := List.mem_map.mp hs
      obtain ⟨row, hrow, rfl⟩ := List.mem_map.mp hg
      obtain ⟨hmem, hrep⟩ := List.mem_filter.mp hrow
      have hkey : row.1 ∈ a.rows.keys := List.mem_map_of_mem hmem
      exact ⟨hkey, by simpa using hrep⟩
    exact place_inj (h.mem_appearances hpending ha (hrep hs))
      (h.mem_appearances hpending ha (hrep ht)) heq
  have hempty : (fun g : ℕ × OrderedMap α ℕ => !g.2.entries.isEmpty) ∘ relabel number number =
      fun g => !g.2.entries.isEmpty := by
    funext g
    simp [relabel]
  rw [mergeBlocks, hrenumbered, entries_rowsOf_listed hnodup, List.filter_map, hempty]

/-- No row of a merged automaton is empty. -/
theorem Settled.moves_mergeBlocks (h : a.Settled (fun _ => False) r)
    (hpending : r.pending.toList = []) (ha : a.Trim) :
    ∀ g ∈ (a.mergeBlocks r).rows.entries, g.2.entries ≠ [] := by
  intro g hg
  rw [h.entries_mergeBlocks hpending ha] at hg
  obtain ⟨row, hrow, rfl⟩ := List.mem_map.mp hg
  have hne := (List.mem_filter.mp hrow).2
  simpa [relabel] using hne

/-- The transitions of the merged automaton are those that are kept, renumbered. -/
theorem Settled.transitions_mergeBlocks (h : a.Settled (fun _ => False) r)
    (hpending : r.pending.toList = []) (ha : a.Trim) :
    (a.mergeBlocks r).transitions = renumbered (r.rep a.start) (a.kept r).1 := by
  change listed (a.mergeBlocks r).rows.entries = _
  rw [h.entries_mergeBlocks hpending ha, listed_relabel, listed_filter_nonempty,
    ← h.toCoarse.kept_eq_listed ha]
  rfl

end Merged

end Automaton

end ShellCompletion
