import Mathlib.Data.List.Induction
import ShellCompletion.Proofs.SettledBlocks

/-!
# Merging the states of a block

Each block is represented by its least state. Merging keeps the transitions of representatives, with
targets replaced by their representatives, and numbers the representatives anew. It never fails: a
representative that has no transitions accepts, and is a target of some representative because its block
was treated to the end.
-/

namespace ShellCompletion.Automaton

open Refinement

section Representatives

variable {S : NatSet} {r : Refinement}

/-- The representative of a state: the least state of its block. -/
def Refinement.rep (r : Refinement) (s : ℕ) : ℕ :=
  (representative? r.blocks.toList s).getD deadState

/-- A state that is in some block is represented by the least member of a block that it is in. -/
theorem exists_representative? {s : ℕ} (hs : ∃ B ∈ r.blocks.toList, s ∈ B) :
    representative? r.blocks.toList s = some (r.rep s) ∧
      ∃ B ∈ r.blocks.toList, s ∈ B ∧ r.rep s ∈ B ∧ ∀ n, n ∈ B → r.rep s ≤ n := by
  obtain ⟨B, hB, hsB⟩ := hs
  cases hfind : r.blocks.toList.reverse.find? (·.contains s) with
  | none =>
    rw [List.find?_eq_none] at hfind
    exact (hfind B (by simpa using hB) hsB).elim
  | some C =>
    have hC : C ∈ r.blocks.toList := by simpa using List.mem_of_find?_eq_some hfind
    have hsC := List.find?_some hfind
    change s ∈ C at hsC
    obtain ⟨m, hmin, hm, hleast⟩ := NatSet.exists_min? hsC
    have heq : representative? r.blocks.toList s = some m := by
      rw [representative?, hfind, Option.bind_some, hmin]
    rw [rep, heq, Option.getD_some]
    exact ⟨rfl, C, hC, hsC, hm, hleast⟩

/-- The representative of a state is the least member of its block. -/
theorem representative?_eq (h : Partition S r) {B : NatSet} (hB : B ∈ r.blocks.toList) {s : ℕ}
    (hs : s ∈ B) :
    representative? r.blocks.toList s = some (r.rep s) ∧ r.rep s ∈ B ∧ ∀ n, n ∈ B → r.rep s ≤ n := by
  obtain ⟨heq, C, hC, hsC, hrep, hleast⟩ := exists_representative? ⟨B, hB, hs⟩
  rw [h.disjoint B hB C hC s hs hsC]
  exact ⟨heq, hrep, hleast⟩

theorem rep_mem (h : Partition S r) {B : NatSet} (hB : B ∈ r.blocks.toList) {s : ℕ} (hs : s ∈ B) :
    r.rep s ∈ B := (representative?_eq h hB hs).2.1

/-- The states of a block have one representative. -/
theorem rep_eq_rep (h : Partition S r) {B : NatSet} (hB : B ∈ r.blocks.toList) {s t : ℕ}
    (hs : s ∈ B) (ht : t ∈ B) : r.rep s = r.rep t := by
  obtain ⟨-, hs', hsleast⟩ := representative?_eq h hB hs
  obtain ⟨-, ht', htleast⟩ := representative?_eq h hB ht
  exact le_antisymm (hsleast _ ht') (htleast _ hs')

/-- The representative of a representative is itself. -/
theorem rep_rep (h : Partition S r) {s : ℕ} (hs : s ∈ S) : r.rep (r.rep s) = r.rep s := by
  obtain ⟨B, hB, hsB⟩ := (h.cover s).mp hs
  exact rep_eq_rep h hB (rep_mem h hB hsB) hsB

end Representatives

variable {α : Type} [DecidableEq α]

section Rows

/-- Of transitions on the same symbol from the same state the last one counts. -/
theorem get?_rowsOf (ts : List (Transition α)) (s : ℕ) (c : α) :
    ((rowsOf ts).get? s).bind (·.get? c) =
      (ts.reverse.find? fun t => decide (t.source = s ∧ t.symbol = c)).map (·.target) := by
  induction ts using List.reverseRecOn with
  | nil => rfl
  | append_singleton ts t ih =>
    rw [rowsOf, List.foldl_append, List.foldl_cons, List.foldl_nil, ← rowsOf,
      OrderedMap.get?_alter, List.reverse_append, List.reverse_singleton, List.singleton_append,
      List.find?_cons]
    by_cases hs : s = t.source
    · subst hs
      have hrow : ((rowsOf ts).get? t.source).bind (·.get? c) =
          (((rowsOf ts).get? t.source).getD .empty).get? c := by
        cases (rowsOf ts).get? t.source <;> rfl
      rw [if_pos rfl, Option.bind_some, OrderedMap.get?_insert]
      by_cases hc : c = t.symbol
      · simp [hc]
      · have hc' : ¬ t.symbol = c := fun h => hc h.symm
        simp only [hc, if_false, hc', and_false, decide_false]
        rw [← hrow, ih]
    · have hs' : ¬ t.source = s := fun h => hs h.symm
      simp only [hs, if_false, hs', false_and, decide_false]
      exact ih

/-- The transitions of rows are among those that were gathered. -/
theorem mem_of_get?_rowsOf {ts : List (Transition α)} {s : ℕ} {c : α} {n : ℕ}
    (h : ((rowsOf ts).get? s).bind (·.get? c) = some n) : ⟨s, c, n⟩ ∈ ts := by
  rw [get?_rowsOf, Option.map_eq_some_iff] at h
  obtain ⟨t, ht, rfl⟩ := h
  have hmem := List.mem_of_find?_eq_some ht
  have hkey := List.find?_some ht
  rw [decide_eq_true_eq] at hkey
  obtain ⟨rfl, rfl⟩ := hkey
  simpa using hmem

/-- Transitions of which no two disagree are those of their rows. -/
theorem get?_rowsOf_eq_some {ts : List (Transition α)}
    (hts : ∀ t ∈ ts, ∀ u ∈ ts, t.source = u.source → t.symbol = u.symbol → t.target = u.target)
    (s : ℕ) (c : α) (n : ℕ) :
    ((rowsOf ts).get? s).bind (·.get? c) = some n ↔ ⟨s, c, n⟩ ∈ ts := by
  refine ⟨mem_of_get?_rowsOf, fun hmem => ?_⟩
  rw [get?_rowsOf, Option.map_eq_some_iff]
  cases hfind : ts.reverse.find? fun t => decide (t.source = s ∧ t.symbol = c) with
  | none =>
    rw [List.find?_eq_none] at hfind
    exact (hfind ⟨s, c, n⟩ (by simpa using hmem) (by simp)).elim
  | some t =>
    have hkey := List.find?_some hfind
    rw [decide_eq_true_eq] at hkey
    have ht : t ∈ ts := by simpa using List.mem_of_find?_eq_some hfind
    exact ⟨t, rfl, hts t ht _ hmem hkey.1 hkey.2⟩

end Rows

section Numbering

variable (start : ℕ) (ts : List (Transition α)) (accepting : NatSet) (symbols : OrderedSet α)

/-- The number of a state: its place in order of appearance. -/
def place (s : ℕ) : ℕ := ((appearances start ts).indexOf? s).getD 0

omit [DecidableEq α] in
/-- The start appears, and so do both ends of transitions. -/
theorem mem_appearances (s : ℕ) : s ∈ (appearances start ts).toList ↔
    s = start ∨ ∃ t ∈ ts, s = t.source ∨ s = t.target := by
  simp [appearances]

variable {start ts}

omit [DecidableEq α] in
theorem source_mem_appearances {t : Transition α} (ht : t ∈ ts) :
    t.source ∈ (appearances start ts).toList :=
  (mem_appearances start ts _).mpr (.inr ⟨t, ht, .inl rfl⟩)

omit [DecidableEq α] in
theorem target_mem_appearances {t : Transition α} (ht : t ∈ ts) :
    t.target ∈ (appearances start ts).toList :=
  (mem_appearances start ts _).mpr (.inr ⟨t, ht, .inr rfl⟩)

omit [DecidableEq α] in
/-- States that appear have different places. -/
theorem place_inj {s t : ℕ} (hs : s ∈ (appearances start ts).toList)
    (ht : t ∈ (appearances start ts).toList) (h : place start ts s = place start ts t) : s = t := by
  obtain ⟨i, hi, hsi⟩ := OrderedSet.exists_indexOf? hs
  obtain ⟨j, hj, htj⟩ := OrderedSet.exists_indexOf? ht
  rw [place, place, hi, hj, Option.getD_some, Option.getD_some] at h
  rw [h, htj] at hsi
  exact (Option.some.inj hsi).symm

omit [DecidableEq α] in
/-- The place of a state that appears is found. -/
theorem require_place {s : ℕ} (hs : s ∈ (appearances start ts).toList) :
    require .unknownState ((appearances start ts).indexOf? s) = .ok (place start ts s) := by
  obtain ⟨i, hi, -⟩ := OrderedSet.exists_indexOf? hs
  rw [place, hi]
  rfl

variable (start ts)

/-- The transitions under the new numbers of their states. -/
def renumbered : List (Transition α) :=
  ts.map fun t => ⟨place start ts t.source, t.symbol, place start ts t.target⟩

variable {start ts}

omit [DecidableEq α] in
/-- Every transition can be numbered, as its states appear. -/
theorem mapM_renumbered : ts.mapM (fun t => do
    return { t with
      source := ← require .unknownState ((appearances start ts).indexOf? t.source)
      target := ← require .unknownState ((appearances start ts).indexOf? t.target) }) =
    (.ok (renumbered start ts) : Result (List (Transition α))) := by
  refine Result.mapM_eq_ok fun t ht => ?_
  rw [require_place (source_mem_appearances ht), Result.ok_bind,
    require_place (target_mem_appearances ht), Result.ok_bind]
  rfl

/-- Numbering states anew succeeds if every accepting state appears. -/
theorem renumber_eq (haccepting : ∀ s, s ∈ accepting → s ∈ (appearances start ts).toList) :
    renumber start ts accepting symbols = .ok ⟨place start ts start, rowsOf (renumbered start ts),
      .ofList (accepting.toList.map (place start ts)), symbols⟩ := by
  have hlist : accepting.toList.mapM
      (fun s => require .unknownState ((appearances start ts).indexOf? s)) =
      (.ok (accepting.toList.map (place start ts)) : Result (List ℕ)) :=
    Result.mapM_eq_ok fun s hs => require_place (haccepting s ((NatSet.mem_toList _ s).mp hs))
  rw [renumber]
  dsimp only
  rw [require_place ((mem_appearances start ts _).mpr (.inl rfl)), Result.ok_bind, mapM_renumbered,
    Result.ok_bind, hlist]
  rfl

variable {accepting symbols} in
/-- Whenever numbering succeeds, the rows are those of the numbered transitions. -/
theorem rows_of_renumber {m : Automaton α} (h : renumber start ts accepting symbols = .ok m) :
    m.start = place start ts start ∧ m.rows = rowsOf (renumbered start ts) := by
  rw [renumber] at h
  dsimp only at h
  rw [require_place ((mem_appearances start ts _).mpr (.inl rfl)), Result.ok_bind, mapM_renumbered,
    Result.ok_bind] at h
  obtain ⟨states, -, hm⟩ := Result.bind_eq_ok.mp h
  cases hm
  exact ⟨rfl, rfl⟩

variable (start) in
/-- The rows of the numbered transitions hold these transitions, if no two of them disagree. -/
theorem get?_rowsOf_renumbered
    (hts : ∀ t ∈ ts, ∀ u ∈ ts, t.source = u.source → t.symbol = u.symbol → t.target = u.target)
    (n : ℕ) (c : α) (k : ℕ) :
    ((rowsOf (renumbered start ts)).get? n).bind (·.get? c) = some k ↔
      ∃ t ∈ ts, place start ts t.source = n ∧ t.symbol = c ∧ place start ts t.target = k := by
  have hfunctional : ∀ t ∈ renumbered start ts, ∀ u ∈ renumbered start ts, t.source = u.source →
      t.symbol = u.symbol → t.target = u.target := by
    intro t' ht' u' hu' hsources hsymbols
    obtain ⟨t, ht, rfl⟩ := List.mem_map.mp ht'
    obtain ⟨u, hu, rfl⟩ := List.mem_map.mp hu'
    have hsource := place_inj (source_mem_appearances ht) (source_mem_appearances hu) hsources
    rw [hts t ht u hu hsource hsymbols]
  rw [get?_rowsOf_eq_some hfunctional, renumbered, List.mem_map]
  simp only [Transition.mk.injEq]

end Numbering

section Merge

variable (a : Automaton α) (r : Refinement)

/-- The transitions with targets replaced by their representatives. -/
def merged : List (Transition α) :=
  a.transitions.map fun t => { t with target := r.rep t.target }

/-- The merged transitions and accepting states that can be reached. -/
def kept : List (Transition α) × NatSet :=
  keepReached (r.rep a.start) (a.merged r) (.ofList (a.accepting.toList.map r.rep))

/-- The automaton that remains when each block is merged into its representative. -/
def mergeBlocks : Automaton α where
  start := place (r.rep a.start) (a.kept r).1 (r.rep a.start)
  rows := rowsOf (renumbered (r.rep a.start) (a.kept r).1)
  accepting := .ofList ((a.kept r).2.toList.map (place (r.rep a.start) (a.kept r).1))
  symbols := a.symbols

/-- A merged automaton accepts in the places of the accepting states that are kept. -/
theorem mem_accepting_mergeBlocks (n : ℕ) : n ∈ (a.mergeBlocks r).accepting ↔
    ∃ s, s ∈ (a.kept r).2 ∧ place (r.rep a.start) (a.kept r).1 s = n := by
  simp only [mergeBlocks, NatSet.mem_ofList, List.mem_map, NatSet.mem_toList]

/-- The states of the merged automaton: the rows that represent their blocks. -/
def Represented (s : ℕ) : Prop := s ∈ a.rows.keys ∧ r.rep s = s

variable {a r}

/-- A state with a row is in a block other than that of the dead state. -/
theorem Coarse.exists_block (h : a.Coarse r) (ha : a.Trim) {s : ℕ} (hs : s ∈ a.rows.keys) :
    ∃ B ∈ r.blocks.toList, B ≠ .singleton deadState ∧ s ∈ B := by
  obtain ⟨B, hB, hsB⟩ := (h.partition.cover s).mp ((ha.mem_states s).mpr (.inr hs))
  refine ⟨B, hB, ?_, hsB⟩
  rintro rfl
  rw [NatSet.mem_singleton] at hsB
  exact ha.dead_row (hsB ▸ hs)

/-- The representative of a row is a row that represents its block. -/
theorem Coarse.represented_rep (h : a.Coarse r) (ha : a.Trim) {s : ℕ} (hs : s ∈ a.rows.keys) :
    a.Represented r (r.rep s) := by
  obtain ⟨B, hB, hne, hsB⟩ := h.exists_block ha hs
  exact ⟨h.mem_keys ha hB hne (rep_mem h.partition hB hsB),
    rep_rep h.partition ((ha.mem_states s).mpr (.inr hs))⟩

/-- What can be reached after merging are the representatives. -/
theorem Coarse.reached_iff (h : a.Coarse r) (ha : a.Trim) (s : ℕ) :
    (s = r.rep a.start ∨ s ∈ NatSet.ofList ((a.merged r).map (·.target))) ↔ a.Represented r s := by
  have htarget : s ∈ NatSet.ofList ((a.merged r).map (·.target)) ↔
      ∃ q c t, a.next? q c = some t ∧ r.rep t = s := by
    simp only [NatSet.mem_ofList, merged, List.map_map, List.mem_map, mem_transitions,
      Function.comp_apply]
    constructor
    · rintro ⟨t, ht, rfl⟩
      exact ⟨t.source, t.symbol, t.target, ht, rfl⟩
    · rintro ⟨q, c, t, ht, rfl⟩
      exact ⟨⟨q, c, t⟩, ht, rfl⟩
  rw [htarget]
  constructor
  · rintro (rfl | ⟨q, c, t, ht, rfl⟩)
    · exact h.represented_rep ha ha.start_row
    · exact h.represented_rep ha (ha.target_row ht)
  · rintro ⟨hs, hrep⟩
    rcases ha.start_or_target hs with rfl | ⟨q, c, ht⟩
    · exact .inl hrep.symm
    · exact .inr ⟨q, c, s, ht, hrep⟩

/-- The transitions that are kept are those of the representatives. -/
theorem Coarse.mem_kept (h : a.Coarse r) (ha : a.Trim) (t : Transition α) :
    t ∈ (a.kept r).1 ↔ r.rep t.source = t.source ∧
      ∃ u, a.next? t.source t.symbol = some u ∧ t.target = r.rep u := by
  have hmerged : t ∈ a.merged r ↔ ∃ u, a.next? t.source t.symbol = some u ∧ t.target = r.rep u := by
    simp only [merged, List.mem_map, mem_transitions]
    constructor
    · rintro ⟨u, hu, rfl⟩
      exact ⟨u.target, hu, rfl⟩
    · rintro ⟨u, hu, htarget⟩
      exact ⟨⟨t.source, t.symbol, u⟩, hu, by rw [← htarget]⟩
  simp only [kept, keepReached, List.mem_filter, Bool.or_eq_true, beq_iff_eq, Bool.and_eq_true,
    NatSet.contains_iff]
  constructor
  · rintro ⟨ht, hfrom⟩
    have hrep := (h.reached_iff ha t.source).mp (hfrom.imp_right And.left)
    exact ⟨hrep.2, hmerged.mp ht⟩
  · rintro ⟨hrep, hnext⟩
    refine ⟨hmerged.mpr hnext, ?_⟩
    obtain ⟨u, hu, htarget⟩ := hnext
    refine ((h.reached_iff ha t.source).mpr ⟨a.mem_keys_of_next? hu, hrep⟩).imp_right
      fun hs => ⟨hs, ?_⟩
    simp only [NatSet.mem_ofList]
    exact List.mem_map_of_mem (hmerged.mpr ⟨u, hu, htarget⟩)

/-- The accepting states that are kept are the accepting representatives. -/
theorem Coarse.mem_kept_accepting (h : a.Coarse r) (ha : a.Trim) (s : ℕ) :
    s ∈ (a.kept r).2 ↔ s ∈ a.accepting ∧ r.rep s = s := by
  simp only [kept, keepReached, NatSet.mem_ofList, List.mem_filter, NatSet.mem_toList,
    Bool.or_eq_true, beq_iff_eq, NatSet.contains_iff, List.mem_map]
  constructor
  · rintro ⟨⟨t, ht, rfl⟩, -⟩
    obtain ⟨B, hB, -, htB⟩ := h.exists_block ha (ha.accepting_row t ht)
    exact ⟨h.accepting B hB t _ htB (rep_mem h.partition hB htB) ht,
      (h.represented_rep ha (ha.accepting_row t ht)).2⟩
  · rintro ⟨hs, hrep⟩
    refine ⟨⟨s, hs, hrep⟩, ?_⟩
    have hreached := (h.reached_iff ha s).mpr ⟨ha.accepting_row s hs, hrep⟩
    simpa only [NatSet.mem_ofList, List.mem_map] using hreached

/-- No transition that is kept is useless. -/
theorem Coarse.dropUseless_kept (h : a.Coarse r) (ha : a.Trim) :
    dropUseless (a.kept r).1 (a.kept r).2 = (a.kept r).1 := by
  rw [dropUseless, List.filter_eq_self]
  intro t ht
  obtain ⟨-, u, hu, htarget⟩ := (h.mem_kept ha t).mp ht
  obtain ⟨hkey, hrep⟩ := h.represented_rep ha (ha.target_row hu)
  rw [Bool.or_eq_true, NatSet.contains_iff, NatSet.contains_iff, NatSet.mem_ofList, List.mem_map,
    htarget]
  rcases ha.accepting_or_next hkey with hacc | ⟨c, v, hv⟩
  · exact .inl ((h.mem_kept_accepting ha _).mpr ⟨hacc, hrep⟩)
  · exact .inr ⟨⟨r.rep u, c, r.rep v⟩, (h.mem_kept ha _).mpr ⟨hrep, v, hv, rfl⟩, rfl⟩

/-- Every representative appears. Where it has no transition of its own, its block was treated to the
end, so that a representative has a transition into the block. -/
theorem Settled.mem_appearances (h : a.Settled (fun _ => False) r) (hpending : r.pending.toList = [])
    (ha : a.Trim) {s : ℕ} (hs : a.Represented r s) :
    s ∈ (appearances (r.rep a.start) (a.kept r).1).toList := by
  obtain ⟨hkey, hrep⟩ := hs
  rw [Automaton.mem_appearances]
  by_cases hmoves : ∃ c t, a.next? s c = some t
  · obtain ⟨c, t, ht⟩ := hmoves
    exact .inr ⟨⟨s, c, r.rep t⟩, (h.toCoarse.mem_kept ha _).mpr ⟨hrep, t, ht, rfl⟩, .inl rfl⟩
  rcases ha.start_or_target hkey with rfl | ⟨q, c, hq⟩
  · exact .inl hrep.symm
  obtain ⟨B, hB, hne, hsB⟩ := h.toCoarse.exists_block ha hkey
  have hnone : ∀ c, a.next? s c = none := fun c =>
    Option.eq_none_iff_forall_ne_some.mpr fun t ht => hmoves ⟨c, t, ht⟩
  have hterminal : a.Terminal B := ⟨hne, fun t ht c => h.enabled B hB s t hsB ht c (hnone c)⟩
  have hdone : ∀ X ∈ a.sourceSets B, Respects X r := by
    rcases h.terminal B hB hterminal with hfalse | hmem | hdone
    · exact hfalse.elim
    · simp [hpending] at hmem
    · exact hdone
  have hstep : a.step q c = s := by rw [step, hq, Option.getD_some]
  have hqkey := a.mem_keys_of_next? hq
  obtain ⟨X, hX, hinto⟩ := exists_sourceSet ha.readsSymbols (ha.symbol_mem hq) hqkey
    (hstep ▸ hsB : _ ∈ B)
  obtain ⟨C, hC, -, hqC⟩ := h.toCoarse.exists_block ha hqkey
  have hqX : q ∈ X := (hinto.mem_iff q).mpr ⟨hqkey, hstep ▸ hsB⟩
  have hrepX : r.rep q ∈ X := by
    by_contra hout
    exact hdone X hX C hC ⟨⟨q, hqC, hqX⟩, r.rep q, rep_mem h.partition hC hqC, hout⟩
  have hinB := ((hinto.mem_iff _).mp hrepX).2
  cases hnext : a.next? (r.rep q) c with
  | none =>
    rw [ha.step_eq_dead.mpr hnext] at hinB
    exact (hne (h.partition.disjoint B hB _ h.toCoarse.dead_mem _ hinB (by simp))).elim
  | some v =>
    rw [step, hnext, Option.getD_some] at hinB
    refine .inr ⟨⟨r.rep q, c, r.rep v⟩, (h.toCoarse.mem_kept ha _).mpr
      ⟨(h.toCoarse.represented_rep ha hqkey).2, v, hnext, rfl⟩, .inr ?_⟩
    rw [← hrep]
    exact rep_eq_rep h.partition hB hsB hinB

end Merge

end ShellCompletion.Automaton
