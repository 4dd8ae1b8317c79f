import Mathlib.Data.Set.Card
import ShellCompletion.Automaton.Construction
import ShellCompletion.Proofs.Collections
import ShellCompletion.Proofs.PatternWords
import ShellCompletion.Proofs.Runs

/-!
# Sets of positions as states

Reading a word turns a set of positions into the positions that may come next. The construction finds
exactly the sets that arise from the first positions in this way, numbers them, and gives each the
transitions that reading one symbol makes. What it yields is stated once, in `Represents`; an automaton
that represents the positions of a pattern accepts exactly the words of the pattern.
-/

namespace ShellCompletion.Positions

section Reading

variable {α : Type} [DecidableEq α] (p : Positions α)

/-- A position may come after a symbol if it follows one of the given positions with that symbol. -/
theorem mem_after (here : List ℕ) (a : α) (m : ℕ) :
    m ∈ p.after here a ↔ ∃ n ∈ here, p.symbols[n]? = some a ∧ m ∈ p.follow n := by
  have general : ∀ result : NatSet,
      m ∈ here.foldl (fun result n =>
        if p.symbols[n]? = some a then result.union (p.follow n) else result) result ↔
      m ∈ result ∨ ∃ n ∈ here, p.symbols[n]? = some a ∧ m ∈ p.follow n := by
    induction here with
    | nil => simp
    | cons n here ih =>
      intro result
      rw [List.foldl_cons, ih]
      by_cases hn : p.symbols[n]? = some a
      · simp [hn, or_assoc]
      · simp [hn]
  rw [after, general]
  simp

/-- The positions that may come next after a word is read at a set of positions. -/
def afterWord (set : NatSet) : List α → NatSet
  | [] => set
  | a :: word => afterWord (p.after set.toList a) word

/-- The sets of positions that the construction discovers: the first positions, and every set that is
not empty and arises from a discovered one by reading a symbol. -/
inductive Discovered : NatSet → Prop
  | first : Discovered p.first
  | after {set : NatSet} (a : α) : Discovered set → (p.after set.toList a).isEmpty = false →
      Discovered (p.after set.toList a)

/-- A position may come next after a word if the word can be read along positions that follow each
other, from a member of the set up to that position. -/
theorem mem_afterWord (set : NatSet) (word : List α) (m : ℕ) :
    m ∈ p.afterWord set word ↔ ∃ u : List ℕ, u.map (p.symbols[·]?) = word.map some ∧
      (u ++ [m]).IsChain (fun n k => k ∈ p.follow n) ∧ ∀ n ∈ (u ++ [m]).head?, n ∈ set := by
  induction word generalizing set with
  | nil => simp [afterWord]
  | cons a word ih =>
    rw [afterWord, ih]
    constructor
    · rintro ⟨u, hu, hchain, hhead⟩
      obtain ⟨k, ks, hk⟩ := List.exists_cons_of_ne_nil (l := u ++ [m]) (by simp)
      rw [hk] at hchain hhead
      obtain ⟨n, hn, hsymbol, hfollow⟩ := (p.mem_after set.toList a k).mp (hhead k rfl)
      refine ⟨n :: u, by simp [hsymbol, hu], ?_, ?_⟩
      · rw [List.cons_append, hk]
        exact List.isChain_cons_cons.mpr ⟨hfollow, hchain⟩
      · intro n' hn'
        rw [List.cons_append, List.head?_cons, Option.mem_some_iff] at hn'
        exact hn' ▸ (NatSet.mem_toList set n).mp hn
    · rintro ⟨u, hu, hchain, hhead⟩
      cases u with
      | nil => simp at hu
      | cons n u =>
        rw [List.map_cons, List.map_cons, List.cons.injEq] at hu
        obtain ⟨k, ks, hk⟩ := List.exists_cons_of_ne_nil (l := u ++ [m]) (by simp)
        rw [List.cons_append, hk, List.isChain_cons_cons] at hchain
        refine ⟨u, hu.2, hk ▸ hchain.2, ?_⟩
        rw [hk]
        intro k' hk'
        rw [List.head?_cons, Option.mem_some_iff] at hk'
        subst hk'
        exact (p.mem_after set.toList a k).mpr
          ⟨n, (NatSet.mem_toList set n).mpr (hhead n rfl), hu.1, hchain.1⟩

end Reading

section Search

variable {β : Type} [DecidableEq β] {next : β → List β}

/-- Queueing what has not been met yet adds exactly the new values, each of them once. -/
theorem queue_spec (found : List β) (b : β) (cs pending : List β)
    (hnodup : (found ++ b :: pending).Nodup) :
    let waiting := cs.foldl
      (fun waiting c => if c ∈ found ∨ c = b ∨ c ∈ waiting then waiting else waiting ++ [c]) pending
    ((found ++ [b]) ++ waiting).Nodup ∧
      ∀ c, c ∈ (found ++ [b]) ++ waiting ↔ c ∈ found ++ b :: pending ∨ c ∈ cs := by
  induction cs generalizing pending with
  | nil => simpa using hnodup
  | cons c cs ih =>
    rw [List.foldl_cons]
    split
    · next hold =>
      obtain ⟨h1, h2⟩ := ih pending hnodup
      refine ⟨h1, fun d => (h2 d).trans ?_⟩
      simp only [List.mem_append, List.mem_cons]
      constructor
      · rintro (h | h)
        · exact .inl h
        · exact .inr (.inr h)
      · rintro (h | rfl | h)
        · exact .inl h
        · exact .inl hold
        · exact .inr h
    · next hnew =>
      have hnew' : c ∉ found ++ b :: pending := by simpa using hnew
      have hnodup' : (found ++ b :: (pending ++ [c])).Nodup := by
        have : found ++ b :: (pending ++ [c]) = (found ++ b :: pending) ++ [c] := by simp
        rw [this]
        exact hnodup.append (List.nodup_singleton c) (by simpa using hnew')
      obtain ⟨h1, h2⟩ := ih (pending ++ [c]) hnodup'
      refine ⟨h1, fun d => (h2 d).trans ?_⟩
      simp only [List.mem_append, List.mem_cons, List.not_mem_nil, or_false]
      tauto

/-- What the search has found is listed once, includes what was given, is closed under further steps
and has no property that the given values and every step do not have. -/
theorem reachable_spec {limit : ℕ} {found pending sets : List β}
    (hnodup : (found ++ pending).Nodup)
    (hclosed : ∀ b ∈ found, ∀ c ∈ next b, c ∈ found ++ pending)
    (h : reachable next limit found pending = some sets) :
    sets.Nodup ∧ (∀ b ∈ found ++ pending, b ∈ sets) ∧ (∀ b ∈ sets, ∀ c ∈ next b, c ∈ sets) ∧
      sets.length ≤ found.length + limit ∧
      ∀ P : β → Prop, (∀ b ∈ found ++ pending, P b) → (∀ b, P b → ∀ c ∈ next b, P c) →
        ∀ b ∈ sets, P b := by
  induction limit generalizing found pending with
  | zero =>
    cases pending with
    | nil =>
      rw [reachable, Option.some.injEq] at h
      subst h
      rw [List.append_nil] at *
      exact ⟨hnodup, fun _ h => h, hclosed, by simp, fun P h _ => h⟩
    | cons b pending => simp [reachable] at h
  | succ limit ih =>
    cases pending with
    | nil =>
      rw [reachable, Option.some.injEq] at h
      subst h
      rw [List.append_nil] at *
      exact ⟨hnodup, fun _ h => h, hclosed, by simp, fun P h _ => h⟩
    | cons b pending =>
      rw [reachable] at h
      obtain ⟨hnodup', hmem⟩ := queue_spec found b (next b) pending hnodup
      have hclosed' : ∀ a ∈ found ++ [b], ∀ c ∈ next a, c ∈ found ++ b :: pending ∨ c ∈ next b := by
        intro a ha c hc
        rw [List.mem_append, List.mem_singleton] at ha
        rcases ha with ha | rfl
        · exact .inl (hclosed a ha c hc)
        · exact .inr hc
      obtain ⟨h1, h2, h3, h4, h5⟩ :=
        ih hnodup' (fun a ha c hc => (hmem c).mpr (hclosed' a ha c hc)) h
      refine ⟨h1, fun c hc => h2 c ((hmem c).mpr (.inl hc)), h3, ?_, ?_⟩
      · rw [List.length_append, List.length_singleton] at h4
        omega
      · intro P hP hstep
        refine h5 P (fun c hc => ?_) hstep
        rcases (hmem c).mp hc with hc | hc
        · exact hP c hc
        · exact hstep b (hP b (by simp)) c hc

/-- A list without repetition is no longer than a set that holds its members. -/
theorem length_le_encard {l : List β} {S : Set β} (hl : l.Nodup) (hS : ∀ b ∈ l, b ∈ S) :
    (l.length : ℕ∞) ≤ S.encard := by
  have hsub : (l.toFinset : Set β) ⊆ S := fun b hb => hS b (by simpa using hb)
  have hcard := Set.encard_le_encard hsub
  rwa [Set.encard_coe_eq_coe_finsetCard, List.toFinset_card_of_nodup hl] at hcard

/-- The search succeeds if all that can be found is within the limit. -/
theorem reachable_isSome {limit : ℕ} {found pending : List β} {S : Set β}
    (hnodup : (found ++ pending).Nodup) (hS : ∀ b ∈ found ++ pending, b ∈ S)
    (hstep : ∀ b ∈ S, ∀ c ∈ next b, c ∈ S) (hlimit : S.encard ≤ found.length + limit) :
    ∃ sets, reachable next limit found pending = some sets := by
  induction limit generalizing found pending with
  | zero =>
    cases pending with
    | nil => exact ⟨found, rfl⟩
    | cons b pending =>
      have hle := (length_le_encard hnodup hS).trans hlimit
      rw [List.length_append, List.length_cons] at hle
      norm_cast at hle
      omega
  | succ limit ih =>
    cases pending with
    | nil => exact ⟨found, rfl⟩
    | cons b pending =>
      rw [reachable]
      obtain ⟨hnodup', hmem⟩ := queue_spec found b (next b) pending hnodup
      refine ih hnodup' (fun c hc => ?_) ?_
      · rcases (hmem c).mp hc with hc | hc
        · exact hS c hc
        · exact hstep b (hS b (by simp)) c hc
      · refine hlimit.trans (le_of_eq ?_)
        rw [List.length_append, List.length_singleton]
        norm_cast
        omega

end Search

section Construction

variable {α : Type} [DecidableEq α] {p : Positions α}

/-- The moves at a set are the symbols after which some position may come. -/
theorem mem_moves {symbols : List α} (hsymbols : ∀ a, a ∈ symbols ↔ a ∈ p.symbols.toList)
    (set : NatSet) (a : α) (next : NatSet) :
    (a, next) ∈ p.moves symbols set ↔
      (p.after set.toList a).isEmpty = false ∧ next = p.after set.toList a := by
  simp only [moves, List.mem_filterMap]
  constructor
  · rintro ⟨b, -, hb⟩
    split at hb
    · simp at hb
    · next hne =>
      simp only [Option.some.injEq, Prod.mk.injEq] at hb
      obtain ⟨rfl, rfl⟩ := hb
      exact ⟨by simpa using hne, rfl⟩
  · rintro ⟨hne, rfl⟩
    obtain ⟨m, hm⟩ := (NatSet.isEmpty_eq_false_iff _).mp hne
    obtain ⟨n, -, hn, -⟩ := (p.mem_after set.toList a m).mp hm
    refine ⟨a, (hsymbols a).mpr (by simpa using Array.mem_of_getElem? hn), ?_⟩
    simp [hne]

/-- The symbols of the moves at a set stand in the order of the given symbols. -/
theorem sublist_moves (symbols : List α) (set : NatSet) :
    ((p.moves symbols set).map Prod.fst).Sublist symbols := by
  unfold moves
  induction symbols with
  | nil => simp
  | cons a symbols ih =>
    simp only [List.filterMap_cons]
    split
    · exact ih.cons a
    · next e he =>
      split at he
      · simp at he
      · rw [Option.some.injEq] at he
        subst he
        exact ih.cons_cons a

/-- The symbols of the moves at a set are not repeated. -/
theorem nodup_moves {symbols : List α} (hsymbols : symbols.Nodup) (set : NatSet) :
    ((p.moves symbols set).map Prod.fst).Nodup := (sublist_moves symbols set).nodup hsymbols

/-- What it means that an automaton represents positions: its rows are the discovered sets under some
numbering from one on, reading a symbol leads to the number of the positions after it, and the sets
with the end position accept. -/
structure Represents (p : Positions α) (number : NatSet → ℕ) (d : Automaton α) : Prop where
  start : d.start = number p.first
  number_pos : ∀ S, number S ≠ Automaton.deadState
  number_inj : ∀ {S T}, p.Discovered S → p.Discovered T → number S = number T → S = T
  row_iff : ∀ s, s ∈ d.rows.keys ↔ ∃ S, p.Discovered S ∧ number S = s
  next : ∀ {S}, p.Discovered S → ∀ a, d.next? (number S) a =
    if (p.after S.toList a).isEmpty then none else some (number (p.after S.toList a))
  accepting : ∀ s, s ∈ d.accepting ↔ ∃ S, p.Discovered S ∧ number S = s ∧ p.stop ∈ S
  symbols : d.symbols = OrderedSet.ofList p.symbols.toList

/-- The sets that the search finds are the discovered ones. -/
theorem mem_found_iff {symbols : List α} (hsymbols : ∀ a, a ∈ symbols ↔ a ∈ p.symbols.toList)
    {limit : ℕ} {sets : List NatSet}
    (h : reachable (fun set => (p.moves symbols set).map Prod.snd) limit [] [p.first] = some sets) :
    (∀ S, S ∈ sets ↔ p.Discovered S) ∧ sets.Nodup ∧ sets.length ≤ limit := by
  obtain ⟨hnodup, hin, hclosed, hlength, hleast⟩ := reachable_spec (by simp) (by simp) h
  have hmove : ∀ S T, T ∈ (p.moves symbols S).map Prod.snd ↔
      ∃ a, (p.after S.toList a).isEmpty = false ∧ T = p.after S.toList a := by
    intro S T
    simp only [List.mem_map, Prod.exists, exists_eq_right, mem_moves hsymbols]
  refine ⟨fun S => ⟨fun hS => ?_, fun hS => ?_⟩, hnodup, by simpa using hlength⟩
  · refine hleast p.Discovered ?_ ?_ S hS
    · intro T hT
      rw [List.nil_append, List.mem_singleton] at hT
      exact hT ▸ .first
    · intro T hT U hU
      obtain ⟨a, hne, rfl⟩ := (hmove T U).mp hU
      exact .after a hT hne
  · induction hS with
    | first => exact hin p.first (by simp)
    | after a _ hne ih => exact hclosed _ ih _ ((hmove _ _).mpr ⟨a, hne, rfl⟩)

/-- Different sets have different numbers. -/
theorem stateOf_inj {sets : List NatSet} {S T : NatSet} (hS : S ∈ sets)
    (h : stateOf sets S = stateOf sets T) : S = T :=
  (List.idxOf_inj hS).mp (by simpa [stateOf] using h)

/-- The sets of positions that the search finds. -/
def found? (p : Positions α) : Option (List NatSet) :=
  reachable (fun set => (p.moves (OrderedSet.ofList p.symbols.toList).toList set).map Prod.snd)
    stateLimit [] [p.first]

/-- The automaton whose states are the given sets. -/
def ofSets (p : Positions α) (sets : List NatSet) : Automaton α where
  start := stateOf sets p.first
  rows := .ofList (sets.map fun set => (stateOf sets set,
    .ofList ((p.moves (OrderedSet.ofList p.symbols.toList).toList set).map fun m =>
      (m.1, stateOf sets m.2))))
  accepting := .ofList ((sets.filter (·.contains p.stop)).map (stateOf sets))
  symbols := .ofList p.symbols.toList

/-- The construction is the search, followed by the numbering of what it finds. -/
theorem automaton_eq (p : Positions α) :
    p.automaton = (require .tooManyStates p.found?).map p.ofSets := by
  unfold automaton
  change (require .tooManyStates p.found?).bind _ = _
  cases require .tooManyStates p.found? <;> rfl

/-- The rows stand in the order of the sets. -/
theorem entries_ofSets {sets : List NatSet} (hnodup : sets.Nodup) : (p.ofSets sets).rows.entries =
    sets.map fun set => (stateOf sets set,
      .ofList ((p.moves (OrderedSet.ofList p.symbols.toList).toList set).map fun m =>
        (m.1, stateOf sets m.2))) := by
  refine OrderedMap.entries_ofList ?_
  rw [List.map_map]
  exact hnodup.map_on fun T hT U _ h => stateOf_inj hT h

/-- There is a row for each set. -/
theorem keys_ofSets {sets : List NatSet} (hnodup : sets.Nodup) :
    (p.ofSets sets).rows.keys = sets.map (stateOf sets) := by
  rw [OrderedMap.keys, entries_ofSets hnodup, List.map_map]
  rfl

/-- A row holds the moves at its set, in their order. -/
theorem entries_row (sets : List NatSet) (set : NatSet) :
    (OrderedMap.ofList ((p.moves (OrderedSet.ofList p.symbols.toList).toList set).map fun m =>
      (m.1, stateOf sets m.2))).entries =
      (p.moves (OrderedSet.ofList p.symbols.toList).toList set).map fun m => (m.1, stateOf sets m.2) := by
  refine OrderedMap.entries_ofList ?_
  rw [List.map_map]
  exact nodup_moves (OrderedSet.ofList p.symbols.toList).nodup set

/-- Reading one symbol in the automaton of a closed list of sets. -/
theorem next?_ofSets {sets : List NatSet} (hnodup : sets.Nodup) {S : NatSet} (hS : S ∈ sets)
    (a : α) : (p.ofSets sets).next? (stateOf sets S) a =
      if (p.after S.toList a).isEmpty then none else some (stateOf sets (p.after S.toList a)) := by
  have hmem : ∀ b, b ∈ (OrderedSet.ofList p.symbols.toList).toList ↔ b ∈ p.symbols.toList :=
    fun b => OrderedSet.mem_ofList _ b
  set row := OrderedMap.ofList ((p.moves (OrderedSet.ofList p.symbols.toList).toList S).map fun m =>
    (m.1, stateOf sets m.2)) with hrow
  have hkeys : (p.ofSets sets).rows.get? (stateOf sets S) = some row := by
    rw [← OrderedMap.mem_entries_iff, entries_ofSets hnodup]
    exact List.mem_map.mpr ⟨S, hS, rfl⟩
  have hentries : ∀ t, row.get? a = some t ↔
      (p.after S.toList a).isEmpty = false ∧ t = stateOf sets (p.after S.toList a) := by
    intro t
    rw [← OrderedMap.mem_entries_iff, hrow, entries_row]
    simp only [List.mem_map, Prod.exists, Prod.mk.injEq, mem_moves hmem]
    constructor
    · rintro ⟨b, T, ⟨hne, rfl⟩, rfl, rfl⟩
      exact ⟨hne, rfl⟩
    · rintro ⟨hne, rfl⟩
      exact ⟨a, _, ⟨hne, rfl⟩, rfl, rfl⟩
  rw [Automaton.next?, hkeys, Option.bind_some]
  split
  · next hempty =>
    rw [Option.eq_none_iff_forall_not_mem]
    intro t ht
    rw [((hentries t).mp ht).1] at hempty
    cases hempty
  · next hne => exact (hentries _).mpr ⟨by simpa using hne, rfl⟩

/-- The automaton of the sets that the search finds represents the positions. -/
theorem represents_ofSets {sets : List NatSet} (h : p.found? = some sets) :
    p.Represents (stateOf sets) (p.ofSets sets) := by
  obtain ⟨hmem, hnodup, -⟩ := mem_found_iff (fun a => OrderedSet.mem_ofList _ a) h
  refine ⟨rfl, fun S => by simp [stateOf, Automaton.deadState], ?_, ?_, ?_, ?_, rfl⟩
  · intro S T hS _ heq
    exact stateOf_inj ((hmem S).mpr hS) heq
  · intro s
    simp only [keys_ofSets hnodup, List.mem_map, hmem]
  · intro S hS a
    exact next?_ofSets hnodup ((hmem S).mpr hS) a
  · intro s
    simp only [ofSets, NatSet.mem_ofList, List.mem_map, List.mem_filter, hmem,
      NatSet.contains_iff]
    constructor
    · rintro ⟨S, ⟨hS, hstop⟩, rfl⟩
      exact ⟨S, hS, rfl, hstop⟩
    · rintro ⟨S, hS, rfl, hstop⟩
      exact ⟨S, ⟨hS, hstop⟩, rfl⟩

/-- The search finds each discovered set once. -/
theorem encard_discovered {sets : List NatSet} (h : p.found? = some sets) :
    {S | p.Discovered S}.encard = sets.length := by
  obtain ⟨hsets, hnodup, -⟩ := mem_found_iff (fun a => OrderedSet.mem_ofList _ a) h
  have heq : {S | p.Discovered S} = (sets.toFinset : Set NatSet) := by
    ext S
    simp [hsets]
  rw [heq, Set.encard_coe_eq_coe_finsetCard, List.toFinset_card_of_nodup hnodup]

/-- The construction yields an automaton that represents the positions if no more sets are discovered
than there are numbers, and else gives up. -/
theorem automaton_cases (p : Positions α) :
    ({S | p.Discovered S}.encard ≤ stateLimit ∧
        ∃ d number, p.automaton = .ok d ∧ p.Represents number d) ∨
      (stateLimit < {S | p.Discovered S}.encard ∧ p.automaton = giveUp .tooManyStates) := by
  have hmem : ∀ a, a ∈ (OrderedSet.ofList p.symbols.toList).toList ↔ a ∈ p.symbols.toList :=
    fun a => OrderedSet.mem_ofList _ a
  cases hfound : p.found? with
  | none =>
    refine .inr ⟨lt_of_not_ge fun hle => ?_, by rw [automaton_eq, hfound]; rfl⟩
    have hsome : ∃ sets, p.found? = some sets := by
      refine reachable_isSome (S := {S | p.Discovered S}) (by simp) ?_ ?_ (by simpa using hle)
      · intro S hS
        exact List.mem_singleton.mp hS ▸ Discovered.first
      · intro S hS T hT
        obtain ⟨⟨a, U⟩, hmove, rfl⟩ := List.mem_map.mp hT
        obtain ⟨hne, rfl⟩ := (mem_moves hmem S a U).mp hmove
        exact .after a hS hne
    obtain ⟨sets, hsets⟩ := hsome
    rw [hsets] at hfound
    cases hfound
  | some sets =>
    obtain ⟨-, -, hlength⟩ := mem_found_iff hmem hfound
    refine .inl ⟨?_, p.ofSets sets, stateOf sets, by rw [automaton_eq, hfound]; rfl,
      represents_ofSets hfound⟩
    rw [encard_discovered hfound]
    exact_mod_cast hlength

/-- The automaton of positions is that of the sets that the search finds. -/
theorem exists_sets {d : Automaton α} (h : p.automaton = .ok d) :
    ∃ sets, p.found? = some sets ∧ d = p.ofSets sets := by
  rw [automaton_eq] at h
  cases hfound : p.found? with
  | none =>
    rw [hfound] at h
    cases h
  | some sets =>
    rw [hfound] at h
    cases h
    exact ⟨sets, rfl, rfl⟩

/-- The automaton of positions represents them. -/
theorem exists_represents {p : Positions α} {d : Automaton α} (h : p.automaton = .ok d) :
    ∃ number, p.Represents number d := by
  obtain ⟨sets, hsets, rfl⟩ := exists_sets h
  exact ⟨stateOf sets, represents_ofSets hsets⟩

/-- Where the construction succeeds there are numbers for all discovered sets. -/
theorem encard_discovered_le {p : Positions α} (h : p.automaton.isOk = true) :
    {S | p.Discovered S}.encard ≤ stateLimit := by
  obtain ⟨hle, -⟩ | ⟨-, hfail⟩ := p.automaton_cases
  · exact hle
  · rw [hfail] at h
    cases h

end Construction

end ShellCompletion.Positions
