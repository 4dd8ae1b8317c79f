import ShellCompletion.Proofs.PositionSets

/-!
# The automaton of a pattern

The end position can come next after a word exactly if the word belongs to the pattern. An automaton
that represents the positions of a pattern therefore accepts the words of the pattern, and it is trim
if the pattern is full: every position occurs in a word, so every state leads to acceptance.
-/

namespace ShellCompletion.Pattern

section Positions

variable {α : Type} (p : Pattern α)

/-- The symbols at the positions of a pattern are those of the pattern. -/
theorem symbols_positions (n : ℕ) : p.positions.symbols[n]? = p.symbols[n]? := by
  simp [positions]

/-- The end comes behind all symbols of a pattern. -/
theorem stop_positions : p.positions.stop = p.size := by
  simp [positions, Positions.stop, length_symbols]

/-- The end position is among the first ones if the empty word matches. -/
theorem mem_first_positions (n : ℕ) :
    n ∈ p.positions.first ↔ n ∈ (p.numbered 0).first ∨ p.nullable = true ∧ n = p.size := by
  by_cases h : p.nullable = true <;> simp [positions, h]

/-- The end position follows the last positions, and else positions follow each other at joints. -/
theorem mem_follow_positions (n m : ℕ) :
    m ∈ p.positions.follow n ↔ n < p.size ∧
      (n ∈ (p.numbered 0).last ∧ m = p.size ∨ (p.numbered 0).localWords.next n m) := by
  by_cases hn : n < p.size
  · simp [positions, Positions.follow, Array.getD, hn, mem_followers, localWords]
  · simp [positions, Positions.follow, Array.getD, hn]

/-- Positions that follow a member of the pattern are members or the end. -/
theorem le_size_of_mem_follow {n m : ℕ} (h : m ∈ p.positions.follow n) : m ≤ p.size := by
  obtain ⟨-, ⟨-, rfl⟩ | hnext⟩ := (p.mem_follow_positions n m).mp h
  · exact le_rfl
  · have := (within_numbered 0 p).target n m hnext
    omega

/-- A path through positions up to the end is a word over the positions. -/
theorem path_iff_mem_language {u : List ℕ} (hu : ∀ n ∈ u, n < p.size) :
    ((u ++ [p.size]).IsChain (fun n m => m ∈ p.positions.follow n) ∧
        ∀ n ∈ (u ++ [p.size]).head?, n ∈ p.positions.first) ↔ u ∈ (p.numbered 0).language := by
  have hwithin := within_numbered 0 p
  have hinside : ∀ n m, n ∈ u → m ∈ u →
      (m ∈ p.positions.follow n ↔ (p.numbered 0).localWords.next n m) := by
    intro n m hn hm
    have hm := hu m hm
    rw [mem_follow_positions]
    constructor
    · rintro ⟨-, ⟨-, rfl⟩ | hnext⟩
      · omega
      · exact hnext
    · exact fun hnext => ⟨hu n hn, .inr hnext⟩
  have hend : ∀ n ∈ u, (p.size ∈ p.positions.follow n ↔ n ∈ (p.numbered 0).last) := by
    intro n hn
    rw [mem_follow_positions]
    constructor
    · rintro ⟨-, ⟨hlast, -⟩ | hnext⟩
      · exact hlast
      · have := (hwithin.target n p.size hnext).2
        omega
    · exact fun hlast => ⟨hu n hn, .inl ⟨hlast, rfl⟩⟩
  have hlast : (∀ n ∈ u.getLast?, ∀ m ∈ [p.size].head?, m ∈ p.positions.follow n) ↔
      ∀ n ∈ u.getLast?, n ∈ (p.numbered 0).last := by
    refine forall₂_congr fun n hn => ?_
    rw [List.head?_cons]
    simpa using hend n (List.mem_of_getLast? hn)
  have hhead : (∀ n ∈ (u ++ [p.size]).head?, n ∈ p.positions.first) ↔
      (u = [] → p.nullable = true) ∧ ∀ n ∈ u.head?, n ∈ (p.numbered 0).first := by
    cases u with
    | nil =>
      have hout : ¬ p.size ∈ (p.numbered 0).first := fun h => by
        have := (hwithin.first _ h).2
        omega
      simp [mem_first_positions, hout]
    | cons n u =>
      have hn : n ≠ p.size := (hu n (by simp)).ne
      simp [mem_first_positions, hn]
  rw [List.isChain_append, List.IsChain.iff_of_mem_imp hinside, hlast, hhead, ← words_numbered,
    LocalWords.mem_words, ← nullable_numbered 0 p]
  constructor
  · rintro ⟨⟨hchain, -, hlast⟩, hnull, hfirst⟩
    exact ⟨hnull, hfirst, hchain, hlast⟩
  · rintro ⟨hnull, hfirst, hchain, hlast⟩
    exact ⟨⟨hchain, List.isChain_singleton _, hlast⟩, hnull, hfirst⟩

/-- Positions with labels are not the end. -/
theorem lt_size_of_labels {u : List ℕ} {word : List α}
    (hu : u.map (p.symbols[·]?) = word.map some) : ∀ n ∈ u, n < p.size := by
  intro n hn
  have hsome : p.symbols[n]? ∈ word.map some := hu ▸ List.mem_map_of_mem hn
  obtain ⟨a, -, ha⟩ := List.mem_map.mp hsome
  rw [← length_symbols]
  exact (List.getElem?_eq_some_iff.mp ha.symm).1

/-- The words of a pattern are the labels of its words over positions. -/
theorem mem_language_iff (word : List α) :
    word ∈ p.language ↔ ∃ u ∈ (p.numbered 0).language, u.map (p.symbols[·]?) = word.map some := by
  have hlabels : Language.map (fun n => p.symbols[n]?) (p.numbered 0).language =
      Language.map some p.language :=
    map_language_numbered _ 0 p fun i _ => by rw [Nat.zero_add]
  have hinjective : word.map some ∈ Language.map some p.language ↔ word ∈ p.language :=
    Function.Injective.mem_set_image (List.map_injective_iff.mpr (Option.some_injective α))
  rw [← hinjective, ← hlabels]
  exact Iff.rfl

/-- Every word over positions has labels. -/
theorem exists_labels {u : List ℕ} (hu : u ∈ (p.numbered 0).language) :
    ∃ word : List α, u.map (p.symbols[·]?) = word.map some := by
  have hlabels : Language.map (fun n => p.symbols[n]?) (p.numbered 0).language =
      Language.map some p.language :=
    map_language_numbered _ 0 p fun i _ => by rw [Nat.zero_add]
  have hmem : u.map (p.symbols[·]?) ∈ Language.map some p.language := hlabels ▸ ⟨u, hu, rfl⟩
  obtain ⟨word, -, hword⟩ := hmem
  exact ⟨word, hword.symm⟩

/-- A full pattern begins with a symbol. -/
theorem exists_first (hp : p.Full) : ∃ n ∈ p.positions.first, n < p.size := by
  obtain ⟨hpos, hword⟩ := exists_word_through 0 p hp
  obtain ⟨u, hu, hmem⟩ := hword 0 le_rfl (by omega)
  obtain ⟨word, hlabels⟩ := p.exists_labels hu
  have hsize := p.lt_size_of_labels hlabels
  obtain ⟨-, hhead⟩ := (p.path_iff_mem_language hsize).mpr hu
  cases u with
  | nil => simp at hmem
  | cons n u => exact ⟨n, hhead n rfl, hsize n (by simp)⟩

variable [DecidableEq α]

/-- The end position may come next after a word exactly if the word belongs to the pattern. -/
theorem stop_mem_afterWord_iff (word : List α) :
    p.positions.stop ∈ p.positions.afterWord p.positions.first word ↔ word ∈ p.language := by
  rw [Positions.mem_afterWord, stop_positions, mem_language_iff]
  simp only [symbols_positions]
  constructor
  · rintro ⟨u, hu, hpath⟩
    exact ⟨u, (p.path_iff_mem_language (p.lt_size_of_labels hu)).mp hpath, hu⟩
  · rintro ⟨u, hlang, hu⟩
    exact ⟨u, hu, (p.path_iff_mem_language (p.lt_size_of_labels hu)).mpr hlang⟩

/-- From every position of a full pattern some word leads to the end. -/
theorem exists_word_to_stop (hp : p.Full) {n : ℕ} (hn : n < p.size) :
    ∃ word : List α, ∀ S, n ∈ S → p.positions.stop ∈ p.positions.afterWord S word := by
  obtain ⟨u, hu, hmem⟩ := (exists_word_through 0 p hp).2 n (Nat.zero_le n) (by omega)
  obtain ⟨word, hword⟩ := p.exists_labels hu
  obtain ⟨hchain, -⟩ := (p.path_iff_mem_language (p.lt_size_of_labels hword)).mpr hu
  obtain ⟨before, behind, rfl⟩ := List.append_of_mem hmem
  refine ⟨word.drop before.length, fun S hS => ?_⟩
  rw [Positions.mem_afterWord, stop_positions]
  simp only [symbols_positions]
  refine ⟨n :: behind, ?_, ?_, ?_⟩
  · rw [List.map_drop, ← hword, ← List.map_drop, List.drop_left]
  · rw [List.append_assoc] at hchain
    exact hchain.right_of_append
  · intro k hk
    rw [List.cons_append, List.head?_cons, Option.mem_some_iff] at hk
    exact hk ▸ hS

/-- Discovered sets hold positions of the pattern and the end only. -/
theorem le_size_of_mem_discovered {S : NatSet} (hS : p.positions.Discovered S) {n : ℕ}
    (hn : n ∈ S) : n ≤ p.size := by
  cases hS with
  | first =>
    rcases (p.mem_first_positions n).mp hn with hfirst | ⟨-, rfl⟩
    · have := ((within_numbered 0 p).first n hfirst).2
      omega
    · exact le_rfl
  | after a _ _ =>
    obtain ⟨m, -, -, hfollow⟩ := (p.positions.mem_after _ a n).mp hn
    exact p.le_size_of_mem_follow hfollow

/-- From every discovered set of a full pattern some word leads to the end. -/
theorem exists_word_of_discovered (hp : p.Full) {S : NatSet} (hS : p.positions.Discovered S) :
    ∃ word : List α, p.positions.stop ∈ p.positions.afterWord S word := by
  have hne : ∃ n, n ∈ S := by
    cases hS with
    | first =>
      obtain ⟨n, hn, -⟩ := p.exists_first hp
      exact ⟨n, hn⟩
    | after a _ hne => exact (NatSet.isEmpty_eq_false_iff _).mp hne
  obtain ⟨n, hn⟩ := hne
  rcases (p.le_size_of_mem_discovered hS hn).lt_or_eq with hlt | rfl
  · obtain ⟨word, hword⟩ := p.exists_word_to_stop hp hlt
    exact ⟨word, hword S hn⟩
  · exact ⟨[], by rw [stop_positions]; exact hn⟩

end Positions

end ShellCompletion.Pattern

namespace ShellCompletion.Positions.Represents

variable {α : Type} [DecidableEq α] {p : Positions α} {number : NatSet → ℕ} {d : Automaton α}

/-- From the number of a set those words are accepted after which the end position may come. -/
theorem acceptsFrom_iff (h : p.Represents number d) {S : NatSet} (hS : p.Discovered S)
    (word : List α) : d.acceptsFrom (number S) word = true ↔ p.stop ∈ p.afterWord S word := by
  induction word generalizing S with
  | nil =>
    rw [Automaton.acceptsFrom_nil, NatSet.contains_iff, h.accepting]
    constructor
    · rintro ⟨T, hT, heq, hstop⟩
      exact h.number_inj hT hS heq ▸ hstop
    · exact fun hstop => ⟨S, hS, rfl, hstop⟩
  | cons a word ih =>
    have hnext := h.next hS a
    rw [afterWord]
    by_cases hempty : (p.after S.toList a).isEmpty = true
    · rw [if_pos hempty] at hnext
      rw [d.acceptsFrom_cons_none hnext, (NatSet.isEmpty_iff _).mp hempty, mem_afterWord]
      constructor
      · intro hfalse
        cases hfalse
      · rintro ⟨u, -, -, hhead⟩
        obtain ⟨n, ns, hn⟩ := List.exists_cons_of_ne_nil (l := u ++ [p.stop]) (by simp)
        exact (NatSet.not_mem_empty n (hhead n (by rw [hn]; rfl))).elim
    · rw [if_neg hempty] at hnext
      rw [d.acceptsFrom_cons_some hnext]
      exact ih (.after a hS (by simpa using hempty))

/-- A next state is the number of the positions after the symbol. -/
theorem next?_eq_some (h : p.Represents number d) {s t : ℕ} {a : α} (ht : d.next? s a = some t) :
    ∃ S, p.Discovered S ∧ number S = s ∧ (p.after S.toList a).isEmpty = false ∧
      number (p.after S.toList a) = t := by
  obtain ⟨S, hS, rfl⟩ := (h.row_iff s).mp (d.mem_keys_of_next? ht)
  rw [h.next hS] at ht
  split at ht
  · cases ht
  · next hne => exact ⟨S, hS, rfl, by simpa using hne, Option.some.inj ht⟩

/-- Every discovered set is reached by some word. -/
theorem exists_run (h : p.Represents number d) {S : NatSet} (hS : p.Discovered S) :
    ∃ word, d.run? d.start word = some (number S) := by
  induction hS with
  | first => exact ⟨[], by rw [Automaton.run?, h.start]⟩
  | @after S a hS hne ih =>
    obtain ⟨word, hword⟩ := ih
    refine ⟨word ++ [a], ?_⟩
    rw [d.run?_append, hword, Option.bind_some, Automaton.run?, h.next hS, hne]
    rfl

/-- An automaton that represents a full pattern is trim. -/
theorem trim {p : Pattern α} (h : p.positions.Represents number d) (hp : p.Full) : d.Trim where
  start_row := (h.row_iff _).mpr ⟨_, .first, h.start.symm⟩
  start_moves := by
    obtain ⟨n, hn, hlt⟩ := p.exists_first hp
    obtain ⟨word, hword⟩ := p.exists_word_to_stop hp hlt
    have haccepts := (h.acceptsFrom_iff .first word).mpr (hword _ hn)
    rw [← h.start] at haccepts
    cases word with
    | nil =>
      have hstop := hword (.singleton n) ((NatSet.mem_singleton n n).mpr rfl)
      rw [afterWord, NatSet.mem_singleton, Pattern.stop_positions] at hstop
      omega
    | cons a word =>
      cases hnext : d.next? d.start a with
      | none =>
        rw [d.acceptsFrom_cons_none hnext] at haccepts
        cases haccepts
      | some t => exact ⟨a, t, hnext⟩
  dead_row := by
    intro hdead
    obtain ⟨S, -, hS⟩ := (h.row_iff _).mp hdead
    exact h.number_pos S hS
  symbol_mem := by
    intro s t a ht
    obtain ⟨S, -, -, hne, -⟩ := h.next?_eq_some ht
    obtain ⟨m, hm⟩ := (NatSet.isEmpty_eq_false_iff _).mp hne
    obtain ⟨n, -, hn, -⟩ := (Positions.mem_after _ _ a m).mp hm
    rw [h.symbols, OrderedSet.mem_ofList]
    simpa using Array.mem_of_getElem? hn
  target_row := by
    intro s t a ht
    obtain ⟨S, hS, -, hne, rfl⟩ := h.next?_eq_some ht
    exact (h.row_iff _).mpr ⟨_, .after a hS hne, rfl⟩
  accepting_row := by
    intro s hs
    obtain ⟨S, hS, rfl, -⟩ := (h.accepting s).mp hs
    exact (h.row_iff _).mpr ⟨S, hS, rfl⟩
  reached := by
    intro s hs
    obtain ⟨S, hS, rfl⟩ := (h.row_iff s).mp hs
    exact h.exists_run hS
  useful := by
    intro s hs
    obtain ⟨S, hS, rfl⟩ := (h.row_iff s).mp hs
    obtain ⟨word, hword⟩ := p.exists_word_of_discovered hp hS
    exact ⟨word, (h.acceptsFrom_iff hS word).mpr hword⟩

end ShellCompletion.Positions.Represents
