import ShellCompletion.Pattern.Positions
import ShellCompletion.Proofs.LocalWords

/-!
# The words of a pattern

A pattern denotes a set of words: sequences concatenate, alternatives and fallbacks unite, an optional
part adds the empty word and a repeated part stands for one or more of its words. The words over the
positions of a numbered pattern are exactly those whose first and last positions and whose neighbours
are the ones that `first`, `last` and `joints` list.
-/

namespace ShellCompletion.Pattern

open scoped Computability

variable {α : Type}

mutual

/-- The words of a pattern. -/
def language : Pattern α → Language α
  | .symbol a => {[a]}
  | .sequence items => languageOfSequence items
  | .alternative branches => languageOfChoice branches
  | .fallback branches => languageOfChoice branches
  | .optional item => 1 + item.language
  | .repeated item => item.language * item.language∗

/-- The concatenations of words of the items. -/
def languageOfSequence : List (Pattern α) → Language α
  | [] => 1
  | p :: ps => p.language * languageOfSequence ps

/-- The words of the branches. -/
def languageOfChoice : List (Pattern α) → Language α
  | [] => 0
  | p :: ps => p.language + languageOfChoice ps

end

mutual

/-- Whether no sequence and no choice in a pattern is without items. -/
def Full : Pattern α → Prop
  | .symbol _ => True
  | .sequence items => items ≠ [] ∧ FullAll items
  | .alternative branches => branches ≠ [] ∧ FullAll branches
  | .fallback branches => branches ≠ [] ∧ FullAll branches
  | .optional item => item.Full
  | .repeated item => item.Full

/-- Whether each pattern of a list is full. -/
def FullAll : List (Pattern α) → Prop
  | [] => True
  | p :: ps => p.Full ∧ FullAll ps

end

section Numbering

variable (label : ℕ → Option α)

/-- The labels of a list of patterns are those of the first one and, behind them, those of the rest. -/
theorem labels_cons (start : ℕ) (p : Pattern α) (ps : List (Pattern α))
    (h : ∀ i < sizeAll (p :: ps), label (start + i) = (symbolsAll (p :: ps))[i]?) :
    (∀ i < p.size, label (start + i) = p.symbols[i]?) ∧
      ∀ i < sizeAll ps, label (start + p.size + i) = (symbolsAll ps)[i]? := by
  simp only [sizeAll, symbolsAll] at h
  constructor
  · intro i hi
    rw [h i (by omega), List.getElem?_append_left (by rw [length_symbols]; exact hi)]
  · intro i hi
    rw [Nat.add_assoc, h (p.size + i) (by omega),
      List.getElem?_append_right (by rw [length_symbols]; omega), length_symbols,
      Nat.add_sub_cancel_left]

theorem map_letter {β γ : Type} (f : β → γ) (b : β) :
    Language.map f ({[b]} : Language β) = ({[f b]} : Language γ) :=
  Set.image_singleton

mutual

/-- Reading the labels of the positions turns the words over positions into the words of the
pattern. -/
theorem map_language_numbered (start : ℕ) : (p : Pattern α) →
    (∀ i < p.size, label (start + i) = p.symbols[i]?) →
    Language.map label (p.numbered start).language = Language.map some p.language
  | .symbol a, h => by
    have h0 : label start = some a := h 0 (by simp [size])
    rw [numbered, language, language, map_letter, map_letter, h0]
  | .sequence items, h => map_languageOfSequence_numbered start items h
  | .alternative branches, h => map_languageOfChoice_numbered start branches h
  | .fallback branches, h => map_languageOfChoice_numbered start branches h
  | .optional item, h => by
    rw [numbered, language, language, map_add, map_add, map_one, map_one,
      map_language_numbered start item h]
  | .repeated item, h => by
    rw [numbered, language, language, map_mul, map_mul, Language.map_kstar, Language.map_kstar,
      map_language_numbered start item h]

/-- The words of a numbered sequence are those of the sequence, with numbers for symbols. -/
theorem map_languageOfSequence_numbered (start : ℕ) : (ps : List (Pattern α)) →
    (∀ i < sizeAll ps, label (start + i) = (symbolsAll ps)[i]?) →
    Language.map label (languageOfSequence (numberedAll start ps)) =
      Language.map some (languageOfSequence ps)
  | [], _ => by rw [numberedAll, languageOfSequence, languageOfSequence, map_one, map_one]
  | p :: ps, h => by
    obtain ⟨hp, hps⟩ := labels_cons label start p ps h
    rw [numberedAll, languageOfSequence, languageOfSequence, map_mul, map_mul,
      map_language_numbered start p hp, map_languageOfSequence_numbered (start + p.size) ps hps]

/-- The words of a numbered choice are those of the choice, with numbers for symbols. -/
theorem map_languageOfChoice_numbered (start : ℕ) : (ps : List (Pattern α)) →
    (∀ i < sizeAll ps, label (start + i) = (symbolsAll ps)[i]?) →
    Language.map label (languageOfChoice (numberedAll start ps)) =
      Language.map some (languageOfChoice ps)
  | [], _ => by rw [numberedAll, languageOfChoice, languageOfChoice, map_zero, map_zero]
  | p :: ps, h => by
    obtain ⟨hp, hps⟩ := labels_cons label start p ps h
    rw [numberedAll, languageOfChoice, languageOfChoice, map_add, map_add,
      map_language_numbered start p hp, map_languageOfChoice_numbered (start + p.size) ps hps]

end

end Numbering

/-- What a pattern over positions says of its words. -/
def localWords (p : Pattern ℕ) : LocalWords where
  empty := p.nullable = true
  first n := n ∈ p.first
  last n := n ∈ p.last
  next n m := ∃ joint ∈ p.joints, n ∈ joint.1 ∧ m ∈ joint.2

/-- What the items of a sequence say of its words. -/
def localOfSequence (ps : List (Pattern ℕ)) : LocalWords where
  empty := nullableAll ps = true
  first n := n ∈ firstOfSequence ps
  last n := n ∈ lastOfSequence ps
  next n m := ∃ joint ∈ jointsOfSequence ps, n ∈ joint.1 ∧ m ∈ joint.2

/-- What the branches of a choice say of its words. -/
def localOfChoice (ps : List (Pattern ℕ)) : LocalWords where
  empty := nullableAny ps = true
  first n := n ∈ firstOfChoice ps
  last n := n ∈ lastOfChoice ps
  next n m := ∃ joint ∈ jointsOfChoice ps, n ∈ joint.1 ∧ m ∈ joint.2

theorem localOfSequence_nil : localOfSequence [] = .nil := by
  ext <;> simp [localOfSequence, LocalWords.nil, nullableAll, firstOfSequence, lastOfSequence,
    jointsOfSequence]

theorem localOfSequence_cons (p : Pattern ℕ) (ps : List (Pattern ℕ)) :
    localOfSequence (p :: ps) = p.localWords.append (localOfSequence ps) := by
  ext n m
  · simp [localOfSequence, LocalWords.append, localWords, nullableAll]
  · by_cases h : p.nullable = true <;>
      simp [localOfSequence, LocalWords.append, localWords, firstOfSequence, h]
  · by_cases h : nullableAll ps = true <;>
      simp [localOfSequence, LocalWords.append, localWords, lastOfSequence, h, or_comm]
  · simp only [localOfSequence, LocalWords.append, localWords, jointsOfSequence, List.mem_cons,
      List.mem_append, or_and_right, exists_or, exists_eq_left]
    exact or_left_comm

theorem localOfChoice_nil : localOfChoice [] = .none := by
  ext <;> simp [localOfChoice, LocalWords.none, nullableAny, firstOfChoice, lastOfChoice,
    jointsOfChoice]

theorem localOfChoice_cons (p : Pattern ℕ) (ps : List (Pattern ℕ)) :
    localOfChoice (p :: ps) = p.localWords.either (localOfChoice ps) := by
  ext n m
  · simp [localOfChoice, LocalWords.either, localWords, nullableAny]
  · simp [localOfChoice, LocalWords.either, localWords, firstOfChoice]
  · simp [localOfChoice, LocalWords.either, localWords, lastOfChoice]
  · simp only [localOfChoice, LocalWords.either, localWords, jointsOfChoice, List.mem_append,
      or_and_right, exists_or]

theorem localWords_symbol (n : ℕ) : (symbol n).localWords = .letter n := by
  ext <;> simp [localWords, LocalWords.letter, nullable, first, last, joints]

theorem localWords_optional (p : Pattern ℕ) : p.optional.localWords = p.localWords.orNil := by
  ext <;> simp [localWords, LocalWords.orNil, nullable, first, last, joints]

theorem localWords_repeated (p : Pattern ℕ) : p.repeated.localWords = p.localWords.repeated := by
  ext n m
  · simp [localWords, LocalWords.repeated, nullable]
  · simp [localWords, LocalWords.repeated, first]
  · simp [localWords, LocalWords.repeated, last]
  · simp only [localWords, LocalWords.repeated, joints, List.mem_cons, exists_eq_or_imp]
    exact or_comm

mutual

/-- A numbered pattern speaks of its own positions only. -/
theorem within_numbered (start : ℕ) : (p : Pattern α) →
    (p.numbered start).localWords.Within fun n => start ≤ n ∧ n < start + p.size
  | .symbol _ => by
    rw [numbered, localWords_symbol]
    refine ⟨?_, ?_, fun _ _ h => h.elim, fun _ _ h => h.elim⟩ <;>
      · rintro n rfl
        simp [size]
  | .sequence items => withinSequence_numbered start items
  | .alternative branches => withinChoice_numbered start branches
  | .fallback branches => withinChoice_numbered start branches
  | .optional item => by
    have h := within_numbered start item
    rw [numbered, localWords_optional]
    exact ⟨h.first, h.last, h.source, h.target⟩
  | .repeated item => by
    rw [numbered, localWords_repeated]
    exact (within_numbered start item).repeated

/-- A numbered sequence uses the numbers from its start on. -/
theorem withinSequence_numbered (start : ℕ) : (ps : List (Pattern α)) →
    (localOfSequence (numberedAll start ps)).Within fun n => start ≤ n ∧ n < start + sizeAll ps
  | [] => by
    rw [numberedAll, localOfSequence_nil]
    exact ⟨fun _ h => h.elim, fun _ h => h.elim, fun _ _ h => h.elim, fun _ _ h => h.elim⟩
  | p :: ps => by
    rw [numberedAll, localOfSequence_cons, sizeAll]
    exact ((within_numbered start p).mono fun n h => by omega).append
      ((withinSequence_numbered (start + p.size) ps).mono fun n h => by omega)

theorem withinChoice_numbered (start : ℕ) : (ps : List (Pattern α)) →
    (localOfChoice (numberedAll start ps)).Within fun n => start ≤ n ∧ n < start + sizeAll ps
  | [] => by
    rw [numberedAll, localOfChoice_nil]
    exact ⟨fun _ h => h.elim, fun _ h => h.elim, fun _ _ h => h.elim, fun _ _ h => h.elim⟩
  | p :: ps => by
    rw [numberedAll, localOfChoice_cons, sizeAll]
    exact ((within_numbered start p).mono fun n h => by omega).either
      ((withinChoice_numbered (start + p.size) ps).mono fun n h => by omega)

end

mutual

/-- The words over the positions of a pattern are those that its first positions, its last positions
and its joints allow. -/
theorem words_numbered (start : ℕ) : (p : Pattern α) →
    (p.numbered start).localWords.words = (p.numbered start).language
  | .symbol _ => by rw [numbered, localWords_symbol, LocalWords.words_letter, language]
  | .sequence items => wordsOfSequence_numbered start items
  | .alternative branches => wordsOfChoice_numbered start branches
  | .fallback branches => wordsOfChoice_numbered start branches
  | .optional item => by
    rw [numbered, localWords_optional, LocalWords.words_orNil, words_numbered start item, language]
  | .repeated item => by
    rw [numbered, localWords_repeated, LocalWords.words_repeated, words_numbered start item,
      language]

/-- The words of a numbered sequence are told by first, last and neighbouring numbers. -/
theorem wordsOfSequence_numbered (start : ℕ) : (ps : List (Pattern α)) →
    (localOfSequence (numberedAll start ps)).words = languageOfSequence (numberedAll start ps)
  | [] => by rw [numberedAll, localOfSequence_nil, LocalWords.words_nil, languageOfSequence]
  | p :: ps => by
    rw [numberedAll, localOfSequence_cons,
      LocalWords.words_append (within_numbered start p) (withinSequence_numbered (start + p.size) ps)
        (fun n h h' => by omega),
      words_numbered start p, wordsOfSequence_numbered (start + p.size) ps, languageOfSequence]

/-- The words of a numbered choice are told by first, last and neighbouring numbers. -/
theorem wordsOfChoice_numbered (start : ℕ) : (ps : List (Pattern α)) →
    (localOfChoice (numberedAll start ps)).words = languageOfChoice (numberedAll start ps)
  | [] => by rw [numberedAll, localOfChoice_nil, LocalWords.words_none, languageOfChoice]
  | p :: ps => by
    rw [numberedAll, localOfChoice_cons,
      LocalWords.words_either (within_numbered start p) (withinChoice_numbered (start + p.size) ps)
        (fun n h h' => by omega),
      words_numbered start p, wordsOfChoice_numbered (start + p.size) ps, languageOfChoice]

end

mutual

/-- Numbering a pattern does not change whether the empty word matches. -/
theorem nullable_numbered (start : ℕ) : (p : Pattern α) → (p.numbered start).nullable = p.nullable
  | .symbol _ => rfl
  | .sequence items => nullableAll_numbered start items
  | .alternative branches => nullableAny_numbered start branches
  | .fallback branches => nullableAny_numbered start branches
  | .optional _ => rfl
  | .repeated item => nullable_numbered start item

theorem nullableAll_numbered (start : ℕ) : (ps : List (Pattern α)) →
    nullableAll (numberedAll start ps) = nullableAll ps
  | [] => rfl
  | p :: ps => by
    rw [numberedAll, nullableAll, nullableAll, nullable_numbered start p,
      nullableAll_numbered (start + p.size) ps]

theorem nullableAny_numbered (start : ℕ) : (ps : List (Pattern α)) →
    nullableAny (numberedAll start ps) = nullableAny ps
  | [] => rfl
  | p :: ps => by
    rw [numberedAll, nullableAny, nullableAny, nullable_numbered start p,
      nullableAny_numbered (start + p.size) ps]

end

mutual

/-- A full pattern has a position, and every position of it occurs in some word. -/
theorem exists_word_through (start : ℕ) : (p : Pattern α) → p.Full → 0 < p.size ∧
    ∀ n, start ≤ n → n < start + p.size → ∃ u ∈ (p.numbered start).language, n ∈ u
  | .symbol _, _ => by
    refine ⟨by simp [size], ?_⟩
    intro n hlow hhigh
    have hn : n = start := by simp only [size] at hhigh; omega
    exact ⟨[start], rfl, by simp [hn]⟩
  | .sequence items, h => by
    obtain ⟨-, hpos, hall⟩ := exists_word_through_sequence start items h.2
    exact ⟨hpos h.1, hall⟩
  | .alternative branches, h => exists_word_through_choice start branches h.1 h.2
  | .fallback branches, h => exists_word_through_choice start branches h.1 h.2
  | .optional item, h => by
    obtain ⟨hpos, hall⟩ := exists_word_through start item h
    refine ⟨hpos, fun n hlow hhigh => ?_⟩
    obtain ⟨u, hu, hn⟩ := hall n hlow hhigh
    exact ⟨u, .inr hu, hn⟩
  | .repeated item, h => by
    obtain ⟨hpos, hall⟩ := exists_word_through start item h
    refine ⟨hpos, fun n hlow hhigh => ?_⟩
    obtain ⟨u, hu, hn⟩ := hall n hlow hhigh
    exact ⟨u, ⟨u, hu, [], Language.nil_mem_kstar _, List.append_nil u⟩, hn⟩

/-- Every number of a full sequence is in one of its words. -/
theorem exists_word_through_sequence (start : ℕ) : (ps : List (Pattern α)) → FullAll ps →
    (∃ u, u ∈ languageOfSequence (numberedAll start ps)) ∧ (ps ≠ [] → 0 < sizeAll ps) ∧
      ∀ n, start ≤ n → n < start + sizeAll ps →
        ∃ u ∈ languageOfSequence (numberedAll start ps), n ∈ u
  | [], _ => ⟨⟨[], rfl⟩, fun h => (h rfl).elim, fun n _ _ => by simp only [sizeAll] at *; omega⟩
  | p :: ps, h => by
    obtain ⟨hpos, hall⟩ := exists_word_through start p h.1
    obtain ⟨⟨v, hv⟩, -, hrest⟩ := exists_word_through_sequence (start + p.size) ps h.2
    obtain ⟨u, hu, -⟩ := hall start le_rfl (by omega)
    refine ⟨⟨u ++ v, u, hu, v, hv, rfl⟩, fun _ => by simp only [sizeAll]; omega, ?_⟩
    intro n hlow hhigh
    rw [sizeAll] at hhigh
    by_cases hn : n < start + p.size
    · obtain ⟨u, hu, hn⟩ := hall n hlow hn
      exact ⟨u ++ v, ⟨u, hu, v, hv, rfl⟩, List.mem_append_left v hn⟩
    · obtain ⟨w, hw, hn⟩ := hrest n (by omega) (by omega)
      exact ⟨u ++ w, ⟨u, hu, w, hw, rfl⟩, List.mem_append_right u hn⟩

/-- Every number of a full choice is in one of its words. -/
theorem exists_word_through_choice (start : ℕ) : (ps : List (Pattern α)) → ps ≠ [] → FullAll ps →
    0 < sizeAll ps ∧ ∀ n, start ≤ n → n < start + sizeAll ps →
      ∃ u ∈ languageOfChoice (numberedAll start ps), n ∈ u
  | [], hne, _ => (hne rfl).elim
  | p :: ps, _, h => by
    obtain ⟨hpos, hall⟩ := exists_word_through start p h.1
    refine ⟨by simp only [sizeAll]; omega, ?_⟩
    intro n hlow hhigh
    rw [sizeAll] at hhigh
    by_cases hn : n < start + p.size
    · obtain ⟨u, hu, hn⟩ := hall n hlow hn
      exact ⟨u, .inl hu, hn⟩
    · have hne : ps ≠ [] := by
        rintro rfl
        simp only [sizeAll] at hhigh
        omega
      obtain ⟨u, hu, hn⟩ := (exists_word_through_choice (start + p.size) ps hne h.2).2 n
        (by omega) (by omega)
      exact ⟨u, .inr hu, hn⟩

end

end ShellCompletion.Pattern
