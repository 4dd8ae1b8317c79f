import Mathlib.Computability.Language
import Mathlib.Data.List.Chain

/-!
# Words described by neighbours

A set of words over numbers is local if a word belongs to it as soon as its first letter, its last
letter and each pair of neighbours are allowed. Local sets over disjoint ranges of letters are closed
under concatenation and union, and every local set is closed under repetition. The descriptions are
kept apart from patterns; how a pattern gives rise to one is left to the next module.
-/

namespace ShellCompletion

open scoped Computability

/-- What is known of the words of a local set: whether the empty word belongs to it, the letters that
come first and last, and the letters that come directly after each other. -/
@[ext] structure LocalWords where
  /-- Whether the empty word belongs to the set. -/
  empty : Prop
  /-- The letters that can come first. -/
  first : ℕ → Prop
  /-- The letters that can come last. -/
  last : ℕ → Prop
  /-- The pairs of letters that can be neighbours. -/
  next : ℕ → ℕ → Prop

namespace LocalWords

variable {a b : LocalWords} {A B : ℕ → Prop}

/-- The words that the description allows. -/
def words (a : LocalWords) : Language ℕ :=
  {u | (u = [] → a.empty) ∧ (∀ n ∈ u.head?, a.first n) ∧ u.IsChain a.next ∧
    ∀ n ∈ u.getLast?, a.last n}

/-- A word is told by its first, its last and its neighbouring letters. -/
theorem mem_words (u : List ℕ) : u ∈ a.words ↔ (u = [] → a.empty) ∧ (∀ n ∈ u.head?, a.first n) ∧
    u.IsChain a.next ∧ ∀ n ∈ u.getLast?, a.last n := Iff.rfl

@[simp] theorem nil_mem_words : [] ∈ a.words ↔ a.empty := by
  simp [mem_words]

/-- A description that mentions letters of a range only. -/
structure Within (a : LocalWords) (A : ℕ → Prop) : Prop where
  first : ∀ n, a.first n → A n
  last : ∀ n, a.last n → A n
  source : ∀ n m, a.next n m → A n
  target : ∀ n m, a.next n m → A m

/-- A wider range serves as well. -/
theorem Within.mono (h : a.Within A) (hAB : ∀ n, A n → B n) : a.Within B :=
  ⟨fun n hn => hAB n (h.first n hn), fun n hn => hAB n (h.last n hn),
    fun n m hn => hAB n (h.source n m hn), fun n m hn => hAB m (h.target n m hn)⟩

/-- A chain that starts in a range from which no step leads out stays in it, and uses only the steps
of that range. -/
theorem isChain_of_closed {R S : ℕ → ℕ → Prop} {u : List ℕ}
    (hclosed : ∀ n m, R n m → A n → S n m ∧ A m) (hu : u.IsChain R) (hhead : ∀ n ∈ u.head?, A n) :
    u.IsChain S ∧ ∀ n ∈ u, A n := by
  induction u with
  | nil => simp
  | cons n u ih =>
    have hn : A n := hhead n (by simp)
    cases u with
    | nil => simpa using hn
    | cons m u =>
      rw [List.isChain_cons_cons] at hu ⊢
      obtain ⟨hS, hm⟩ := hclosed n m hu.1 hn
      obtain ⟨hchain, hall⟩ := ih hu.2 (by simpa using hm)
      refine ⟨⟨hS, hchain⟩, ?_⟩
      intro k hk
      rcases List.mem_cons.mp hk with rfl | hk
      · exact hn
      · exact hall k hk

/-- A chain of steps of two kinds begins with a stretch of the first kind, which ends the chain or is
left by a step of the second kind. -/
theorem exists_first_stretch {R T : ℕ → ℕ → Prop} (n : ℕ) (u : List ℕ)
    (hu : (n :: u).IsChain fun x y => R x y ∨ T x y) :
    ∃ v w, u = v ++ w ∧ (n :: v).IsChain R ∧ (w.IsChain fun x y => R x y ∨ T x y) ∧
      ∀ x ∈ (n :: v).getLast?, ∀ y ∈ w.head?, T x y := by
  induction u generalizing n with
  | nil => exact ⟨[], [], rfl, by simp, by simp, by simp⟩
  | cons m u ih =>
    rw [List.isChain_cons_cons] at hu
    rcases hu.1 with hR | hT
    · obtain ⟨v, w, rfl, hv, hw, hT⟩ := ih m hu.2
      refine ⟨m :: v, w, rfl, List.isChain_cons_cons.mpr ⟨hR, hv⟩, hw, ?_⟩
      simpa [List.getLast?_cons_cons] using hT
    · refine ⟨[], m :: u, rfl, by simp, hu.2, ?_⟩
      simpa using hT

/-- The description of no words at all. -/
def none : LocalWords := ⟨False, fun _ => False, fun _ => False, fun _ _ => False⟩

/-- The description of the empty word alone. -/
def nil : LocalWords := ⟨True, fun _ => False, fun _ => False, fun _ _ => False⟩

/-- The description of a word of one letter. -/
def letter (n : ℕ) : LocalWords := ⟨False, (· = n), (· = n), fun _ _ => False⟩

/-- Words of the first description before words of the second one. -/
def append (a b : LocalWords) : LocalWords where
  empty := a.empty ∧ b.empty
  first n := a.first n ∨ a.empty ∧ b.first n
  last n := b.last n ∨ b.empty ∧ a.last n
  next n m := a.next n m ∨ (a.last n ∧ b.first m ∨ b.next n m)

/-- Words of either description. -/
def either (a b : LocalWords) : LocalWords where
  empty := a.empty ∨ b.empty
  first n := a.first n ∨ b.first n
  last n := a.last n ∨ b.last n
  next n m := a.next n m ∨ b.next n m

/-- The empty word besides the words of a description. -/
def orNil (a : LocalWords) : LocalWords := { a with empty := True }

/-- One or more words of a description. -/
def repeated (a : LocalWords) : LocalWords :=
  { a with next := fun n m => a.next n m ∨ a.last n ∧ a.first m }

/-- Words one after the other use the letters that both use. -/
theorem Within.append (ha : a.Within A) (hb : b.Within A) : (a.append b).Within A := by
  refine ⟨?_, ?_, ?_, ?_⟩
  · rintro n (h | ⟨-, h⟩)
    · exact ha.first n h
    · exact hb.first n h
  · rintro n (h | ⟨-, h⟩)
    · exact hb.last n h
    · exact ha.last n h
  · rintro n m (h | ⟨h, -⟩ | h)
    · exact ha.source n m h
    · exact ha.last n h
    · exact hb.source n m h
  · rintro n m (h | ⟨-, h⟩ | h)
    · exact ha.target n m h
    · exact hb.first m h
    · exact hb.target n m h

/-- Words of either kind use the letters that both use. -/
theorem Within.either (ha : a.Within A) (hb : b.Within A) : (a.either b).Within A :=
  ⟨fun n h => h.elim (ha.first n) (hb.first n), fun n h => h.elim (ha.last n) (hb.last n),
    fun n m h => h.elim (ha.source n m) (hb.source n m),
    fun n m h => h.elim (ha.target n m) (hb.target n m)⟩

/-- Repeated words use the letters of the single ones. -/
theorem Within.repeated (ha : a.Within A) : a.repeated.Within A :=
  ⟨ha.first, ha.last, fun n m h => h.elim (ha.source n m) fun h => ha.last n h.1,
    fun n m h => h.elim (ha.target n m) fun h => ha.first m h.2⟩

theorem words_none : none.words = 0 := by
  ext u
  cases u with
  | nil => simp [none]
  | cons n u => simp [mem_words, none]

theorem words_nil : nil.words = 1 := by
  ext u
  cases u with
  | nil => simp [nil]
  | cons n u => simp [mem_words, nil]

theorem words_letter (n : ℕ) : (letter n).words = {[n]} := by
  ext u
  rcases u with - | ⟨m, - | ⟨k, u⟩⟩
  · constructor
    · intro h
      exact absurd rfl h.1
    · intro h
      exact absurd h (List.cons_ne_nil n []).symm
  · constructor
    · intro h
      have hm : m = n := h.2.1 m rfl
      exact hm ▸ rfl
    · intro h
      cases h
      exact ⟨fun h => (List.cons_ne_nil n [] h).elim, by simp [letter], by simp, by simp [letter]⟩
  · constructor
    · intro h
      exact absurd h.2.2.1 (by simp [letter])
    · intro h
      cases h

/-- Allowing the empty word adds it. -/
theorem words_orNil (a : LocalWords) : a.orNil.words = 1 + a.words := by
  ext u
  rw [Language.mem_add, Language.mem_one]
  cases u with
  | nil => simp [orNil]
  | cons n u => simp [mem_words, orNil]

/-- A word whose first letter one description allows is a word of that description if all steps from
letters of its range are its own. -/
theorem cons_mem_words {c : LocalWords} (ha : a.Within A)
    (hnext : ∀ x y, c.next x y → A x → a.next x y) (hlast : ∀ x, c.last x → A x → a.last x)
    {n : ℕ} {u : List ℕ} (hn : a.first n) (hchain : (n :: u).IsChain c.next)
    (hend : ∀ m ∈ (n :: u).getLast?, c.last m) : n :: u ∈ a.words := by
  have hstep : ∀ x y, c.next x y → A x → a.next x y ∧ A y := fun x y hxy hx =>
    ⟨hnext x y hxy hx, ha.target x y (hnext x y hxy hx)⟩
  obtain ⟨hown, hall⟩ := isChain_of_closed hstep hchain (by simpa using ha.first n hn)
  exact ⟨by simp, by simpa using hn, hown, fun m hm =>
    hlast m (hend m hm) (hall m (List.mem_of_getLast? hm))⟩

/-- Over disjoint ranges, the words of either description are those of the one or of the other. -/
theorem words_either (ha : a.Within A) (hb : b.Within B) (hAB : ∀ n, A n → ¬ B n) :
    (a.either b).words = a.words + b.words := by
  ext u
  rw [Language.mem_add]
  constructor
  · rintro ⟨hempty, hfirst, hchain, hlast⟩
    cases u with
    | nil =>
      rw [nil_mem_words, nil_mem_words]
      exact hempty rfl
    | cons n u =>
      rcases hfirst n (by simp) with hn | hn
      · left
        refine cons_mem_words ha ?_ ?_ hn hchain hlast
        · intro x y hxy hx
          exact hxy.resolve_right fun h => hAB x hx (hb.source x y h)
        · intro x hend hx
          exact hend.resolve_right fun h => hAB x hx (hb.last x h)
      · right
        refine cons_mem_words hb ?_ ?_ hn hchain hlast
        · intro x y hxy hx
          exact hxy.resolve_left fun h => hAB x (ha.source x y h) hx
        · intro x hend hx
          exact hend.resolve_left fun h => hAB x (ha.last x h) hx
  · rintro (⟨hempty, hfirst, hchain, hlast⟩ | ⟨hempty, hfirst, hchain, hlast⟩)
    · exact ⟨fun h => .inl (hempty h), fun n hn => .inl (hfirst n hn),
        hchain.imp fun _ _ h => .inl h, fun n hn => .inl (hlast n hn)⟩
    · exact ⟨fun h => .inr (hempty h), fun n hn => .inr (hfirst n hn),
        hchain.imp fun _ _ h => .inr h, fun n hn => .inr (hlast n hn)⟩

/-- A word of the first description before a word of the second one is described by both together. -/
theorem append_mem_words {u v : List ℕ} (hu : u ∈ a.words) (hv : v ∈ b.words) :
    u ++ v ∈ (a.append b).words := by
  obtain ⟨hue, huf, huc, hul⟩ := hu
  obtain ⟨hve, hvf, hvc, hvl⟩ := hv
  refine ⟨?_, ?_, ?_, ?_⟩
  · intro h
    rw [List.append_eq_nil_iff] at h
    exact ⟨hue h.1, hve h.2⟩
  · intro n hn
    cases u with
    | nil => exact .inr ⟨hue rfl, hvf n hn⟩
    | cons m u => exact .inl (huf n hn)
  · rw [List.isChain_append]
    exact ⟨huc.imp fun _ _ h => .inl h, hvc.imp fun _ _ h => .inr (.inr h),
      fun x hx y hy => .inr (.inl ⟨hul x hx, hvf y hy⟩)⟩
  · intro n hn
    rw [List.getLast?_append] at hn
    cases hv : v.getLast? with
    | none =>
      rw [hv] at hn
      rw [List.getLast?_eq_none_iff] at hv
      exact .inr ⟨hve hv, hul n hn⟩
    | some m =>
      rw [hv] at hn
      exact .inl (hvl n (hv.trans hn))

/-- Over disjoint ranges, what follows a first letter of the second description is a word of it: from
the second range no step leads back. -/
theorem cons_mem_words_of_append (ha : a.Within A) (hb : b.Within B) (hAB : ∀ n, A n → ¬ B n) {n : ℕ}
    {u : List ℕ} (hn : b.first n) (hchain : (n :: u).IsChain (a.append b).next)
    (hlast : ∀ m ∈ (n :: u).getLast?, (a.append b).last m) : n :: u ∈ b.words := by
  refine cons_mem_words hb ?_ ?_ hn hchain hlast
  · rintro x y (h | ⟨h, -⟩ | h) hx
    · exact (hAB x (ha.source x y h) hx).elim
    · exact (hAB x (ha.last x h) hx).elim
    · exact h
  · rintro x (h | ⟨-, h⟩) hx
    · exact h
    · exact (hAB x (ha.last x h) hx).elim

/-- Over disjoint ranges, the words of two descriptions one after the other are the concatenations. -/
theorem words_append (ha : a.Within A) (hb : b.Within B) (hAB : ∀ n, A n → ¬ B n) :
    (a.append b).words = a.words * b.words := by
  ext u
  rw [Language.mem_mul]
  constructor
  · rintro ⟨hempty, hfirst, hchain, hlast⟩
    cases u with
    | nil => exact ⟨[], nil_mem_words.mpr (hempty rfl).1, [], nil_mem_words.mpr (hempty rfl).2, rfl⟩
    | cons n u =>
      rcases hfirst n (by simp) with hn | ⟨hae, hn⟩
      · -- the first stretch is the word of the first description
        obtain ⟨v, w, rfl, hv, hw, hT⟩ := exists_first_stretch n u hchain
        have hvA : ∀ x ∈ (n :: v).getLast?, A x := fun x hx => (isChain_of_closed (S := a.next)
          (fun x y hxy _ => ⟨hxy, ha.target x y hxy⟩) hv
          (by simpa using ha.first n hn)).2 x (List.mem_of_getLast? hx)
        cases w with
        | nil =>
          rw [List.append_nil] at hlast
          have hends : ∀ x ∈ (n :: v).getLast?, b.empty ∧ a.last x := fun x hx =>
            (hlast x hx).resolve_left fun h => hAB x (hvA x hx) (hb.last x h)
          obtain ⟨x, hx⟩ : ∃ x, x ∈ (n :: v).getLast? :=
            ⟨_, List.getLast?_eq_getLast_of_ne_nil (by simp)⟩
          exact ⟨n :: v, ⟨by simp, by simpa using hn, hv, fun x hx => (hends x hx).2⟩, [],
            nil_mem_words.mpr (hends x hx).1, by simp⟩
        | cons y w =>
          have hmeet : ∀ x ∈ (n :: v).getLast?, a.last x ∧ b.first y := fun x hx =>
            (hT x hx y rfl).resolve_right fun h => hAB x (hvA x hx) (hb.source x y h)
          obtain ⟨x, hx⟩ : ∃ x, x ∈ (n :: v).getLast? :=
            ⟨_, List.getLast?_eq_getLast_of_ne_nil (by simp)⟩
          refine ⟨n :: v, ⟨by simp, by simpa using hn, hv, fun x hx => (hmeet x hx).1⟩, y :: w, ?_,
            rfl⟩
          refine cons_mem_words_of_append ha hb hAB (hmeet x hx).2 hw fun m hm => ?_
          have hend : m ∈ ((n :: v) ++ y :: w).getLast? :=
            List.mem_getLast?_append_of_mem_getLast? hm
          exact hlast m hend
      · exact ⟨[], nil_mem_words.mpr hae, n :: u,
          cons_mem_words_of_append ha hb hAB hn hchain hlast, rfl⟩
  · rintro ⟨v, hv, w, hw, rfl⟩
    exact append_mem_words hv hw

/-- A word after one of the words repeated makes another one of them. -/
theorem append_mem_words_repeated {v w : List ℕ} (hv : v ∈ a.repeated.words) (hw : w ∈ a.words) :
    v ++ w ∈ a.repeated.words := by
  obtain ⟨hve, hvf, hvc, hvl⟩ := hv
  obtain ⟨hwe, hwf, hwc, hwl⟩ := hw
  refine ⟨?_, ?_, ?_, ?_⟩
  · intro h
    exact hve (List.append_eq_nil_iff.mp h).1
  · intro n hn
    cases v with
    | nil => exact hwf n hn
    | cons m v => exact hvf n hn
  · rw [List.isChain_append]
    exact ⟨hvc, hwc.imp fun _ _ h => .inl h, fun x hx y hy => .inr ⟨hvl x hx, hwf y hy⟩⟩
  · intro n hn
    rw [List.getLast?_append] at hn
    cases hw : w.getLast? with
    | none =>
      rw [hw] at hn
      exact hvl n hn
    | some m =>
      rw [hw] at hn
      exact hwl n (hw.trans hn)

/-- One of the words repeated is a word, or begins with one that is not empty. -/
theorem exists_first_word {u : List ℕ} (hu : u ∈ a.repeated.words) :
    u ∈ a.words ∨ ∃ v ∈ a.words, ∃ w ∈ a.repeated.words, v ≠ [] ∧ u = v ++ w := by
  obtain ⟨hempty, hfirst, hchain, hlast⟩ := hu
  cases u with
  | nil => exact Or.inl (nil_mem_words.mpr (hempty rfl))
  | cons n u =>
    obtain ⟨v, w, rfl, hv, hw, hT⟩ := exists_first_stretch n u hchain
    have hn : a.first n := hfirst n (by simp)
    cases w with
    | nil =>
      rw [List.append_nil] at hlast ⊢
      exact Or.inl ⟨by simp, by simpa using hn, hv, hlast⟩
    | cons y w =>
      obtain ⟨x, hx⟩ : ∃ x, x ∈ (n :: v).getLast? :=
        ⟨_, List.getLast?_eq_getLast_of_ne_nil (by simp)⟩
      have hy : a.repeated.first y := (hT x hx y rfl).2
      refine Or.inr ⟨n :: v, ⟨by simp, by simpa using hn, hv, fun m hm => (hT m hm y rfl).1⟩, y :: w,
        ⟨by simp, by simpa using hy, hw, fun m hm => ?_⟩, by simp, rfl⟩
      have hend : m ∈ ((n :: v) ++ y :: w).getLast? := List.mem_getLast?_append_of_mem_getLast? hm
      exact hlast m hend

/-- The words of a repeated description are the concatenations of one or more words. -/
theorem words_repeated (a : LocalWords) : a.repeated.words = a.words * a.words∗ := by
  apply le_antisymm
  · intro u hu
    induction hlength : u.length using Nat.strong_induction_on generalizing u with
    | _ length ih =>
      rcases exists_first_word hu with hu | ⟨v, hv, w, hw, hne, rfl⟩
      · exact ⟨u, hu, [], Language.nil_mem_kstar _, by simp⟩
      · have hshorter : w.length < length := by
          have hpos := List.length_pos_of_ne_nil hne
          rw [List.length_append] at hlength
          omega
        have hstar : a.words * a.words∗ ≤ a.words∗ := mul_kstar_le_kstar
        exact ⟨v, hv, w, hstar (ih w.length hshorter hw rfl), rfl⟩
  · apply mul_kstar_le
    · rintro u ⟨hempty, hfirst, hchain, hlast⟩
      exact ⟨hempty, hfirst, hchain.imp fun _ _ h => .inl h, hlast⟩
    · rintro u ⟨v, hv, w, hw, rfl⟩
      exact append_mem_words_repeated hv hw

end LocalWords

end ShellCompletion
