import Mathlib.Data.Nat.Basic
import ShellCompletion.Automaton.Range

/-!
# Exactness of the range search

In an ascending array the keys between two bounds stand together. Bisection finds one of them if there
is any, and widening to both sides then yields the whole stretch. Which one of them is found makes no
difference: widening from any place whose key lies between the bounds yields the same stretch.
-/

namespace ShellCompletion.Range

/-- Keys in ascending order of their places. -/
def Ascending (keys : Array ℕ) : Prop :=
  ∀ (i j ki kj : ℕ), i ≤ j → keys[i]? = some ki → keys[j]? = some kj → ki ≤ kj

variable {keys : Array ℕ} {low high : ℕ}

/-- What bisection finds lies between the bounds. -/
theorem bisect_eq_some {fuel left right place : ℕ}
    (h : bisect keys low high fuel left right = some place) :
    ∃ key, keys[place]? = some key ∧ low ≤ key ∧ key ≤ high := by
  induction fuel generalizing left right with
  | zero => cases h
  | succ fuel ih =>
    rw [bisect] at h
    dsimp only at h
    split at h
    · split at h
      · cases h
      · next key hkey =>
        split at h
        · exact ih h
        · split at h
          · exact ih h
          · cases h
            exact ⟨key, hkey, by omega, by omega⟩
    · cases h

/-- If bisection of a stretch finds nothing, no key in the stretch lies between the bounds. The
stretch is at least halved by each step, so that its length suffices as fuel. -/
theorem bisect_eq_none (hkeys : Ascending keys) {fuel left right : ℕ} (hright : right ≤ keys.size)
    (hfuel : right - left ≤ fuel) (h : bisect keys low high fuel left right = none) {place key : ℕ}
    (hleft : left ≤ place) (hplace : place < right) (hkey : keys[place]? = some key) :
    ¬ (low ≤ key ∧ key ≤ high) := by
  induction fuel generalizing left right with
  | zero => omega
  | succ fuel ih =>
    rw [bisect, if_pos (by omega : left < right)] at h
    dsimp only at h
    have hmiddle : left + (right - left) / 2 < keys.size := by omega
    rw [Array.getElem?_eq_getElem hmiddle] at h
    have hread := Array.getElem?_eq_getElem hmiddle
    generalize keys[left + (right - left) / 2] = found at h hread
    dsimp only at h
    split at h
    · next hbelow =>
      by_cases hside : place ≤ left + (right - left) / 2
      · have := hkeys _ _ _ _ hside hkey hread
        omega
      · exact ih hright (by omega) h (by omega) hplace
    · split at h
      · next habove =>
        by_cases hside : left + (right - left) / 2 ≤ place
        · have := hkeys _ _ _ _ hside hread hkey
          omega
        · exact ih (by omega) (by omega) h hleft (by omega)
      · cases h

/-- Widening downwards from a place reaches exactly the keys before it that are not too low. -/
theorem widenDown_spec (low : ℕ) (hkeys : Ascending keys) {place : ℕ} (hplace : place ≤ keys.size) :
    widenDown keys low place ≤ place ∧ ∀ k key, k < place → keys[k]? = some key →
      (widenDown keys low place ≤ k ↔ low ≤ key) := by
  induction place with
  | zero => exact ⟨le_rfl, fun k key hk => by omega⟩
  | succ place ih =>
    have hin : place < keys.size := hplace
    have hread := Array.getElem?_eq_getElem hin
    rw [widenDown, hread]
    generalize keys[place] = found at hread
    dsimp only
    obtain ⟨hle, hspec⟩ := ih (Nat.le_of_lt hin)
    split
    · next hlow =>
      refine ⟨by omega, fun k key hk hkey => ?_⟩
      rcases Nat.lt_succ_iff_lt_or_eq.mp hk with hk | rfl
      · exact hspec k key hk hkey
      · rw [hread] at hkey
        cases hkey
        exact ⟨fun _ => hlow, fun _ => hle⟩
    · next hlow =>
      refine ⟨le_rfl, fun k key hk hkey => ⟨fun _ => by omega, fun hlow' => ?_⟩⟩
      have := hkeys k place key found (by omega) hkey hread
      omega

/-- Widening upwards from a place reaches exactly the keys behind it that are not too high. -/
theorem widenUp_spec (high : ℕ) (hkeys : Ascending keys) {fuel place : ℕ} (hplace : place < keys.size)
    (hfuel : keys.size ≤ place + 1 + fuel) :
    place ≤ widenUp keys high fuel place ∧ widenUp keys high fuel place < keys.size ∧
      ∀ k key, place < k → keys[k]? = some key → (k ≤ widenUp keys high fuel place ↔ key ≤ high) := by
  have hbounded : ∀ {k key}, keys[k]? = some key → k < keys.size := fun hkey =>
    (Array.getElem?_eq_some_iff.mp hkey).1
  induction fuel generalizing place with
  | zero =>
    refine ⟨le_rfl, hplace, fun k key hk hkey => ?_⟩
    have := hbounded hkey
    omega
  | succ fuel ih =>
    rw [widenUp]
    split
    · next found hread =>
      split
      · next hhigh =>
        obtain ⟨hle, hlt, hspec⟩ := ih (hbounded hread) (by omega)
        refine ⟨by omega, hlt, fun k key hk hkey => ?_⟩
        rcases Nat.lt_or_eq_of_le hk with hk | rfl
        · exact hspec k key hk hkey
        · rw [Nat.succ_eq_add_one, hread] at hkey
          cases hkey
          exact ⟨fun _ => hhigh, fun _ => hle⟩
      · next hhigh =>
        refine ⟨le_rfl, hplace, fun k key hk hkey => ⟨fun _ => by omega, fun hhigh' => ?_⟩⟩
        have := hkeys _ _ _ _ hk hread hkey
        omega
    · next hnone =>
      refine ⟨le_rfl, hplace, fun k key hk hkey => ?_⟩
      have := hbounded hkey
      have := Array.getElem?_eq_none_iff.mp hnone
      omega

/-- The stretch of places that widening from a place yields: its first place and the place just
behind it. -/
def stretch (keys : Array ℕ) (low high place : ℕ) : ℕ × ℕ :=
  (widenDown keys low place, widenUp keys high keys.size place + 1)

/-- Whether a stretch has a place and holds exactly the keys between the bounds. -/
structure Exact (keys : Array ℕ) (low high first behind : ℕ) : Prop where
  lt : first < behind
  le_size : behind ≤ keys.size
  mem_iff : ∀ k key, keys[k]? = some key → (first ≤ k ∧ k < behind ↔ low ≤ key ∧ key ≤ high)

/-- Only one stretch is exact. -/
theorem Exact.unique {first behind first' behind' : ℕ} (h : Exact keys low high first behind)
    (h' : Exact keys low high first' behind') : first = first' ∧ behind = behind' := by
  have hsame : ∀ k, k < keys.size → (first ≤ k ∧ k < behind ↔ first' ≤ k ∧ k < behind') := fun k hk =>
    (h.mem_iff k _ (Array.getElem?_eq_getElem hk)).trans
      (h'.mem_iff k _ (Array.getElem?_eq_getElem hk)).symm
  have hlt := h.lt
  have hle := h.le_size
  have hlt' := h'.lt
  have hle' := h'.le_size
  -- each stretch holds the first and the last place of the other one
  have hfirst := hsame first (by omega)
  have hfirst' := hsame first' (by omega)
  have hlast := hsame (behind - 1) (by omega)
  have hlast' := hsame (behind' - 1) (by omega)
  omega

/-- Widening from any place whose key lies between the bounds yields the exact stretch. -/
theorem exact_stretch (hkeys : Ascending keys) {place found : ℕ} (hread : keys[place]? = some found)
    (hlow : low ≤ found) (hhigh : found ≤ high) :
    Exact keys low high (stretch keys low high place).1 (stretch keys low high place).2 := by
  have hin : place < keys.size := (Array.getElem?_eq_some_iff.mp hread).1
  obtain ⟨hdown, hdown'⟩ := widenDown_spec low hkeys (Nat.le_of_lt hin)
  obtain ⟨hup, hlt, hup'⟩ := widenUp_spec high hkeys hin (by omega : _ ≤ _ + keys.size)
  refine ⟨by simp only [stretch]; omega, hlt, fun k key hkey => ?_⟩
  simp only [stretch]
  rcases lt_trichotomy k place with hk | rfl | hk
  · have := hkeys k place key found (Nat.le_of_lt hk) hkey hread
    have := hdown' k key hk hkey
    omega
  · rw [hread] at hkey
    cases hkey
    omega
  · have := hkeys place k found key (Nat.le_of_lt hk) hread hkey
    have := hup' k key hk hkey
    omega

/-- The stretch that is found is the one around a place whose key lies between the bounds. -/
theorem exists_stretch {first behind : ℕ} (h : bounds keys low high = some (first, behind)) :
    ∃ place key, keys[place]? = some key ∧ low ≤ key ∧ key ≤ high ∧
      stretch keys low high place = (first, behind) := by
  rw [bounds] at h
  split at h
  · cases h
  · next middle hmiddle =>
    obtain ⟨key, hkey, hlow, hhigh⟩ := bisect_eq_some hmiddle
    exact ⟨middle, key, hkey, hlow, hhigh, Option.some.inj h⟩

/-- The stretch that is found has a place and holds exactly the keys between the bounds. -/
theorem bounds_eq_some (hkeys : Ascending keys) {first behind : ℕ}
    (h : bounds keys low high = some (first, behind)) : Exact keys low high first behind := by
  obtain ⟨place, key, hkey, hlow, hhigh, hstretch⟩ := exists_stretch h
  have hexact := exact_stretch hkeys hkey hlow hhigh
  rwa [hstretch] at hexact

/-- Nothing is found exactly if no key lies between the bounds. -/
theorem bounds_eq_none_iff (hkeys : Ascending keys) :
    bounds keys low high = none ↔ ∀ k key : ℕ, keys[k]? = some key → ¬ (low ≤ key ∧ key ≤ high) := by
  constructor
  · intro h k key hkey
    rw [bounds] at h
    split at h
    · next hnone =>
      exact bisect_eq_none hkeys le_rfl (by omega) hnone (Nat.zero_le k)
        (Array.getElem?_eq_some_iff.mp hkey).1 hkey
    · cases h
  · intro h
    rw [Option.eq_none_iff_forall_ne_some]
    rintro ⟨first, behind⟩ hsome
    -- The first place of a stretch that was found would be one of a key between the bounds.
    obtain ⟨hlt, hle, hspec⟩ := bounds_eq_some hkeys hsome
    have hread : keys[first]? = some keys[first] :=
      Array.getElem?_eq_getElem (Nat.lt_of_lt_of_le hlt hle)
    exact h first _ hread ((hspec first _ hread).mp ⟨le_rfl, hlt⟩)

/-- The search finds the stretch around every place whose key lies between the bounds, so it does not
matter which of these places bisection comes to. -/
theorem bounds_eq_stretch (hkeys : Ascending keys) {place key : ℕ} (hkey : keys[place]? = some key)
    (hlow : low ≤ key) (hhigh : key ≤ high) :
    bounds keys low high = some (stretch keys low high place) := by
  cases hbounds : bounds keys low high with
  | none => exact ((bounds_eq_none_iff hkeys).mp hbounds place key hkey ⟨hlow, hhigh⟩).elim
  | some found =>
    obtain ⟨hfirst, hbehind⟩ :=
      (bounds_eq_some hkeys hbounds).unique (exact_stretch hkeys hkey hlow hhigh)
    exact congrArg some (Prod.ext hfirst hbehind)

end ShellCompletion.Range
