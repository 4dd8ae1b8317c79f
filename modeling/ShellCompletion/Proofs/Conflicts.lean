import ShellCompletion.Proofs.Walks

/-!
# Conflicts between positions

A check that walks over positions is meant to keep conflicting inputs apart: no state of the automaton
is to have transitions on two of them. The walk looks at the positions that follow one position, and
only at those not visited before. A state stands for all positions that follow several ones, visited or
not. So if no look of the walk meets a conflict, there is none at all exactly if the walk skips none and
no two positions that are read alike have conflicting ones behind them. What a conflict is, is left to
the checks.
-/

namespace ShellCompletion

/-- Whether two transitions from one state are on conflicting inputs. -/
def Automaton.HasConflict (d : Automaton Input) (conflict : Input → Input → Prop) : Prop :=
  ∃ t ∈ d.transitions, ∃ u ∈ d.transitions, t.source = u.source ∧ conflict t.symbol u.symbol

instance {d : Automaton Input} {conflict : Input → Input → Prop} [DecidableRel conflict] :
    Decidable (d.HasConflict conflict) :=
  inferInstanceAs (Decidable (∃ t ∈ d.transitions, ∃ u ∈ d.transitions, _))

namespace Positions

variable (p : Positions Input) (conflict : Input → Input → Prop)

/-- Whether two positions have conflicting inputs, and others behind them. -/
def Conflicting (n m : ℕ) : Prop :=
  ∃ a ∈ p.symbols[n]?, ∃ b ∈ p.symbols[m]?, conflict a b ∧ (p.follow n).isEmpty = false ∧
    (p.follow m).isEmpty = false

/-- Whether the walk looks at a set with a conflict between two positions, of which one was visited
before. -/
def SkipsConflict : Prop :=
  ∃ l ∈ p.allLooks, ∃ n ∈ l.set, ∃ m ∈ l.set, n ∈ l.visited ∧ p.Conflicting conflict n m

/-- Whether there is a conflict behind two positions that are read alike from a discovered set. -/
def JoinsConflict : Prop :=
  ∃ S, p.Discovered S ∧ ∃ n ∈ S, ∃ m ∈ S, n ≠ m ∧ p.symbols[n]? = p.symbols[m]? ∧
    ∃ n' ∈ p.follow n, ∃ m' ∈ p.follow m, p.Conflicting conflict n' m'

variable {p conflict}

instance [DecidableRel conflict] (n m : ℕ) : Decidable (p.Conflicting conflict n m) :=
  inferInstanceAs (Decidable (∃ a ∈ p.symbols[n]?, ∃ b ∈ p.symbols[m]?, _))

instance [DecidableRel conflict] : Decidable (p.SkipsConflict conflict) :=
  decidable_of_iff (∃ l ∈ p.allLooks, ∃ n ∈ l.set.toList, ∃ m ∈ l.set.toList,
    n ∈ l.visited ∧ p.Conflicting conflict n m) (by simp only [NatSet.mem_toList, SkipsConflict])

theorem Conflicting.symm (hsymm : ∀ a b, conflict a b → conflict b a) {n m : ℕ}
    (h : p.Conflicting conflict n m) : p.Conflicting conflict m n := by
  obtain ⟨a, ha, b, hb, hab, hlive, hlive'⟩ := h
  exact ⟨b, hb, a, ha, hsymm a b hab, hlive', hlive⟩

/-- An input can be read at a set exactly if it stands at a member with others behind it. -/
theorem after_isEmpty_eq_false_iff {S : NatSet} {a : Input} :
    (p.after S.toList a).isEmpty = false ↔
      ∃ n ∈ S, p.symbols[n]? = some a ∧ (p.follow n).isEmpty = false := by
  simp only [NatSet.isEmpty_eq_false_iff, mem_after, NatSet.mem_toList]
  constructor
  · rintro ⟨m, n, hn, hsymbol, hm⟩
    exact ⟨n, hn, hsymbol, m, hm⟩
  · rintro ⟨n, hn, hsymbol, m, hm⟩
    exact ⟨m, n, hn, hsymbol, hm⟩

/-- The transitions of the state of a discovered set are on the inputs that can be read at it. -/
theorem Represents.mem_transitions_iff {number : NatSet → ℕ} {d : Automaton Input}
    (h : p.Represents number d) {S : NatSet} (hS : p.Discovered S) (a : Input) (t : ℕ) :
    ⟨number S, a, t⟩ ∈ d.transitions ↔
      (p.after S.toList a).isEmpty = false ∧ t = number (p.after S.toList a) := by
  rw [d.mem_transitions, h.next hS]
  cases (p.after S.toList a).isEmpty <;> simp [eq_comm]

/-- A state has transitions on conflicting inputs exactly if its set has conflicting positions. -/
theorem Represents.conflict_iff {number : NatSet → ℕ} {d : Automaton Input}
    (h : p.Represents number d) {S : NatSet} (hS : p.Discovered S) :
    (∃ t ∈ d.transitions, ∃ u ∈ d.transitions, t.source = number S ∧ u.source = number S ∧
        conflict t.symbol u.symbol) ↔
      ∃ n ∈ S, ∃ m ∈ S, p.Conflicting conflict n m := by
  constructor
  · rintro ⟨⟨-, a, t⟩, ht, ⟨-, b, u⟩, hu, rfl, rfl, hab⟩
    obtain ⟨ha, -⟩ := (h.mem_transitions_iff hS a t).mp ht
    obtain ⟨hb, -⟩ := (h.mem_transitions_iff hS b u).mp hu
    obtain ⟨n, hn, hna, hlive⟩ := after_isEmpty_eq_false_iff.mp ha
    obtain ⟨m, hm, hmb, hlive'⟩ := after_isEmpty_eq_false_iff.mp hb
    exact ⟨n, hn, m, hm, a, hna, b, hmb, hab, hlive, hlive'⟩
  · rintro ⟨n, hn, m, hm, a, hna, b, hmb, hab, hlive, hlive'⟩
    have ha := after_isEmpty_eq_false_iff.mpr ⟨n, hn, hna, hlive⟩
    have hb := after_isEmpty_eq_false_iff.mpr ⟨m, hm, hmb, hlive'⟩
    exact ⟨_, (h.mem_transitions_iff hS a _).mpr ⟨ha, rfl⟩, _,
      (h.mem_transitions_iff hS b _).mpr ⟨hb, rfl⟩, rfl, rfl, hab⟩

/-- Some state has transitions on conflicting inputs exactly if a discovered set has conflicting
positions. -/
theorem Represents.hasConflict_iff {number : NatSet → ℕ} {d : Automaton Input}
    (h : p.Represents number d) : d.HasConflict conflict ↔
      ∃ S, p.Discovered S ∧ ∃ n ∈ S, ∃ m ∈ S, p.Conflicting conflict n m := by
  constructor
  · rintro ⟨t, ht, u, hu, hsource, hconflict⟩
    have hrow := d.mem_keys_of_next? ((d.mem_transitions t).mp ht)
    obtain ⟨S, hS, hnumber⟩ := (h.row_iff t.source).mp hrow
    exact ⟨S, hS, (h.conflict_iff hS).mp
      ⟨t, ht, u, hu, hnumber.symm, (hnumber.trans hsource).symm, hconflict⟩⟩
  · rintro ⟨S, hS, hset⟩
    obtain ⟨t, ht, u, hu, hsource, hsource', hconflict⟩ := (h.conflict_iff hS).mpr hset
    exact ⟨t, ht, u, hu, hsource.trans hsource'.symm, hconflict⟩

section

variable (hsymm : ∀ a b, conflict a b → conflict b a)
  (hstop : ∀ n, (p.follow n).isEmpty = false → n < p.stop)
  (hlooks : ∀ l ∈ p.allLooks, ∀ n ∈ l.fresh, ∀ m ∈ l.fresh, ¬ p.Conflicting conflict n m)

include hstop hlooks

omit hlooks in
/-- Only positions before the end can be in conflict. -/
theorem Conflicting.lt_stop {n m : ℕ} (h : p.Conflicting conflict n m) :
    n < p.stop ∧ m < p.stop := by
  obtain ⟨-, -, -, -, -, hlive, hlive'⟩ := h
  exact ⟨hstop n hlive, hstop m hlive'⟩

omit hlooks in
/-- If all positions have different inputs, no two of them are read alike. -/
theorem not_joinsConflict (h : p.symbols.toList.Nodup) : ¬ p.JoinsConflict conflict := by
  rintro ⟨S, -, n, -, m, -, hne, hsame, n', hn', -⟩
  have hn := hstop n ((NatSet.isEmpty_eq_false_iff _).mpr ⟨n', hn'⟩)
  exact hne ((List.getElem?_inj hn h).mp (by simpa using hsame))

/-- If no look meets a conflict, there is none among the first positions. -/
theorem not_conflicting_first {n m : ℕ} (hn : n ∈ p.first) (hm : m ∈ p.first) :
    ¬ p.Conflicting conflict n m := by
  intro h
  obtain ⟨hnstop, hmstop⟩ := h.lt_stop hstop
  have hfirst := (allLooks_spec hstop).1
  refine hlooks _ hfirst n (Look.mem_fresh.mpr ⟨hn, ?_⟩) m (Look.mem_fresh.mpr ⟨hm, ?_⟩) h
  · exact fun hend => hnstop.ne ((NatSet.mem_singleton _ _).mp hend)
  · exact fun hend => hmstop.ne ((NatSet.mem_singleton _ _).mp hend)

include hsymm

/-- If no look meets a conflict, those in discovered sets are skipped by the walk or joined by
reading. -/
theorem conflicting_iff_of_looks :
    (∃ S, p.Discovered S ∧ ∃ n ∈ S, ∃ m ∈ S, p.Conflicting conflict n m) ↔
      p.SkipsConflict conflict ∨ p.JoinsConflict conflict := by
  constructor
  · rintro ⟨S, hS, n, hn, m, hm, h⟩
    cases hS with
    | first => exact (not_conflicting_first hstop hlooks hn hm h).elim
    | @after S a hS _ =>
      obtain ⟨x, hx, hxa, hn⟩ := (p.mem_after _ a n).mp hn
      obtain ⟨y, hy, hya, hm⟩ := (p.mem_after _ a m).mp hm
      rw [NatSet.mem_toList] at hx hy
      by_cases hxy : x = y
      · -- both follow one position, so the walk looks at the two of them together
        subst hxy
        obtain ⟨l, hl, hset⟩ := exists_look hstop hS hx ((NatSet.isEmpty_eq_false_iff _).mpr ⟨n, hn⟩)
        rw [← hset] at hn hm
        by_cases hvisited : n ∈ l.visited
        · exact Or.inl ⟨l, hl, n, hn, m, hm, hvisited, h⟩
        · by_cases hvisited' : m ∈ l.visited
          · exact Or.inl ⟨l, hl, m, hm, n, hn, hvisited', h.symm hsymm⟩
          · exact (hlooks l hl n (Look.mem_fresh.mpr ⟨hn, hvisited⟩) m
              (Look.mem_fresh.mpr ⟨hm, hvisited'⟩) h).elim
      · exact Or.inr ⟨S, hS, x, hx, y, hy, hxy, hxa.trans hya.symm, n, hn, m, hm, h⟩
  · rintro (⟨l, hl, n, hn, m, hm, -, h⟩ | ⟨S, hS, x, hx, y, hy, -, hxy, n, hn, m, hm, h⟩)
    · obtain ⟨S, hS, hset⟩ := exists_discovered hstop hl
      exact ⟨S, hS, n, hset n hn, m, hset m hm, h⟩
    · have hlive : (p.follow x).isEmpty = false := (NatSet.isEmpty_eq_false_iff _).mpr ⟨n, hn⟩
      obtain ⟨a, hxa⟩ : ∃ a, p.symbols[x]? = some a :=
        ⟨_, Array.getElem?_eq_getElem (hstop x hlive)⟩
      have hn' : n ∈ p.after S.toList a :=
        (p.mem_after _ a n).mpr ⟨x, (NatSet.mem_toList S x).mpr hx, hxa, hn⟩
      have hm' : m ∈ p.after S.toList a :=
        (p.mem_after _ a m).mpr ⟨y, (NatSet.mem_toList S y).mpr hy, hxy ▸ hxa, hm⟩
      exact ⟨_, .after a hS ((NatSet.isEmpty_eq_false_iff _).mpr ⟨n, hn'⟩), n, hn', m, hm', h⟩

end

end Positions

end ShellCompletion
