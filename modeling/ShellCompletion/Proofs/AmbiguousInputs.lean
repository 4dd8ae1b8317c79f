import ShellCompletion.Automaton.Query
import ShellCompletion.Grammar.Compilation
import ShellCompletion.Proofs.Conflicts

/-!
# Ambiguous inputs among words

The check on words is meant to leave no state of the automaton with two transitions on ambiguous inputs.
It looks at the positions that follow one position, and only at those not visited before. A state stands
for all positions that follow several ones, visited or not. So the check holds what it promises exactly
if it never skips an ambiguous input beside another one, and if no two positions that are read alike have
different ambiguous inputs behind them.
-/

namespace ShellCompletion

/-- Whether two inputs are different and both ambiguous in the shell. -/
def Input.Rival (shell : Shell) (a b : Input) : Prop :=
  a ≠ b ∧ a.isAmbiguous shell = true ∧ b.isAmbiguous shell = true

theorem Input.Rival.symm {shell : Shell} {a b : Input} (h : Input.Rival shell a b) :
    Input.Rival shell b a := ⟨h.1.symm, h.2.2, h.2.1⟩

namespace Automaton

variable {d : Automaton Input} {shell : Shell}

/-- Whether a state has one transition at most on an input that is ambiguous in the shell. -/
def OneAmbiguousFrom (d : Automaton Input) (shell : Shell) (s : ℕ) : Prop :=
  ∀ t ∈ d.transitions, ∀ u ∈ d.transitions, t.source = s → u.source = s →
    t.symbol.isAmbiguous shell = true → u.symbol.isAmbiguous shell = true → t = u

instance (s : ℕ) : Decidable (d.OneAmbiguousFrom shell s) :=
  inferInstanceAs (Decidable (∀ t ∈ d.transitions, ∀ u ∈ d.transitions, _))

/-- A state has one such transition at most exactly if it has none on two different inputs. -/
theorem oneAmbiguousFrom_iff {s : ℕ} : d.OneAmbiguousFrom shell s ↔
    ¬ ∃ t ∈ d.transitions, ∃ u ∈ d.transitions, t.source = s ∧ u.source = s ∧
      Input.Rival shell t.symbol u.symbol := by
  constructor
  · rintro h ⟨t, ht, u, hu, hsource, hsource', hne, hambiguous, hambiguous'⟩
    exact hne (congrArg Transition.symbol (h t ht u hu hsource hsource' hambiguous hambiguous'))
  · rintro h ⟨source, a, x⟩ ht ⟨source', b, y⟩ hu rfl rfl hambiguous hambiguous'
    obtain rfl : a = b := by
      by_contra hne
      exact h ⟨_, ht, _, hu, rfl, rfl, hne, hambiguous, hambiguous'⟩
    have htarget : x = y :=
      Option.some.inj (((d.mem_transitions _).mp ht).symm.trans ((d.mem_transitions _).mp hu))
    rw [htarget]

/-- At most one ambiguous input leaves each state exactly if there are no rivals. -/
theorem forall_oneAmbiguousFrom_iff :
    (∀ s, d.OneAmbiguousFrom shell s) ↔ ¬ d.HasConflict (Input.Rival shell) := by
  simp only [oneAmbiguousFrom_iff, HasConflict]
  constructor
  · rintro h ⟨t, ht, u, hu, hsource, hrival⟩
    exact h u.source ⟨t, ht, u, hu, hsource, rfl, hrival⟩
  · rintro h s ⟨t, ht, u, hu, hsource, hsource', hrival⟩
    exact h ⟨t, ht, u, hu, hsource.trans hsource'.symm, hrival⟩

/-- If each state has one such transition at most, the ambiguous moves have one target for each state. -/
theorem target_eq_of_oneAmbiguousFrom (h : ∀ s, d.OneAmbiguousFrom shell s) :
    ∀ m ∈ d.ambiguousMoves shell, ∀ m' ∈ d.ambiguousMoves shell, m.1 = m'.1 → m.2 = m'.2 := by
  intro m hm m' hm' hsource
  obtain ⟨t, ht, rfl⟩ := List.mem_map.mp hm
  obtain ⟨u, hu, rfl⟩ := List.mem_map.mp hm'
  obtain ⟨ht, htambiguous⟩ := List.mem_filter.mp ht
  obtain ⟨hu, huambiguous⟩ := List.mem_filter.mp hu
  rw [h u.source t ht u hu hsource rfl htambiguous huambiguous]

end Automaton

namespace Positions

variable (p : Positions Input) (shell : Shell)

/-- Whether two positions have different inputs that are both ambiguous, and others behind them. -/
def Rivals (n m : ℕ) : Prop :=
  ∃ a ∈ p.symbols[n]?, ∃ b ∈ p.symbols[m]?, a ≠ b ∧ a.isAmbiguous shell = true ∧
    b.isAmbiguous shell = true ∧ (p.follow n).isEmpty = false ∧ (p.follow m).isEmpty = false

/-- Whether the check looks at a set with two rivals, of which one was visited before. -/
def SkipsRival : Prop :=
  ∃ l ∈ p.allLooks, ∃ n ∈ l.set, ∃ m ∈ l.set, n ∈ l.visited ∧ p.Rivals shell n m

/-- Whether rivals stand behind two positions that are read alike from a discovered set. -/
def JoinsRivals : Prop :=
  ∃ S, p.Discovered S ∧ ∃ n ∈ S, ∃ m ∈ S, n ≠ m ∧ p.symbols[n]? = p.symbols[m]? ∧
    ∃ n' ∈ p.follow n, ∃ m' ∈ p.follow m, p.Rivals shell n' m'

variable {p shell}

instance (n m : ℕ) : Decidable (p.Rivals shell n m) :=
  inferInstanceAs (Decidable (∃ a ∈ p.symbols[n]?, ∃ b ∈ p.symbols[m]?, _))

/-- Rivals are ambiguous inputs in conflict. -/
theorem rivals_iff {n m : ℕ} :
    p.Rivals shell n m ↔ p.Conflicting (Input.Rival shell) n m := by
  simp only [Rivals, Conflicting, Input.Rival, and_assoc]

/-- The state of a discovered set has one ambiguous transition at most exactly if there are no rivals in
the set. -/
theorem Represents.oneAmbiguousFrom_iff {number : NatSet → ℕ} {d : Automaton Input}
    (h : p.Represents number d) {S : NatSet} (hS : p.Discovered S) :
    d.OneAmbiguousFrom shell (number S) ↔ ∀ n ∈ S, ∀ m ∈ S, ¬ p.Rivals shell n m := by
  rw [Automaton.oneAmbiguousFrom_iff, h.conflict_iff hS]
  simp only [rivals_iff, not_exists, not_and]

/-- All states have one ambiguous transition at most exactly if no discovered set has rivals in it. -/
theorem Represents.forall_oneAmbiguousFrom_iff {number : NatSet → ℕ} {d : Automaton Input}
    (h : p.Represents number d) :
    (∀ s, d.OneAmbiguousFrom shell s) ↔
      ¬ ∃ S, p.Discovered S ∧ ∃ n ∈ S, ∃ m ∈ S, p.Rivals shell n m := by
  simp only [Automaton.forall_oneAmbiguousFrom_iff, h.hasConflict_iff, rivals_iff]

/-! ### What the check sees -/

/-- Inputs pass exactly if no two of them are ambiguous. -/
theorem refuseTwoAmbiguous_eq_ok_iff {inputs : List Input} :
    refuseTwoAmbiguous shell inputs = .ok () ↔
      inputs.Pairwise fun a b => ¬ (a.isAmbiguous shell = true ∧ b.isAmbiguous shell = true) := by
  induction inputs with
  | nil => simp [refuseTwoAmbiguous]
  | cons input inputs ih =>
    rw [refuseTwoAmbiguous, List.pairwise_cons]
    cases hambiguous : input.isAmbiguous shell with
    | false => simpa using ih
    | true =>
      rw [if_pos rfl]
      cases hfind : inputs.find? (·.isAmbiguous shell) with
      | some other =>
        have hother := List.find?_some hfind
        have hmem := List.mem_of_find?_eq_some hfind
        refine iff_of_false (fun h => by cases h) fun h => h.1 other hmem ⟨rfl, hother⟩
      | none =>
        have hnone : ∀ other ∈ inputs, ¬ other.isAmbiguous shell = true := by
          simpa using List.find?_eq_none.mp hfind
        refine iff_of_true rfl ⟨fun other hother h => hnone other hother h.2, ?_⟩
        exact List.pairwise_of_forall_mem_list fun a ha b _ h => hnone a ha h.1

/-- Whether an ambiguous input stands at a position. -/
def AmbiguousAt (p : Positions Input) (shell : Shell) (n : ℕ) : Prop :=
  ∃ a ∈ p.symbols[n]?, a.isAmbiguous shell = true

instance : Std.Symm fun n m => ¬ (p.AmbiguousAt shell n ∧ p.AmbiguousAt shell m) :=
  ⟨fun _ _ h h' => h h'.symm⟩

/-- Positions pass exactly if no two of them are ambiguous. -/
theorem refuseTwoAmbiguous_inputsAt_eq_ok_iff {ns : List ℕ} :
    refuseTwoAmbiguous shell (p.inputsAt ns) = .ok () ↔
      ns.Pairwise fun n m => ¬ (p.AmbiguousAt shell n ∧ p.AmbiguousAt shell m) := by
  rw [refuseTwoAmbiguous_eq_ok_iff, inputsAt, List.pairwise_filterMap]
  refine List.Pairwise.iff fun n m => ⟨?_, fun h a ha b hb hab => h ⟨⟨a, ha, hab.1⟩, b, hb, hab.2⟩⟩
  rintro h ⟨⟨a, ha, hambiguous⟩, b, hb, hambiguous'⟩
  exact h a ha b hb ⟨hambiguous, hambiguous'⟩

/-- The check on words passes exactly if each of its looks meets one ambiguous input at most. -/
theorem checkWords_eq_ok_iff : p.checkWords shell = .ok () ↔
    ∀ l ∈ p.allLooks, refuseTwoAmbiguous shell (p.inputsAt l.fresh) = .ok () :=
  walkAll_eq_ok_iff rfl

/-- If the check passes, no look meets rivals. -/
theorem not_rivals_of_checkWords (h : p.checkWords shell = .ok ()) :
    ∀ l ∈ p.allLooks, ∀ n ∈ l.fresh, ∀ m ∈ l.fresh, ¬ p.Conflicting (Input.Rival shell) n m := by
  rintro l hl n hn m hm ⟨a, ha, b, hb, ⟨hne, hambiguous, hambiguous'⟩, -⟩
  have hnm : n ≠ m := by
    rintro rfl
    exact hne (Option.mem_unique ha hb)
  have hpairs := (refuseTwoAmbiguous_inputsAt_eq_ok_iff.mp (checkWords_eq_ok_iff.mp h l hl)).forall
    hn hm hnm
  exact hpairs ⟨⟨a, ha, hambiguous⟩, b, hb, hambiguous'⟩

section

variable (hstop : ∀ n, (p.follow n).isEmpty = false → n < p.stop)
  (hcheck : p.checkWords shell = .ok ())

include hstop hcheck

/-- If the check passes, there are no rivals among the first positions. -/
theorem not_rivals_first {n m : ℕ} (hn : n ∈ p.first) (hm : m ∈ p.first) :
    ¬ p.Rivals shell n m := by
  rw [rivals_iff]
  exact not_conflicting_first hstop (not_rivals_of_checkWords hcheck) hn hm

/-- If the check passes, rivals in a discovered set are skipped by the check or joined by reading. -/
theorem rivals_iff_of_checkWords : (∃ S, p.Discovered S ∧ ∃ n ∈ S, ∃ m ∈ S, p.Rivals shell n m) ↔
    p.SkipsRival shell ∨ p.JoinsRivals shell := by
  simp only [SkipsRival, JoinsRivals, rivals_iff]
  exact conflicting_iff_of_looks (fun _ _ => Input.Rival.symm) hstop (not_rivals_of_checkWords hcheck)

end

end Positions

/-- If the check on the words of a pattern passes, each state of its automaton has one ambiguous
transition at most exactly if the check skips no rival and reading joins none. The start has one at most
in any case. -/
theorem Pattern.oneAmbiguous_iff_of_checkWords {q : Pattern Input} {shell : Shell}
    (hlimit : {S | q.positions.Discovered S}.encard ≤ Positions.stateLimit)
    (hcheck : q.positions.checkWords shell = .ok ()) :
    ∃ d, q.positions.automaton = .ok d ∧
      ((∀ s, d.OneAmbiguousFrom shell s) ↔
        ¬ q.positions.SkipsRival shell ∧ ¬ q.positions.JoinsRivals shell) ∧
      ((∀ s, d.OneAmbiguousFrom shell s) →
        ∀ m ∈ d.ambiguousMoves shell, ∀ m' ∈ d.ambiguousMoves shell, m.1 = m'.1 → m.2 = m'.2) ∧
      d.OneAmbiguousFrom shell d.start := by
  obtain ⟨-, d, number, hd, hrep⟩ | ⟨hlt, -⟩ := q.positions.automaton_cases
  · refine ⟨d, hd, ?_, Automaton.target_eq_of_oneAmbiguousFrom, ?_⟩
    · rw [hrep.forall_oneAmbiguousFrom_iff, ← not_or,
        Positions.rivals_iff_of_checkWords q.lt_stop_of_follow hcheck]
    · rw [hrep.start, hrep.oneAmbiguousFrom_iff .first]
      exact fun n hn m hm => Positions.not_rivals_first q.lt_stop_of_follow hcheck hn hm
  · exact absurd hlimit (not_le_of_gt hlt)

namespace Expr

/-- Commands that never stand beside each other: `[x] {{{ a }}} (y | {{{ b }}})`. -/
def separateCommands : Expr :=
  .sequence [.optional (.literal "x" none 0 none), .command "a" none 0 none,
    .alternative [.literal "y" none 0 none, .command "b" none 0 none]]

/-- The pattern of that expression. -/
def separatePattern : Pattern Input :=
  .sequence [.optional (.symbol (.literal "x" none 0 none)), .symbol (.command "a" none 0 none),
    .alternative [.symbol (.literal "y" none 0 none), .symbol (.command "b" none 0 none)]]

/-- It passes, and no state has two ambiguous inputs. -/
theorem oneAmbiguous_separateCommands :
    separateCommands.toPattern (fun _ => .ok ()) .empty {} = .ok ({}, separatePattern) ∧
      separatePattern.positions.checkWords .bash = .ok () ∧
      ∃ d, separatePattern.positions.automaton = .ok d ∧ ∀ s, d.OneAmbiguousFrom .bash s := by
  have hcheck : separatePattern.positions.checkWords .bash = .ok () := by decide +kernel
  obtain ⟨d, hd, hiff, -⟩ := Pattern.oneAmbiguous_iff_of_checkWords
    (Positions.encard_discovered_le (by decide +kernel)) hcheck
  refine ⟨rfl, hcheck, d, hd, hiff.mpr ⟨?_, ?_⟩⟩
  · have hlooks : ∀ l ∈ separatePattern.positions.allLooks, ∀ n ∈ l.set.toList,
        ∀ m ∈ l.set.toList, ¬ separatePattern.positions.Rivals .bash n m := by decide +kernel
    rintro ⟨l, hl, n, hn, m, hm, -, hrivals⟩
    exact hlooks l hl n ((NatSet.mem_toList _ n).mpr hn) m ((NatSet.mem_toList _ m).mpr hm) hrivals
  · have hsymbols : ∀ n < 4, ∀ m < 4,
        separatePattern.positions.symbols[n]? = separatePattern.positions.symbols[m]? → n = m := by
      decide +kernel
    rintro ⟨S, -, n, -, m, -, hne, hsame, n', hn', m', hm', -⟩
    have hlive := (NatSet.isEmpty_eq_false_iff _).mpr ⟨n', hn'⟩
    have hlive' := (NatSet.isEmpty_eq_false_iff _).mpr ⟨m', hm'⟩
    exact hne (hsymbols n (separatePattern.lt_stop_of_follow n hlive) m
      (separatePattern.lt_stop_of_follow m hlive') hsame)

/-- Commands of which one may stand beside the other: `(z | x [{{{ a }}}]) {{{ b }}}`. -/
def neighbourCommands : Expr :=
  .sequence [.alternative [.literal "z" none 0 none,
    .sequence [.literal "x" none 0 none, .optional (.command "a" none 0 none)]],
    .command "b" none 0 none]

/-- The pattern of that expression. -/
def neighbourPattern : Pattern Input :=
  .sequence [.alternative [.symbol (.literal "z" none 0 none),
    .sequence [.symbol (.literal "x" none 0 none), .optional (.symbol (.command "a" none 0 none))]],
    .symbol (.command "b" none 0 none)]

/-- Behind the first literal the second command is visited, so it is skipped behind the other one. -/
theorem oneAmbiguous_neighbourCommands :
    neighbourCommands.toPattern (fun _ => .ok ()) .empty {} = .ok ({}, neighbourPattern) ∧
      neighbourPattern.positions.checkWords .bash = .ok () ∧
      ∃ d, neighbourPattern.positions.automaton = .ok d ∧ ¬ ∀ s, d.OneAmbiguousFrom .bash s := by
  refine ⟨rfl, by decide +kernel, ?_⟩
  have hstate : ∀ d, neighbourPattern.positions.automaton = .ok d →
      ¬ d.OneAmbiguousFrom .bash 3 := by
    intro d hd hone
    have hrun : (neighbourPattern.positions.automaton.toOption.all
        fun d => !decide (d.OneAmbiguousFrom .bash 3)) = true := by decide +kernel
    rw [hd] at hrun
    simp [Except.toOption, hone] at hrun
  cases hd : neighbourPattern.positions.automaton with
  | ok d => exact ⟨d, rfl, fun hone => hstate d hd (hone 3)⟩
  | error e =>
    have hok : neighbourPattern.positions.automaton.isOk = true := by decide +kernel
    rw [hd] at hok
    cases hok

end Expr

end ShellCompletion
