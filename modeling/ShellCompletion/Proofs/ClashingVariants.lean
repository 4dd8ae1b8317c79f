import Mathlib.Data.List.Chain
import Mathlib.Data.List.Pairwise
import Mathlib.Data.String.Basic
import ShellCompletion.Grammar.Compilation
import ShellCompletion.Proofs.Conflicts

/-!
# Literals with two descriptions

The check on descriptions is meant to leave no state of the automaton with transitions on two literals
that have the same text and different descriptions. One look of it sorts the literals by their texts
and compares neighbours, which is as good as comparing all of them. But like every check that walks
over positions, it passes by a literal that it has visited before, and does not see those together that
stand behind different positions which are read alike. Apart from these two cases it holds what it
promises.
-/

namespace ShellCompletion

/-- Whether two inputs are literals with the same text and different descriptions. -/
def Input.clashes : Input → Input → Bool
  | .literal text description _ _, .literal text' description' _ _ =>
    text = text' && description ≠ description'
  | _, _ => false

theorem Input.clashes_comm (a b : Input) : a.clashes b = b.clashes a := by
  cases a <;> cases b <;> simp [clashes, eq_comm]

/-- Whether two inputs clash, as a relation. -/
abbrev Input.Clash (a b : Input) : Prop := a.clashes b = true

theorem Input.Clash.symm {a b : Input} (h : a.Clash b) : b.Clash a := (b.clashes_comm a).trans h

namespace Positions

/-! ### One look -/

/-- Whether two literals have the same description if they have the same text. -/
def Variant.Agrees (v w : Variant) : Prop := v.text = w.text → v.description = w.description

instance : Std.Symm Variant.Agrees := ⟨fun _ _ h htext => (h htext.symm).symm⟩

/-- No clash is found exactly if all neighbours agree. -/
theorem refuseClash_eq_ok_iff (vs : List Variant) :
    refuseClash vs = .ok () ↔ vs.IsChain Variant.Agrees := by
  induction vs with
  | nil => simp [refuseClash]
  | cons v vs ih =>
    cases vs with
    | nil => simp [refuseClash]
    | cons w vs =>
      rw [refuseClash, List.isChain_cons_cons, ← ih]
      split
      · next hclash => exact iff_of_false (by simp [reject]) fun h => hclash.2 (h.1 hclash.1)
      · next hclash =>
        rw [not_and_not_right] at hclash
        exact (and_iff_right hclash).symm

/-- Dropping repeats keeps the first literal. -/
theorem exists_dropRepeats (v : Variant) (vs : List Variant) :
    ∃ ws, dropRepeats (v :: vs) = v :: ws := by
  rw [dropRepeats]
  split
  · exact ⟨_, rfl⟩
  · split
    · exact ⟨_, rfl⟩
    · exact ⟨_, rfl⟩

/-- Neighbours agree exactly if they do after repeats are dropped. -/
theorem isChain_dropRepeats (vs : List Variant) :
    (dropRepeats vs).IsChain Variant.Agrees ↔ vs.IsChain Variant.Agrees := by
  induction vs with
  | nil => simp [dropRepeats]
  | cons v vs ih =>
    cases vs with
    | nil => simp [dropRepeats]
    | cons w vs =>
      obtain ⟨ws, hws⟩ := exists_dropRepeats w vs
      rw [List.isChain_cons_cons, ← ih, dropRepeats, hws]
      dsimp only
      split
      · next hsame =>
        have hagrees : v.Agrees w := fun _ => hsame.2
        rw [and_iff_right hagrees]
        -- the two are alike, so what comes behind agrees with both or with neither
        cases ws with
        | nil => simp
        | cons x ws =>
          rw [List.isChain_cons_cons, List.isChain_cons_cons, Variant.Agrees, Variant.Agrees,
            hsame.1, hsame.2]
      · exact List.isChain_cons_cons

/-- In order of their texts, all literals agree exactly if neighbours do. -/
theorem pairwise_agrees_iff {vs : List Variant} (h : vs.Pairwise fun v w => v.text ≤ w.text) :
    vs.Pairwise Variant.Agrees ↔ vs.IsChain Variant.Agrees := by
  refine ⟨List.Pairwise.isChain, fun hchain => ?_⟩
  induction vs with
  | nil => exact .nil
  | cons v vs ih =>
    rw [List.pairwise_cons] at h
    have hvs := ih h.2 hchain.tail
    refine .cons (fun x hx htext => ?_) hvs
    cases vs with
    | nil => simp at hx
    | cons w vs =>
      -- a literal with the same text has the neighbour's text too
      have hvw : v.text = w.text := by
        refine le_antisymm (h.1 w (by simp)) (htext ▸ ?_)
        rcases List.mem_cons.mp hx with rfl | hx
        · exact le_refl _
        · exact List.rel_of_pairwise_cons h.2 hx
      have hfirst : v.description = w.description := (List.isChain_cons_cons.mp hchain).1 hvw
      rcases List.mem_cons.mp hx with rfl | hx
      · exact hfirst
      · exact hfirst.trans (List.rel_of_pairwise_cons hvs hx (hvw.symm.trans htext))

/-- Variants are sorted by their texts. -/
theorem pairwise_mergeSort_text (vs : List Variant) :
    (vs.mergeSort fun v w => v.text ≤ w.text).Pairwise fun v w => v.text ≤ w.text := by
  have htrans : ∀ u v w : Variant, decide (u.text ≤ v.text) = true →
      decide (v.text ≤ w.text) = true → decide (u.text ≤ w.text) = true := by
    intro u v w
    simpa using le_trans
  have htotal : ∀ v w : Variant, (decide (v.text ≤ w.text) || decide (w.text ≤ v.text)) = true := by
    intro v w
    simpa using le_total v.text w.text
  simpa using List.pairwise_mergeSort htrans htotal vs

/-- Sorted literals pass exactly if all of them that have the same text have the same description. -/
theorem refuseClash_mergeSort_eq_ok_iff (vs : List Variant) :
    refuseClash (dropRepeats (vs.mergeSort fun v w => v.text ≤ w.text)) = .ok () ↔
      ∀ v ∈ vs, ∀ w ∈ vs, v.Agrees w := by
  rw [refuseClash_eq_ok_iff, isChain_dropRepeats,
    ← pairwise_agrees_iff (pairwise_mergeSort_text vs)]
  constructor
  · intro h v hv w hw
    exact h.forall_of_forall (fun _ _ _ => rfl) (List.mem_mergeSort.mpr hv)
      (List.mem_mergeSort.mpr hw)
  · intro h
    refine List.pairwise_of_forall_mem_list fun v hv w hw => ?_
    exact h v (List.mem_mergeSort.mp hv) w (List.mem_mergeSort.mp hw)

/-! ### The whole check -/

variable {p : Positions Input}

/-- The variants at some positions are the literals there. -/
theorem mem_variants_inputsAt {v : Variant} {ns : List ℕ} : v ∈ variants (p.inputsAt ns) ↔
    ∃ n ∈ ns, ∃ level, p.symbols[n]? = some (.literal v.text v.description level v.span) := by
  simp only [variants, inputsAt, List.mem_filterMap]
  constructor
  · rintro ⟨a, ⟨n, hn, ha⟩, hv⟩
    split at hv
    · cases hv
      exact ⟨n, hn, _, ha⟩
    · cases hv
  · rintro ⟨n, hn, level, ha⟩
    exact ⟨_, ⟨n, hn, ha⟩, rfl⟩

/-- A look passes exactly if it meets no two literals that clash. -/
theorem refuseClash_inputsAt_eq_ok_iff {ns : List ℕ} :
    refuseClash (dropRepeats ((variants (p.inputsAt ns)).mergeSort fun v w => v.text ≤ w.text)) =
        .ok () ↔
      ∀ n ∈ ns, ∀ m ∈ ns, ∀ a ∈ p.symbols[n]?, ∀ b ∈ p.symbols[m]?, a.clashes b = false := by
  simp only [refuseClash_mergeSort_eq_ok_iff, mem_variants_inputsAt]
  constructor
  · intro h n hn m hm a ha b hb
    unfold Input.clashes
    split
    · next text description level span text' description' level' span' =>
      have hagrees := h ⟨text, description, span⟩ ⟨n, hn, level, ha⟩
        ⟨text', description', span'⟩ ⟨m, hm, level', hb⟩
      simpa [Variant.Agrees] using hagrees
    · rfl
  · rintro h v ⟨n, hn, level, hv⟩ w ⟨m, hm, level', hw⟩ htext
    simpa [Input.clashes, htext] using h n hn m hm _ hv _ hw

/-- The check on descriptions passes exactly if no look meets two literals that clash. -/
theorem checkVariants_eq_ok_iff : p.checkVariants = .ok () ↔
    ∀ l ∈ p.allLooks, ∀ n ∈ l.fresh, ∀ m ∈ l.fresh,
      ∀ a ∈ p.symbols[n]?, ∀ b ∈ p.symbols[m]?, a.clashes b = false := by
  rw [checkVariants]
  refine (walkAll_eq_ok_iff ?_).trans ?_
  · exact refuseClash_inputsAt_eq_ok_iff.mpr (by simp)
  · simp only [refuseClash_inputsAt_eq_ok_iff]

/-- If no literal has two descriptions, none is offered with two descriptions. -/
theorem checkVariants_eq_ok (h : ∀ v ∈ variants p.symbols.toList, ∀ w ∈ variants p.symbols.toList,
    v.text = w.text → v.description = w.description) : p.checkVariants = .ok () := by
  refine checkVariants_eq_ok_iff.mpr fun l _ n _ m _ a ha b hb => ?_
  have hmem : ∀ {n a}, a ∈ p.symbols[n]? → a ∈ p.symbols.toList := fun ha =>
    Array.mem_toList_iff.mpr (Array.mem_of_getElem? ha)
  unfold Input.clashes
  split
  · next text description level span text' description' level' span' =>
    have hagree := h ⟨text, description, span⟩ (List.mem_filterMap.mpr ⟨_, hmem ha, rfl⟩)
      ⟨text', description', span'⟩ (List.mem_filterMap.mpr ⟨_, hmem hb, rfl⟩)
    simpa using hagree
  · rfl

/-- A subword passes if it passes the check for ambiguity and its literals with one text have one
description. -/
theorem checkSubwordFor_eq_ok {shell : Shell} (hsubword : p.checkSubword shell = .ok ())
    (h : ∀ v ∈ variants p.symbols.toList, ∀ w ∈ variants p.symbols.toList,
      v.text = w.text → v.description = w.description) : p.checkSubwordFor shell = .ok () := by
  rw [checkSubwordFor, hsubword, Result.ok_bind]
  exact checkVariants_eq_ok h

/-- If the check passes, no look meets positions that clash. -/
theorem not_clashing_of_checkVariants (h : p.checkVariants = .ok ()) :
    ∀ l ∈ p.allLooks, ∀ n ∈ l.fresh, ∀ m ∈ l.fresh,
      ¬ p.Conflicting Input.Clash n m := by
  rintro l hl n hn m hm ⟨a, ha, b, hb, hclash, -⟩
  have hagree := checkVariants_eq_ok_iff.mp h l hl n hn m hm a ha b hb
  exact Bool.false_ne_true (hagree.symm.trans hclash)

end Positions

/-- If the check on the descriptions of a pattern passes, no state of its automaton has transitions on
two literals with the same text and different descriptions exactly if the check skips none of them and
reading joins none. The start has none in any case. -/
theorem Pattern.not_clashing_iff_of_checkVariants {q : Pattern Input} {d : Automaton Input}
    (hcheck : q.positions.checkVariants = .ok ()) (hd : q.positions.automaton = .ok d) :
    (¬ d.HasConflict Input.Clash ↔
        ¬ q.positions.SkipsConflict Input.Clash ∧ ¬ q.positions.JoinsConflict Input.Clash) ∧
      ¬ ∃ t ∈ d.transitions, ∃ u ∈ d.transitions, t.source = d.start ∧ u.source = d.start ∧
        t.symbol.Clash u.symbol := by
  obtain ⟨number, hrep⟩ := q.positions.exists_represents hd
  have hlooks := Positions.not_clashing_of_checkVariants hcheck
  constructor
  · rw [hrep.hasConflict_iff, ← not_or, Positions.conflicting_iff_of_looks
      (fun _ _ => Input.Clash.symm) q.lt_stop_of_follow hlooks]
  · rw [hrep.start, hrep.conflict_iff .first]
    rintro ⟨n, hn, m, hm, h⟩
    exact Positions.not_conflicting_first q.lt_stop_of_follow hlooks hn hm h

namespace Expr

/-- A literal that has a description in front and none at the end: `(foo "x" | bar) foo`. -/
def describedFirst : Expr :=
  .sequence [.alternative [.literal "foo" (some "x") 0 none, .literal "bar" none 0 none],
    .literal "foo" none 0 none]

/-- The pattern of that expression. -/
def describedPattern : Pattern Input :=
  .sequence [.alternative [.symbol (.literal "foo" (some "x") 0 none),
    .symbol (.literal "bar" none 0 none)], .symbol (.literal "foo" none 0 none)]

/-- It passes the check and has no clash. -/
theorem not_clashing_describedFirst :
    describedFirst.toPattern (fun _ => .ok ()) .empty {} = .ok ({}, describedPattern) ∧
      describedPattern.positions.checkVariants = .ok () ∧
      ∃ d, describedPattern.positions.automaton = .ok d ∧
        ¬ d.HasConflict Input.Clash := by
  have hcheck : describedPattern.positions.checkVariants = .ok () := by
    rw [Positions.checkVariants_eq_ok_iff]
    decide +kernel
  obtain ⟨d, hd, -⟩ : ∃ d, describedPattern.positions.automaton = .ok d ∧ True := by decide +kernel
  refine ⟨rfl, hcheck, d, hd, (Pattern.not_clashing_iff_of_checkVariants hcheck hd).1.mpr ⟨?_, ?_⟩⟩
  · decide +kernel
  · exact Positions.not_joinsConflict describedPattern.lt_stop_of_follow (by decide +kernel)

/-- A literal with a description that is repeated, and then stands without one: `(foo "x")... foo`. -/
def repeatedThenPlain : Expr :=
  .sequence [.repeated (.literal "foo" (some "x") 0 none), .literal "foo" none 0 none]

/-- The pattern of that expression. -/
def repeatedPattern : Pattern Input :=
  .sequence [.repeated (.symbol (.literal "foo" (some "x") 0 none)),
    .symbol (.literal "foo" none 0 none)]

/-- Behind the literal with the description, that literal is visited, so the other one is looked at
alone. -/
theorem clashing_repeatedThenPlain :
    repeatedThenPlain.toPattern (fun _ => .ok ()) .empty {} = .ok ({}, repeatedPattern) ∧
      repeatedPattern.positions.checkVariants = .ok () ∧
      ∃ d, repeatedPattern.positions.automaton = .ok d ∧ d.HasConflict Input.Clash := by
  refine ⟨rfl, ?_, ?_⟩
  · rw [Positions.checkVariants_eq_ok_iff]
    decide +kernel
  · decide +kernel

end Expr

end ShellCompletion
