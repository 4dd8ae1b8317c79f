import ShellCompletion.Grammar.Compilation
import ShellCompletion.Proofs.Interning
import ShellCompletion.Proofs.PatternAutomaton
import ShellCompletion.Proofs.Results

/-!
# The words of an expression

An expression describes words over inputs: a leaf is the word of its own input, where a subword is known
by the number of its automaton, and the other expressions combine words as patterns do. The pattern of
an expression has the words of the expression. Numbers that were given once stay valid while further
subwords are compiled.
-/

namespace ShellCompletion

open scoped Computability

namespace Interner

/-- The number of the subword with the given body. -/
def number? (check : Positions Input → Result Unit) (specializations : Specializations)
    (subwords : Interner Input) (body : Expr) : Option ℕ :=
  match body.toPattern check specializations subwords with
  | .error _ => none
  | .ok (subwords, pattern) =>
    match pattern.minimalAutomaton with
    | .error _ => none
    | .ok a => some (subwords.intern a).2

end Interner

namespace Expr

section Language

variable (specializations : Specializations) (number? : Expr → Option ℕ)

mutual

/-- The words over inputs that an expression describes, if subwords are numbered in the given way. -/
def language : Expr → Language Input
  | .literal text description level span => {[.literal text description level span]}
  | .reference name level span => {[.reference name (specializations.get? name) level span]}
  | .command text patterns level span => {[.command text patterns level span]}
  | .sequence items => languageOfSequence items
  | .alternative branches => languageOfChoice branches
  | .fallback branches => languageOfChoice branches
  | .optional item => 1 + language item
  | .repeated item => language item * (language item)∗
  | .described item _ => language item
  | .subword body level span => {word | ∃ id, number? body = some id ∧ word = [.subword id level span]}

/-- The concatenations of words of the items. -/
def languageOfSequence : List Expr → Language Input
  | [] => 1
  | e :: es => language e * languageOfSequence es

/-- The words of the branches. -/
def languageOfChoice : List Expr → Language Input
  | [] => 0
  | e :: es => language e + languageOfChoice es

end

end Language

mutual

/-- Whether no sequence and no choice outside of subwords is without items. -/
def Full : Expr → Prop
  | .literal .. => True
  | .reference .. => True
  | .command .. => True
  | .sequence items => items ≠ [] ∧ FullAll items
  | .alternative branches => branches ≠ [] ∧ FullAll branches
  | .fallback branches => branches ≠ [] ∧ FullAll branches
  | .optional item => item.Full
  | .repeated item => item.Full
  | .described item _ => item.Full
  | .subword .. => True

/-- Whether each expression of a list is full. -/
def FullAll : List Expr → Prop
  | [] => True
  | e :: es => e.Full ∧ FullAll es

end

section Compilation

variable {check : Positions Input → Result Unit} {specializations : Specializations}
  {s t : Interner Input}

/-- The steps in which a subword is compiled. -/
theorem toPattern_subword {body : Expr} {level : ℕ} {span : Option Span} {p : Pattern Input}
    (h : (Expr.subword body level span).toPattern check specializations s = .ok (t, p)) :
    ∃ u q a, body.toPattern check specializations s = .ok (u, q) ∧ check q.positions = .ok () ∧
      q.minimalAutomaton = .ok a ∧ t = (u.intern a).1 ∧
      p = .symbol (.subword (u.intern a).2 level span) := by
  rw [toPattern] at h
  obtain ⟨⟨u, q⟩, hbody, h⟩ := Result.bind_eq_ok.mp h
  obtain ⟨⟨⟩, hcheck, h⟩ := Result.bind_eq_ok.mp h
  obtain ⟨a, ha, h⟩ := Result.bind_eq_ok.mp h
  cases h
  exact ⟨u, q, a, hbody, hcheck, ha, rfl, rfl⟩

/-- The steps in which a list of expressions is compiled. -/
theorem toPatterns_cons {e : Expr} {es : List Expr} {ps : List (Pattern Input)}
    (h : toPatterns check specializations s (e :: es) = .ok (t, ps)) :
    ∃ u p qs, e.toPattern check specializations s = .ok (u, p) ∧
      toPatterns check specializations u es = .ok (t, qs) ∧ ps = p :: qs := by
  rw [toPatterns] at h
  obtain ⟨⟨u, p⟩, he, h⟩ := Result.bind_eq_ok.mp h
  obtain ⟨⟨v, qs⟩, hes, h⟩ := Result.bind_eq_ok.mp h
  cases h
  exact ⟨u, p, qs, he, hes, rfl⟩

/-- The steps in which a sequence is compiled. -/
theorem toPattern_sequence {items : List Expr} {p : Pattern Input}
    (h : (Expr.sequence items).toPattern check specializations s = .ok (t, p)) :
    items ≠ [] ∧ ∃ ps, toPatterns check specializations s items = .ok (t, ps) ∧ p = .sequence ps := by
  cases items with
  | nil => cases h
  | cons e es =>
    refine ⟨List.cons_ne_nil e es, ?_⟩
    rw [toPattern] at h
    obtain ⟨⟨u, ps⟩, hitems, h⟩ := Result.bind_eq_ok.mp h
    cases h
    exact ⟨ps, hitems, rfl⟩

/-- The steps in which an alternative is compiled. -/
theorem toPattern_alternative {branches : List Expr} {p : Pattern Input}
    (h : (Expr.alternative branches).toPattern check specializations s = .ok (t, p)) :
    ∃ ps, toPatterns check specializations s branches = .ok (t, ps) ∧ p = .alternative ps := by
  rw [toPattern] at h
  obtain ⟨⟨u, ps⟩, hbranches, h⟩ := Result.bind_eq_ok.mp h
  cases h
  exact ⟨ps, hbranches, rfl⟩

/-- The steps in which a fallback is compiled. -/
theorem toPattern_fallback {branches : List Expr} {p : Pattern Input}
    (h : (Expr.fallback branches).toPattern check specializations s = .ok (t, p)) :
    ∃ ps, toPatterns check specializations s branches = .ok (t, ps) ∧ p = .fallback ps := by
  rw [toPattern] at h
  obtain ⟨⟨u, ps⟩, hbranches, h⟩ := Result.bind_eq_ok.mp h
  cases h
  exact ⟨ps, hbranches, rfl⟩

/-- The steps in which an optional item is compiled. -/
theorem toPattern_optional {item : Expr} {p : Pattern Input}
    (h : (Expr.optional item).toPattern check specializations s = .ok (t, p)) :
    ∃ q, item.toPattern check specializations s = .ok (t, q) ∧ p = .optional q := by
  rw [toPattern] at h
  obtain ⟨⟨u, q⟩, hitem, h⟩ := Result.bind_eq_ok.mp h
  cases h
  exact ⟨q, hitem, rfl⟩

/-- The steps in which a repeated item is compiled. -/
theorem toPattern_repeated {item : Expr} {p : Pattern Input}
    (h : (Expr.repeated item).toPattern check specializations s = .ok (t, p)) :
    ∃ q, item.toPattern check specializations s = .ok (t, q) ∧ p = .repeated q := by
  rw [toPattern] at h
  obtain ⟨⟨u, q⟩, hitem, h⟩ := Result.bind_eq_ok.mp h
  cases h
  exact ⟨q, hitem, rfl⟩

mutual

/-- Compilation keeps the numbers that were given before. -/
theorem toPattern_extends {s t : Interner Input} : {e : Expr} → {p : Pattern Input} →
    e.toPattern check specializations s = .ok (t, p) → t.Extends s
  | .literal .., _, h => by cases h; exact .refl s
  | .reference .., _, h => by cases h; exact .refl s
  | .command .., _, h => by cases h; exact .refl s
  | .sequence _, _, h => by
    obtain ⟨-, ps, hps, -⟩ := toPattern_sequence h
    exact toPatterns_extends hps
  | .alternative _, _, h => by
    obtain ⟨ps, hps, -⟩ := toPattern_alternative h
    exact toPatterns_extends hps
  | .fallback _, _, h => by
    obtain ⟨ps, hps, -⟩ := toPattern_fallback h
    exact toPatterns_extends hps
  | .optional _, _, h => by
    obtain ⟨q, hq, -⟩ := toPattern_optional h
    exact toPattern_extends hq
  | .repeated _, _, h => by
    obtain ⟨q, hq, -⟩ := toPattern_repeated h
    exact toPattern_extends hq
  | .described .., _, h => by cases h
  | .subword .., _, h => by
    obtain ⟨u, q, a, hbody, -, -, rfl, -⟩ := toPattern_subword h
    exact (u.intern_extends a).trans (toPattern_extends hbody)

/-- Compiling a list only adds automata. -/
theorem toPatterns_extends {s t : Interner Input} : {es : List Expr} → {ps : List (Pattern Input)} →
    toPatterns check specializations s es = .ok (t, ps) → t.Extends s
  | [], _, h => by cases h; exact .refl s
  | _ :: _, _, h => by
    obtain ⟨u, p, qs, he, hes, -⟩ := toPatterns_cons h
    exact (toPatterns_extends hes).trans (toPattern_extends he)

end

mutual

/-- When all subwords of an expression have numbers, compiling it again changes nothing. -/
theorem toPattern_of_extends {s t v : Interner Input} : {e : Expr} → {p : Pattern Input} →
    e.toPattern check specializations s = .ok (t, p) → v.Extends t →
    e.toPattern check specializations v = .ok (v, p)
  | .literal .., _, h, _ => by cases h; rfl
  | .reference .., _, h, _ => by cases h; rfl
  | .command .., _, h, _ => by cases h; rfl
  | .sequence items, _, h, hv => by
    obtain ⟨hne, ps, hps, rfl⟩ := toPattern_sequence h
    rw [toPattern, toPatterns_of_extends hps hv]
    cases items with
    | nil => exact (hne rfl).elim
    | cons e es => rfl
  | .alternative _, _, h, hv => by
    obtain ⟨ps, hps, rfl⟩ := toPattern_alternative h
    rw [toPattern, toPatterns_of_extends hps hv]
    rfl
  | .fallback _, _, h, hv => by
    obtain ⟨ps, hps, rfl⟩ := toPattern_fallback h
    rw [toPattern, toPatterns_of_extends hps hv]
    rfl
  | .optional _, _, h, hv => by
    obtain ⟨q, hq, rfl⟩ := toPattern_optional h
    rw [toPattern, toPattern_of_extends hq hv]
    rfl
  | .repeated _, _, h, hv => by
    obtain ⟨q, hq, rfl⟩ := toPattern_repeated h
    rw [toPattern, toPattern_of_extends hq hv]
    rfl
  | .described .., _, h, _ => by cases h
  | .subword .., _, h, hv => by
    obtain ⟨u, q, a, hbody, hcheck, ha, rfl, rfl⟩ := toPattern_subword h
    rw [toPattern, toPattern_of_extends hbody (hv.trans (u.intern_extends a)), Result.ok_bind]
    simp only [hcheck, ha, Result.ok_bind, Interner.intern_of_extends hv]
    rfl

/-- Compiling a list again with its automata at hand adds none. -/
theorem toPatterns_of_extends {s t v : Interner Input} : {es : List Expr} →
    {ps : List (Pattern Input)} → toPatterns check specializations s es = .ok (t, ps) →
    v.Extends t → toPatterns check specializations v es = .ok (v, ps)
  | [], _, h, _ => by cases h; rfl
  | _ :: _, _, h, hv => by
    obtain ⟨u, p, qs, he, hes, rfl⟩ := toPatterns_cons h
    rw [toPatterns, toPattern_of_extends he (hv.trans (toPatterns_extends hes)), Result.ok_bind]
    simp only [toPatterns_of_extends hes hv, Result.ok_bind]
    rfl

end

mutual

/-- The pattern of an expression has the words of the expression. -/
theorem language_toPattern {s t v : Interner Input} : {e : Expr} → {p : Pattern Input} →
    e.toPattern check specializations s = .ok (t, p) → v.Extends t →
    p.language = e.language specializations (v.number? check specializations)
  | .literal .., _, h, _ => by cases h; rw [Pattern.language, language]
  | .reference .., _, h, _ => by cases h; rw [Pattern.language, language]
  | .command .., _, h, _ => by cases h; rw [Pattern.language, language]
  | .sequence _, _, h, hv => by
    obtain ⟨-, ps, hps, rfl⟩ := toPattern_sequence h
    rw [Pattern.language, language, (language_toPatterns hps hv).1]
  | .alternative _, _, h, hv => by
    obtain ⟨ps, hps, rfl⟩ := toPattern_alternative h
    rw [Pattern.language, language, (language_toPatterns hps hv).2]
  | .fallback _, _, h, hv => by
    obtain ⟨ps, hps, rfl⟩ := toPattern_fallback h
    rw [Pattern.language, language, (language_toPatterns hps hv).2]
  | .optional _, _, h, hv => by
    obtain ⟨q, hq, rfl⟩ := toPattern_optional h
    rw [Pattern.language, language, language_toPattern hq hv]
  | .repeated _, _, h, hv => by
    obtain ⟨q, hq, rfl⟩ := toPattern_repeated h
    rw [Pattern.language, language, language_toPattern hq hv]
  | .described .., _, h, _ => by cases h
  | .subword .., _, h, hv => by
    obtain ⟨u, q, a, hbody, -, ha, rfl, rfl⟩ := toPattern_subword h
    have hbody := toPattern_of_extends hbody (hv.trans (u.intern_extends a))
    simp only [Pattern.language, language, Interner.number?, hbody, ha,
      Interner.intern_of_extends hv, Option.some.injEq, exists_eq_left']
    rfl

/-- The words of compiled expressions are those of the expressions. -/
theorem language_toPatterns {s t v : Interner Input} : {es : List Expr} →
    {ps : List (Pattern Input)} → toPatterns check specializations s es = .ok (t, ps) →
    v.Extends t →
    Pattern.languageOfSequence ps =
        languageOfSequence specializations (v.number? check specializations) es ∧
      Pattern.languageOfChoice ps =
        languageOfChoice specializations (v.number? check specializations) es
  | [], _, h, _ => by
    cases h
    rw [Pattern.languageOfSequence, Pattern.languageOfChoice, languageOfSequence, languageOfChoice]
    exact ⟨rfl, rfl⟩
  | _ :: _, _, h, hv => by
    obtain ⟨u, p, qs, he, hes, rfl⟩ := toPatterns_cons h
    have hfirst := language_toPattern he (hv.trans (toPatterns_extends hes))
    obtain ⟨hsequence, hchoice⟩ := language_toPatterns hes hv
    rw [Pattern.languageOfSequence, Pattern.languageOfChoice, languageOfSequence, languageOfChoice,
      hfirst, hsequence, hchoice]
    exact ⟨rfl, rfl⟩

end

mutual

/-- The pattern of a full expression is full. -/
theorem full_toPattern {s t : Interner Input} : {e : Expr} → {p : Pattern Input} →
    e.toPattern check specializations s = .ok (t, p) → e.Full → p.Full
  | .literal .., _, h, _ => by cases h; trivial
  | .reference .., _, h, _ => by cases h; trivial
  | .command .., _, h, _ => by cases h; trivial
  | .sequence _, _, h, he => by
    obtain ⟨-, ps, hps, rfl⟩ := toPattern_sequence h
    exact full_toPatterns hps he.1 he.2
  | .alternative _, _, h, he => by
    obtain ⟨ps, hps, rfl⟩ := toPattern_alternative h
    exact full_toPatterns hps he.1 he.2
  | .fallback _, _, h, he => by
    obtain ⟨ps, hps, rfl⟩ := toPattern_fallback h
    exact full_toPatterns hps he.1 he.2
  | .optional _, _, h, he => by
    obtain ⟨q, hq, rfl⟩ := toPattern_optional h
    exact (full_toPattern hq he : q.Full)
  | .repeated _, _, h, he => by
    obtain ⟨q, hq, rfl⟩ := toPattern_repeated h
    exact (full_toPattern hq he : q.Full)
  | .described .., _, h, _ => by cases h
  | .subword .., _, h, _ => by
    obtain ⟨u, q, a, -, -, -, -, rfl⟩ := toPattern_subword h
    trivial

/-- Compiling full expressions gives full patterns. -/
theorem full_toPatterns {s t : Interner Input} : {es : List Expr} → {ps : List (Pattern Input)} →
    toPatterns check specializations s es = .ok (t, ps) → es ≠ [] → FullAll es →
    ps ≠ [] ∧ Pattern.FullAll ps
  | [], _, _, hne, _ => (hne rfl).elim
  | _ :: [], _, h, _, hfull => by
    obtain ⟨u, p, qs, he, hes, rfl⟩ := toPatterns_cons h
    cases hes
    exact ⟨List.cons_ne_nil p [], full_toPattern he hfull.1, trivial⟩
  | _ :: e :: es, _, h, _, hfull => by
    obtain ⟨u, p, qs, he, hes, rfl⟩ := toPatterns_cons h
    exact ⟨List.cons_ne_nil p qs, full_toPattern he hfull.1,
      (full_toPatterns hes (List.cons_ne_nil e es) hfull.2).2⟩

end

/-- The construction is exact: the automaton of an expression exists as long as there are numbers for
its states, and it accepts the words of the expression and no others. -/
theorem exists_automaton_accepts_iff {s t : Interner Input} {e : Expr} {p : Pattern Input}
    (h : e.toPattern check specializations s = .ok (t, p))
    (hlimit : {S | p.positions.Discovered S}.encard ≤ Positions.stateLimit) :
    ∃ d, p.positions.automaton = .ok d ∧ ∀ word, d.accepts word = true ↔
      word ∈ e.language specializations (t.number? check specializations) := by
  obtain ⟨-, d, number, hd, hrep⟩ | ⟨hlt, -⟩ := p.positions.automaton_cases
  · refine ⟨d, hd, fun word => ?_⟩
    rw [d.accepts_eq, hrep.start, hrep.acceptsFrom_iff .first, p.stop_mem_afterWord_iff,
      language_toPattern h (.refl t)]
  · exact absurd hlimit (not_le_of_gt hlt)

end Compilation

/-- An expression that begins and ends with the same input, of which the first occurrence is repeated:
`(a | b [a])... a`. -/
def repeatedChoice : Expr :=
  let a : Expr := .literal "a" none 0 none
  let b : Expr := .literal "b" none 0 none
  .sequence [.repeated (.alternative [a, .sequence [b, .optional a]]), a]

/-- The pattern of that expression. -/
def repeatedChoicePattern : Pattern Input :=
  let a : Pattern Input := .symbol (.literal "a" none 0 none)
  let b : Pattern Input := .symbol (.literal "b" none 0 none)
  .sequence [.repeated (.alternative [a, .sequence [b, .optional a]]), a]

theorem toPattern_repeatedChoice : repeatedChoice.toPattern (fun _ => .ok ()) .empty {} =
    .ok ({}, repeatedChoicePattern) := rfl

/-- It has few sets of positions. -/
theorem discovered_repeatedChoice :
    {S | repeatedChoicePattern.positions.Discovered S}.encard ≤ Positions.stateLimit :=
  Positions.encard_discovered_le (by decide +kernel)

/-- Its automaton reads its words. -/
theorem exists_automaton_repeatedChoice :
    ∃ d, repeatedChoicePattern.positions.automaton = .ok d ∧ ∀ word, d.accepts word = true ↔
      word ∈ repeatedChoice.language .empty (Interner.number? (fun _ => .ok ()) .empty {}) :=
  exists_automaton_accepts_iff toPattern_repeatedChoice discovered_repeatedChoice

end Expr

end ShellCompletion
