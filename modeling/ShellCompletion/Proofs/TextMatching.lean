import ShellCompletion.Compiler
import ShellCompletion.Proofs.ClashingVariants
import ShellCompletion.Proofs.LiteralTables
import ShellCompletion.Proofs.Validation

/-!
# Matching by text

A matcher sees the text of a literal and offers it with its description; it does not see the level or
the place. So the automata of a grammar have to go by texts and descriptions. They do not always: the
same literal at two places of a grammar is two inputs. This module says exactly when they do, for the
automaton of the words with or without minimization and for the automata of the subwords, and when the
tables of a script are functions.
-/

namespace ShellCompletion

namespace Grammar

/-- The patterns of the subwords of a grammar. -/
def SubwordPattern (g : Grammar) (shell : Shell) (q : Pattern Input) : Prop :=
  ∃ resolved, g.resolve = .ok resolved ∧ ∃ body ∈ resolved.body.flattenSubwords.subwordBodies,
    body.toPattern (Positions.checkSubwordFor shell) resolved.specializations {} = .ok ({}, q)

/-- Whether inputs that look the same lead to the same positions of the words, and inside a word to
states that minimization merges. -/
structure DeterminedBy (g : Grammar) (shell : Shell) (pattern : Pattern Input)
    (same : Input → Input → Prop) : Prop where
  words : pattern.positions.DeterministicBy same
  subwords : ∀ q, g.SubwordPattern shell q → ∀ d, q.positions.automaton = .ok d → d.MergesBy same

variable {g : Grammar} {shell : Shell}

/-- The steps of a validation. -/
theorem validate_eq_ok {valid : ValidGrammar} (h : g.validate shell = .ok valid) :
    ∃ resolved, g.resolve = .ok resolved ∧ resolved.body.flattenSubwords.toPattern
      (Positions.checkSubwordFor shell) resolved.specializations {} =
        .ok (valid.subwords, valid.pattern) := by
  obtain ⟨resolved, hresolved, h⟩ := Result.bind_eq_ok.mp h
  obtain ⟨⟨subwords, pattern⟩, hpattern, h⟩ := Result.bind_eq_ok.mp h
  cases h
  exact ⟨resolved, hresolved, hpattern⟩

section

variable (hfilled : ∀ s ∈ g.statements, s.body.Filled True)

include hfilled

/-- The automata of a valid grammar are those of its subwords. -/
theorem mem_subwords_iff {valid : ValidGrammar} (h : g.validate shell = .ok valid)
    (a : Automaton Input) : a ∈ valid.subwords.automata ↔
      ∃ q, g.SubwordPattern shell q ∧ q.minimalAutomaton = .ok a := by
  obtain ⟨resolved, hresolved, hpattern⟩ := validate_eq_ok h
  rw [(filled_resolved hfilled hresolved).flattenSubwords.mem_automata_toPattern
    (fun body => Expr.flat_of_mem_flattenSubwords) hpattern]
  constructor
  · intro ha
    rcases ha with ha | ⟨body, hbody, q, hq, ha⟩
    · simp at ha
    · exact ⟨q, ⟨resolved, hresolved, body, hbody, hq⟩, ha⟩
  · rintro ⟨q, ⟨resolved', hresolved', body, hbody, hq⟩, ha⟩
    rw [hresolved] at hresolved'
    cases hresolved'
    exact Or.inr ⟨body, hbody, q, hq, ha⟩

/-- The automaton of a subword is trim before it is minimized. -/
theorem trim_of_subwordPattern {q : Pattern Input} (h : g.SubwordPattern shell q)
    {d : Automaton Input} (hd : q.positions.automaton = .ok d) : d.Trim := by
  obtain ⟨resolved, hresolved, body, hbody, hq⟩ := h
  obtain ⟨number, hrep⟩ := Positions.exists_represents hd
  have hflattened := (filled_resolved hfilled hresolved).flattenSubwords
  exact hrep.trim (Expr.full_toPattern hq (hflattened.of_mem_subwordBodies hbody).full)

/-- The automaton of the words of a valid grammar is trim. -/
theorem trim_of_validate {valid : ValidGrammar} (h : g.validate shell = .ok valid)
    {d : Automaton Input} (hd : valid.pattern.positions.automaton = .ok d) : d.Trim := by
  obtain ⟨resolved, hresolved, hpattern⟩ := validate_eq_ok h
  obtain ⟨number, hrep⟩ := Positions.exists_represents hd
  exact hrep.trim (Expr.full_toPattern hpattern
    (filled_resolved hfilled hresolved).flattenSubwords.full)

end

/-- The automata of a valid grammar over the given automaton of its words: that automaton, the
minimized one, and those of the subwords. -/
def Automata (valid : ValidGrammar) (d : Automaton Input) (a : Automaton Input) : Prop :=
  a = d ∨ d.minimize = .ok a ∨ a ∈ valid.subwords.automata

section

variable {valid : ValidGrammar} {d : Automaton Input}
  (hfilled : ∀ s ∈ g.statements, s.body.Filled True) (hvalid : g.validate shell = .ok valid)
  (hd : valid.pattern.positions.automaton = .ok d)

include hfilled hvalid hd

/-- The automata of a valid grammar go by what inputs look like exactly if the positions of its words
and the blocks of its subwords do. -/
theorem automata_deterministicBy_iff {same : Input → Input → Prop} :
    (∀ a, Automata valid d a → a.DeterministicBy same) ↔
      g.DeterminedBy shell valid.pattern same := by
  obtain ⟨number, hrep⟩ := Positions.exists_represents hd
  constructor
  · intro h
    refine ⟨hrep.deterministicBy_iff.mp (h d (Or.inl rfl)), ?_⟩
    intro q hq dq hdq
    have htrim := trim_of_subwordPattern hfilled hq hdq
    obtain ⟨m, hm, -⟩ := htrim.exists_minimize
    have hmem : m ∈ valid.subwords.automata := by
      refine (mem_subwords_iff hfilled hvalid m).mpr ⟨q, hq, ?_⟩
      rw [Pattern.minimalAutomaton, hdq, Result.ok_bind, hm]
    exact (htrim.minimize_deterministicBy_iff hm).mp (h m (Or.inr (Or.inr hmem)))
  · rintro ⟨hwords, hsubwords⟩ a (rfl | hm | ha)
    · exact hrep.deterministicBy_iff.mpr hwords
    · have htrim := trim_of_validate hfilled hvalid hd
      have hdet := hrep.deterministicBy_iff.mpr hwords
      exact (htrim.minimize_deterministicBy_iff hm).mpr hdet.mergesBy
    · obtain ⟨q, hq, hminimal⟩ := (mem_subwords_iff hfilled hvalid a).mp ha
      obtain ⟨dq, hdq, hm⟩ := Result.bind_eq_ok.mp hminimal
      have htrim := trim_of_subwordPattern hfilled hq hdq
      exact (htrim.minimize_deterministicBy_iff hm).mpr (hsubwords q hq dq hdq)

/-- The automata of a valid grammar have no unknown symbols on their transitions. -/
theorem automata_knowsSymbols {a : Automaton Input} (ha : Automata valid d a) : a.KnowsSymbols := by
  have htrim := trim_of_validate hfilled hvalid hd
  rcases ha with rfl | hm | ha
  · exact htrim.knowsSymbols
  · exact htrim.knowsSymbols_minimize hm
  · obtain ⟨q, hq, hminimal⟩ := (mem_subwords_iff hfilled hvalid a).mp ha
    obtain ⟨dq, hdq, hm⟩ := Result.bind_eq_ok.mp hminimal
    exact (trim_of_subwordPattern hfilled hq hdq).knowsSymbols_minimize hm

end

/-- Matching by text is deterministic exactly if literals with the same text and description lead to
the same positions of the words, and inside a word from each state that stands for its block to states
of one block. In the same way, for literals that have the same entry, the tables of literals are
functions. -/
theorem matching_deterministic_iff {text : String} {valid : ValidGrammar} {d : Automaton Input}
    (hparse : Grammar.parse text = .ok g) (hcheck : g.check shell = .ok valid)
    (hd : valid.pattern.positions.automaton = .ok d) :
    (∃ m, d.minimize = .ok m) ∧
      ((∀ a, Automata valid d a → a.DeterministicBy Input.SameLiteral) ↔
        g.DeterminedBy shell valid.pattern Input.SameLiteral) ∧
      ((∀ a, Automata valid d a → ∃ table, Script.literalMoves a = .ok table ∧ table.Functional) ↔
        g.DeterminedBy shell valid.pattern Input.SameEntry) := by
  have hfilled := filled_of_parse hparse
  obtain ⟨valid', hvalid, h⟩ := Result.bind_eq_ok.mp hcheck
  have hsame : valid' = valid := by
    obtain ⟨⟨⟩, -, h⟩ := Result.bind_eq_ok.mp h
    obtain ⟨⟨⟩, -, h⟩ := Result.bind_eq_ok.mp h
    cases h
    rfl
  rw [hsame] at hvalid
  obtain ⟨m, hm, -⟩ := (trim_of_validate hfilled hvalid hd).exists_minimize
  refine ⟨⟨m, hm⟩, automata_deterministicBy_iff hfilled hvalid hd, ?_⟩
  rw [← automata_deterministicBy_iff hfilled hvalid hd]
  refine forall_congr' fun a => imp_congr_right fun ha => ?_
  obtain ⟨table, htable, hiff⟩ :=
    Script.functional_literalMoves_iff (automata_knowsSymbols hfilled hvalid hd ha)
  rw [← hiff]
  constructor
  · rintro ⟨table', htable', hfunctional⟩
    rw [htable] at htable'
    cases htable'
    exact hfunctional
  · intro hfunctional
    exact ⟨table, htable, hfunctional⟩

/-- The body of a subword in which each part may be left out: `[a][b]`. -/
def partsBody : Expr := .sequence [.optional (.literal "a" none 0 (some ⟨0, 5, 6⟩)),
  .optional (.literal "b" none 0 (some ⟨0, 8, 9⟩))]

/-- The grammar of `cmd [a][b] (foo x | bar x);`. -/
def optionalParts : Grammar := ⟨[.call "cmd" (.sequence [
  .subword partsBody 0 (some ⟨0, 4, 10⟩),
  .alternative [
    .sequence [.literal "foo" none 0 (some ⟨0, 12, 15⟩), .literal "x" none 0 (some ⟨0, 16, 17⟩)],
    .sequence [.literal "bar" none 0 (some ⟨0, 20, 23⟩), .literal "x" none 0 (some ⟨0, 24, 25⟩)]]])]⟩

/-- The pattern of its subword. -/
def partsPattern : Pattern Input := .sequence [
  .optional (.symbol (.literal "a" none 0 (some ⟨0, 5, 6⟩))),
  .optional (.symbol (.literal "b" none 0 (some ⟨0, 8, 9⟩)))]

/-- The automaton of its subword, in which all states accept. -/
def partsAutomaton : Automaton Input :=
  let a : Input := .literal "a" none 0 (some ⟨0, 5, 6⟩)
  let b : Input := .literal "b" none 0 (some ⟨0, 8, 9⟩)
  ⟨1, .ofList [(1, .ofList [(a, 2), (b, 3)]), (2, .ofList [(b, 3)]), (3, .empty)], .ofList [1, 2, 3],
    .ofList [a, b]⟩

/-- The pattern of its words. -/
def optionalPartsPattern : Pattern Input := .sequence [.symbol (.subword 0 0 (some ⟨0, 4, 10⟩)),
  .alternative [
    .sequence [.symbol (.literal "foo" none 0 (some ⟨0, 12, 15⟩)),
      .symbol (.literal "x" none 0 (some ⟨0, 16, 17⟩))],
    .sequence [.symbol (.literal "bar" none 0 (some ⟨0, 20, 23⟩)),
      .symbol (.literal "x" none 0 (some ⟨0, 24, 25⟩))]]]

theorem automaton_partsPattern : partsPattern.positions.automaton = .ok partsAutomaton := by
  decide +kernel

theorem minimalAutomaton_partsPattern : partsPattern.minimalAutomaton = .ok partsAutomaton := by
  rw [Pattern.minimalAutomaton, automaton_partsPattern, Result.ok_bind]
  exact Automaton.minimize_of_isEmpty (by decide +kernel)

theorem check_partsPattern : Positions.checkSubwordFor .bash partsPattern.positions = .ok () :=
  Positions.checkSubwordFor_eq_ok (by decide +kernel) (by decide +kernel)

theorem toPattern_partsBody (check : Positions Input → Result Unit)
    (specializations : Specializations) :
    partsBody.toPattern check specializations {} = .ok ({}, partsPattern) := rfl

theorem toPattern_partsWord (specializations : Specializations) :
    (Expr.subword partsBody 0 (some ⟨0, 4, 10⟩)).toPattern (Positions.checkSubwordFor .bash)
      specializations {} = .ok (⟨#[partsAutomaton]⟩, .symbol (.subword 0 0 (some ⟨0, 4, 10⟩))) := by
  rw [Expr.toPattern, toPattern_partsBody, Result.ok_bind]
  dsimp only
  have hintern : ({} : Interner Input).intern partsAutomaton = (⟨#[partsAutomaton]⟩, 0) := by
    simp [Interner.intern]
  rw [check_partsPattern, Result.ok_bind, minimalAutomaton_partsPattern, Result.ok_bind, hintern]
  rfl

/-- The automaton of its words. -/
def optionalPartsAutomaton : Automaton Input :=
  let word : Input := .subword 0 0 (some ⟨0, 4, 10⟩)
  let foo : Input := .literal "foo" none 0 (some ⟨0, 12, 15⟩)
  let bar : Input := .literal "bar" none 0 (some ⟨0, 20, 23⟩)
  let afterFoo : Input := .literal "x" none 0 (some ⟨0, 16, 17⟩)
  let afterBar : Input := .literal "x" none 0 (some ⟨0, 24, 25⟩)
  ⟨1, .ofList [(1, .ofList [(word, 2)]), (2, .ofList [(foo, 3), (bar, 4)]),
    (3, .ofList [(afterFoo, 5)]), (4, .ofList [(afterBar, 5)]), (5, .empty)], .ofList [5],
    .ofList [word, foo, afterFoo, bar, afterBar]⟩

theorem automaton_optionalParts :
    optionalPartsPattern.positions.automaton = .ok optionalPartsAutomaton := by
  decide +kernel

theorem resolve_optionalParts : ∃ resolved, optionalParts.resolve = .ok resolved ∧
    resolved.body.flattenSubwords = optionalParts.body := by
  have hcommand : optionalParts.command = .ok "cmd" := command_of_calls rfl
  rw [resolve, hcommand]
  exact ⟨_, rfl, rfl⟩

/-- It passes all checks. -/
theorem check_optionalParts :
    ∃ valid, optionalParts.check .bash = .ok valid ∧ valid.pattern = optionalPartsPattern := by
  obtain ⟨resolved, hresolved, hbody⟩ := resolve_optionalParts
  have hpattern : optionalParts.body.toPattern (Positions.checkSubwordFor .bash)
      resolved.specializations {} = .ok (⟨#[partsAutomaton]⟩, optionalPartsPattern) := by
    change (Expr.sequence (.subword partsBody 0 _ :: _)).toPattern _ _ _ = _
    rw [Expr.toPattern, Expr.toPatterns, toPattern_partsWord]
    rfl
  have hwords : optionalPartsPattern.positions.checkWords .bash = .ok () := by decide +kernel
  have hvariants : optionalPartsPattern.positions.checkVariants = .ok () :=
    Positions.checkVariants_eq_ok (by decide +kernel)
  refine ⟨⟨resolved.command, optionalPartsPattern, ⟨#[partsAutomaton]⟩, resolved.specializations,
    resolved.undefined, resolved.unused⟩, ?_, rfl⟩
  rw [check, validate, hresolved, Result.ok_bind, hbody, hpattern, Result.ok_bind]
  dsimp only
  rw [Result.pure_eq_ok, Result.ok_bind, hwords, Result.ok_bind, hvariants]
  rfl

/-- Literals of that grammar lead to the same positions and blocks. -/
theorem determinedBy_optionalParts {same : Input → Input → Prop}
    (hwords : optionalPartsAutomaton.DeterministicBy same)
    (hparts : partsAutomaton.DeterministicBy same) :
    optionalParts.DeterminedBy .bash optionalPartsPattern same := by
  constructor
  · obtain ⟨number, hrep⟩ := Positions.exists_represents automaton_optionalParts
    exact hrep.deterministicBy_iff.mp hwords
  · rintro q ⟨resolved, hresolved, body, hbody, hq⟩ d hd
    obtain ⟨resolved', hresolved', heq⟩ := resolve_optionalParts
    rw [hresolved] at hresolved'
    cases hresolved'
    have hsingle : optionalParts.body.subwordBodies = [partsBody] := rfl
    rw [heq, hsingle, List.mem_singleton] at hbody
    rw [hbody, toPattern_partsBody] at hq
    cases hq
    rw [automaton_partsPattern] at hd
    cases hd
    exact hparts.mergesBy

/-- All of its automata are deterministic by text. -/
theorem matching_optionalParts :
    Grammar.parse "cmd [a][b] (foo x | bar x);" = .ok optionalParts ∧
      ∃ valid, optionalParts.check .bash = .ok valid ∧
        valid.pattern.positions.automaton = .ok optionalPartsAutomaton ∧
        ∀ a, Automata valid optionalPartsAutomaton a → a.DeterministicBy Input.SameLiteral ∧
          ∃ table, Script.literalMoves a = .ok table ∧ table.Functional := by
  have hparse : Grammar.parse "cmd [a][b] (foo x | bar x);" = .ok optionalParts := by decide +kernel
  obtain ⟨valid, hcheck, hpattern⟩ := check_optionalParts
  have hautomaton := automaton_optionalParts
  rw [← hpattern] at hautomaton
  obtain ⟨-, hliteral, hentry⟩ := matching_deterministic_iff hparse hcheck hautomaton
  have hliteral := hliteral.mpr (by
    rw [hpattern]
    exact determinedBy_optionalParts (by decide +kernel) (by decide +kernel))
  have hentry := hentry.mpr (by
    rw [hpattern]
    exact determinedBy_optionalParts (by decide +kernel) (by decide +kernel))
  exact ⟨hparse, valid, hcheck, hautomaton, fun a ha => ⟨hliteral a ha, hentry a ha⟩⟩

/-- The grammar of `cmd (foo a | foo b);`. -/
def splitLiteral : Grammar := ⟨[.call "cmd" (.alternative [
  .sequence [.literal "foo" none 0 (some ⟨0, 5, 8⟩), .literal "a" none 0 (some ⟨0, 9, 10⟩)],
  .sequence [.literal "foo" none 0 (some ⟨0, 13, 16⟩), .literal "b" none 0 (some ⟨0, 17, 18⟩)]])]⟩

/-- The pattern of its words. -/
def splitPattern : Pattern Input := .alternative [
  .sequence [.symbol (.literal "foo" none 0 (some ⟨0, 5, 8⟩)),
    .symbol (.literal "a" none 0 (some ⟨0, 9, 10⟩))],
  .sequence [.symbol (.literal "foo" none 0 (some ⟨0, 13, 16⟩)),
    .symbol (.literal "b" none 0 (some ⟨0, 17, 18⟩))]]

/-- The automaton of its words. -/
def splitAutomaton : Automaton Input :=
  let foo : Input := .literal "foo" none 0 (some ⟨0, 5, 8⟩)
  let otherFoo : Input := .literal "foo" none 0 (some ⟨0, 13, 16⟩)
  let a : Input := .literal "a" none 0 (some ⟨0, 9, 10⟩)
  let b : Input := .literal "b" none 0 (some ⟨0, 17, 18⟩)
  ⟨1, .ofList [(1, .ofList [(foo, 2), (otherFoo, 3)]), (2, .ofList [(a, 4)]), (3, .ofList [(b, 4)]),
    (4, .empty)], .ofList [4], .ofList [foo, a, otherFoo, b]⟩

/-- A literal at two places of a grammar that passes all checks leads to two states. -/
theorem matching_splitLiteral : Grammar.parse "cmd (foo a | foo b);" = .ok splitLiteral ∧
    ∃ valid, splitLiteral.check .bash = .ok valid ∧
      valid.pattern.positions.automaton = .ok splitAutomaton ∧
      ¬ splitAutomaton.DeterministicBy Input.SameLiteral := by
  have hcommand : splitLiteral.command = .ok "cmd" := command_of_calls rfl
  have hvalidate : ∃ valid, splitLiteral.validate .bash = .ok valid ∧
      valid.pattern = splitPattern := by
    rw [validate, resolve, hcommand]
    exact ⟨_, rfl, rfl⟩
  obtain ⟨valid, hvalid, hpattern⟩ := hvalidate
  have hwords : splitPattern.positions.checkWords .bash = .ok () := by decide +kernel
  have hvariants : splitPattern.positions.checkVariants = .ok () :=
    Positions.checkVariants_eq_ok (by decide +kernel)
  refine ⟨by decide +kernel, valid, ?_, ?_, by decide +kernel⟩
  · rw [check, hvalid, Result.ok_bind]
    dsimp only
    rw [hpattern, hwords, Result.ok_bind, hvariants]
    rfl
  · rw [hpattern]
    decide +kernel

end Grammar

end ShellCompletion
