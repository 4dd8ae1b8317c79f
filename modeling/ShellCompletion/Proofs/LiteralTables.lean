import ShellCompletion.Proofs.Determinism
import ShellCompletion.Proofs.Results
import ShellCompletion.Script.Table

/-!
# Tables of literals

The tables of a script know a literal by its text and description alone, where no description is an
empty one. Each such literal has one number, and the entries of a state are the literals on its
transitions. So the entries of every state form a function exactly if the automaton goes by the texts
and descriptions of literals.
-/

namespace ShellCompletion

namespace Input

/-- Whether two inputs are literals with the same text and description. -/
def SameLiteral : Input → Input → Prop
  | .literal text description _ _, .literal text' description' _ _ =>
    text = text' ∧ description = description'
  | _, _ => False

/-- Whether two inputs are literals with the same entry in a table. -/
def SameEntry : Input → Input → Prop
  | .literal text description _ _, .literal text' description' _ _ =>
    text = text' ∧ description.getD "" = description'.getD ""
  | _, _ => False

instance : DecidableRel SameLiteral
  | .literal text description _ _, .literal text' description' _ _ =>
    inferInstanceAs (Decidable (text = text' ∧ description = description'))
  | .literal .., .subword .. | .literal .., .reference .. | .literal .., .command .. => isFalse id
  | .subword .., _ | .reference .., _ | .command .., _ => isFalse id

instance : DecidableRel SameEntry
  | .literal text description _ _, .literal text' description' _ _ =>
    inferInstanceAs (Decidable (text = text' ∧ description.getD "" = description'.getD ""))
  | .literal .., .subword .. | .literal .., .reference .. | .literal .., .command .. => isFalse id
  | .subword .., _ | .reference .., _ | .command .., _ => isFalse id

end Input

namespace Automaton

variable {a : Automaton Input}

/-- The literals from a state are those on its transitions, with no description as an empty one. -/
theorem mem_literalsFrom {s t : ℕ} {text description : String} :
    (text, description, t) ∈ a.literalsFrom s ↔ ∃ own level span,
      a.next? s (.literal text own level span) = some t ∧ own.getD "" = description := by
  have hfrom : ∀ c, (⟨s, c, t⟩ : Transition Input) ∈ a.transitionsFrom s ↔
      a.next? s c = some t := by
    intro c
    unfold transitionsFrom next?
    cases hrow : a.rows.get? s with
    | none => simp
    | some row => simp [OrderedMap.mem_entries_iff]
  have hsource : ∀ x ∈ a.transitionsFrom s, x.source = s := by
    intro x hx
    unfold transitionsFrom at hx
    split at hx
    · obtain ⟨e, -, rfl⟩ := List.mem_map.mp hx
      rfl
    · simp at hx
  rw [literalsFrom, List.mem_filterMap]
  constructor
  · rintro ⟨⟨source, symbol, target⟩, hx, heq⟩
    have hs := hsource _ hx
    cases symbol with
    | literal text' own level span =>
      cases hs
      cases heq
      exact ⟨own, level, span, (hfrom _).mp hx, rfl⟩
    | _ => cases heq
  · rintro ⟨own, level, span, hnext, rfl⟩
    exact ⟨⟨s, .literal text own level span, t⟩, (hfrom _).mpr hnext, rfl⟩

end Automaton

namespace Script

variable {a : Automaton Input}

/-- The number of a literal with a description. -/
def literalNumber (a : Automaton Input) (literal : String × String) : ℕ :=
  ((literalNumbers a).lookup literal).getD 0

/-- A literal among the symbols has a number, at whose place it stands. -/
theorem lookup_literalNumbers {literal : String × String} (h : literal ∈ literals a) :
    (literalNumbers a).lookup literal = some (literalNumber a literal) ∧
      (literals a)[literalNumber a literal]? = some literal := by
  obtain ⟨i, hi⟩ := List.mem_iff_getElem?.mp h
  have hmem : (literal, i) ∈ literalNumbers a :=
    List.mem_reverse.mpr (List.mk_mem_zipIdx_iff_getElem?.mpr hi)
  obtain ⟨n, hn⟩ : ∃ n, (literalNumbers a).lookup literal = some n := by
    rw [← Option.isSome_iff_exists, List.lookup_isSome_iff]
    exact ⟨(literal, i), hmem, by simp⟩
  have hnumber : literalNumber a literal = n := by rw [literalNumber, hn, Option.getD_some]
  rw [hnumber]
  refine ⟨hn, ?_⟩
  obtain ⟨before, after, heq, -⟩ := List.lookup_eq_some_iff.mp hn
  have hmem : (literal, n) ∈ literalNumbers a := by simp [heq]
  exact List.mk_mem_zipIdx_iff_getElem?.mp (List.mem_reverse.mp hmem)

/-- Different literals have different numbers. -/
theorem literalNumber_inj {l l' : String × String} (h : l ∈ literals a) (h' : l' ∈ literals a)
    (heq : literalNumber a l = literalNumber a l') : l = l' := by
  have hl := (lookup_literalNumbers h).2
  have hl' := (lookup_literalNumbers h').2
  rw [heq, hl'] at hl
  exact (Option.some.inj hl).symm

/-- The literals from a state are among those of the automaton. -/
theorem mem_literals_of_mem_literalsFrom (ha : a.KnowsSymbols) {s t : ℕ} {text description : String}
    (h : (text, description, t) ∈ a.literalsFrom s) : (text, description) ∈ literals a := by
  obtain ⟨own, level, span, hnext, rfl⟩ := Automaton.mem_literalsFrom.mp h
  have hsymbol := ha s _ t hnext
  refine List.mem_map.mpr ⟨(text, own), ?_, rfl⟩
  exact List.mem_filterMap.mpr ⟨_, hsymbol, rfl⟩

/-- The entries of a state, with numbers in place of literals. -/
def numberedMoves (a : Automaton Input) (s : ℕ) : List (ℕ × ℕ) :=
  (a.literalsFrom s).map fun move => (literalNumber a (move.1, move.2.1), move.2.2)

/-- If all symbols are known, the table of literals can be written, with the literals on the
transitions of each state as its entries. -/
theorem literalMoves_eq (ha : a.KnowsSymbols) : literalMoves a =
    .ok ((a.answersByState a.literalsFrom).map fun row => (row.1, numberedMoves a row.1)) := by
  apply Result.mapM_eq_ok
  rintro ⟨s, found⟩ hrow
  have hfound : found = a.literalsFrom s := by
    obtain ⟨hrow, -⟩ := List.mem_filter.mp hrow
    obtain ⟨s', -, heq⟩ := List.mem_map.mp hrow
    cases heq
    rfl
  have hmoves : found.mapM (fun (move : String × String × ℕ) => do
      return (← require .missingEntry ((literalNumbers a).lookup (move.1, move.2.1)), move.2.2)) =
      (.ok (numberedMoves a s) : Result (List (ℕ × ℕ))) := by
    rw [numberedMoves, hfound]
    apply Result.mapM_eq_ok
    rintro ⟨text, description, t⟩ hmove
    have hmem := mem_literals_of_mem_literalsFrom ha hmove
    rw [(lookup_literalNumbers hmem).1]
    rfl
  dsimp only
  rw [hmoves]
  rfl

/-- Whether the entries of each state form a function from numbers to targets. -/
def Table.Functional (table : Table (ℕ × ℕ)) : Prop :=
  ∀ row ∈ table, ∀ n t t', (n, t) ∈ row.2 → (n, t') ∈ row.2 → t = t'

/-- The table of literals is a function for each state exactly if literals with the same entry lead
from each state to the same target. -/
theorem functional_literalMoves_iff (ha : a.KnowsSymbols) :
    ∃ table, literalMoves a = .ok table ∧
      (table.Functional ↔ a.DeterministicBy Input.SameEntry) := by
  refine ⟨_, literalMoves_eq ha, ?_⟩
  constructor
  · intro h s c c' t t' hcc' ht ht'
    cases c with
    | literal text own level span =>
      cases c' with
      | literal text' own' level' span' =>
        obtain ⟨rfl, hdescription⟩ := hcc'
        have hmove := Automaton.mem_literalsFrom.mpr ⟨own, level, span, ht, rfl⟩
        have hmove' := Automaton.mem_literalsFrom.mpr ⟨own', level', span', ht', hdescription.symm⟩
        have hrow : (s, a.literalsFrom s) ∈ a.answersByState a.literalsFrom := by
          refine List.mem_filter.mpr ⟨List.mem_map.mpr ⟨s, ?_, rfl⟩, ?_⟩
          · rw [NatSet.mem_toList, a.mem_states]
            exact Or.inr ⟨⟨s, _, t⟩, (a.mem_transitions _).mpr ht, Or.inl rfl⟩
          · have hne := List.ne_nil_of_mem hmove
            simpa using hne
        exact h _ (List.mem_map.mpr ⟨_, hrow, rfl⟩) _ t t' (List.mem_map.mpr ⟨_, hmove, rfl⟩)
          (List.mem_map.mpr ⟨_, hmove', rfl⟩)
      | _ => exact hcc'.elim
    | _ => exact hcc'.elim
  · intro h row hrow n t t' ht ht'
    obtain ⟨⟨s, found⟩, -, rfl⟩ := List.mem_map.mp hrow
    obtain ⟨⟨text, description, target⟩, hmove, heq⟩ := List.mem_map.mp ht
    obtain ⟨⟨text', description', target'⟩, hmove', heq'⟩ := List.mem_map.mp ht'
    rw [Prod.mk.injEq] at heq heq'
    have hsame := literalNumber_inj (mem_literals_of_mem_literalsFrom ha hmove)
      (mem_literals_of_mem_literalsFrom ha hmove') (heq.1.trans heq'.1.symm)
    obtain ⟨own, level, span, hnext, hown⟩ := Automaton.mem_literalsFrom.mp hmove
    obtain ⟨own', level', span', hnext', hown'⟩ := Automaton.mem_literalsFrom.mp hmove'
    rw [Prod.mk.injEq, ← hown, ← hown'] at hsame
    rw [← heq.2, ← heq'.2]
    exact h s (.literal text own level span) (.literal text' own' level' span') target target' hsame
      hnext hnext'

end Script

end ShellCompletion
