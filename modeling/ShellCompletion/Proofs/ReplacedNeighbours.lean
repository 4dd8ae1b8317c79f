import ShellCompletion.Proofs.Contacts
import ShellCompletion.Proofs.Definitions

/-!
# Neighbours with replaced references

Where definitions take the place of references, the pairs of neighbours inside words stay the same, with
the references in them replaced. A pair that does not pass the check for touching literals does not pass
it then either, but a pair with a reference may begin to fail.
-/

namespace ShellCompletion

namespace Expr

variable {replacement : String → Option Expr}

/-- What an expression begins with is replaced like any expression, unless it is a reference. -/
theorem front_substitute {e : Expr} (h : ∀ name level span, e.front ≠ .reference name level span) :
    (e.substitute replacement).front = e.front.substitute replacement := by
  induction e with
  | reference name level span => exact (h name level span rfl).elim
  | sequence items ih =>
    cases items with
    | nil => rfl
    | cons e es => exact ih e (by simp) h
  | _ => rfl

/-- The last part of an item, unless it is a reference, is replaced where it stands. -/
theorem back_substitute {e : Expr} (h : ∀ name level span, e.back ≠ .reference name level span) :
    (e.substitute replacement).back = e.back.substitute replacement := by
  cases e with
  | sequence items =>
    rw [substitute, back, back, substituteAll_eq_map, List.getLast?_map]
    rw [back] at h
    cases hlast : items.getLast? with
    | none =>
      rw [List.getLast?_eq_none_iff.mp hlast]
      rfl
    | some e =>
      rw [hlast] at h
      exact front_substitute h
  | reference name level span => exact (h name level span rfl).elim
  | _ => exact front_substitute h

/-- A subword stays one when references are replaced. -/
theorem isSubword_substitute (replacement : String → Option Expr) {e : Expr} (h : e.isSubword = true) :
    (∀ name level span, e ≠ .reference name level span) ∧
      (e.substitute replacement).isSubword = true := by
  cases e with
  | subword => exact ⟨by simp, rfl⟩
  | _ => cases h

/-- A literal stays one when references are replaced. -/
theorem isLiteral_substitute (replacement : String → Option Expr) {e : Expr} (h : e.isLiteral = true) :
    (∀ name level span, e ≠ .reference name level span) ∧
      (e.substitute replacement).isLiteral = true := by
  cases e with
  | literal => exact ⟨by simp, rfl⟩
  | _ => cases h

end Expr

namespace Contact

variable {replacement : String → Option Expr}

/-- Two neighbours without the references through which they were reached. -/
def bare (c : Contact) : Contact := ⟨c.left, c.right, []⟩

theorem offends_bare (c : Contact) : c.bare.offends = c.offends := rfl

/-- Two neighbours with the references in them replaced. -/
def substitute (replacement : String → Option Expr) (c : Contact) : Contact :=
  ⟨c.left.substitute replacement, c.right.substitute replacement, []⟩

/-- Whether pairs of neighbours fare worse with the references in them replaced: a subword meets the
neighbour in the first pair that does not pass then, or there is such a pair and all passed before. -/
def Joins (replacement : String → Option Expr) (cs : List Contact) : Prop :=
  MeetsNested (cs.map (substitute replacement)) ∨
    ((∃ c ∈ cs, (c.substitute replacement).offends = true) ∧ ∀ c ∈ cs, c.offends = false)

/-- Replacing references in a pair that does not pass does not make it pass. -/
theorem offends_substitute {c : Contact} (h : c.offends = true) :
    (c.substitute replacement).offends = true := by
  simp only [offends, nested, touching, Bool.or_eq_true, Bool.and_eq_true] at h ⊢
  rcases h with (hleft | hright) | ⟨hleft, hright⟩
  · obtain ⟨hplain, hsubword⟩ := Expr.isSubword_substitute replacement hleft
    exact Or.inl (Or.inl ((congrArg Expr.isSubword (Expr.back_substitute hplain)).trans hsubword))
  · obtain ⟨hplain, hsubword⟩ := Expr.isSubword_substitute replacement hright
    exact Or.inl (Or.inr ((congrArg Expr.isSubword (Expr.front_substitute hplain)).trans hsubword))
  · obtain ⟨hplain, hliteral⟩ := Expr.isLiteral_substitute replacement hleft
    obtain ⟨hplain', hliteral'⟩ := Expr.isLiteral_substitute replacement hright
    exact Or.inr ⟨(congrArg Expr.isLiteral (Expr.back_substitute hplain)).trans hliteral,
      (congrArg Expr.isLiteral (Expr.front_substitute hplain')).trans hliteral'⟩

/-- The references that led to the pairs do not matter for the first pair that does not pass. -/
theorem meetsNested_map_bare (cs : List Contact) : MeetsNested (cs.map bare) ↔ MeetsNested cs := by
  rw [MeetsNested, MeetsNested, List.find?_map]
  change (∃ c, (cs.find? offends).map bare = some c ∧ c.nested = true) ↔ _
  simp only [Option.map_eq_some_iff]
  constructor
  · rintro ⟨-, ⟨c, hfind, rfl⟩, hnested⟩
    exact ⟨c, hfind, hnested⟩
  · rintro ⟨c, hfind, hnested⟩
    exact ⟨c.bare, ⟨c, hfind, rfl⟩, hnested⟩

section

variable {cs cs' : List Contact} (h : cs'.map bare = cs.map (substitute replacement))

include h

/-- Some pair offends exactly if some pair does with its references replaced. -/
theorem exists_offends_iff : (∃ c ∈ cs', c.offends = true) ↔
    ∃ c ∈ cs, (c.substitute replacement).offends = true := by
  have hany : (∃ c ∈ cs'.map bare, c.offends = true) ↔
      ∃ c ∈ cs.map (substitute replacement), c.offends = true := by rw [h]
  simpa only [List.mem_map, exists_exists_and_eq_and, offends_bare] using hany

/-- If no pair offends with its references replaced, none does as it is written. -/
theorem offends_of_forall (hcs' : ∀ c ∈ cs', c.offends = false) : ∀ c ∈ cs, c.offends = false := by
  intro c hc
  by_contra hoffends
  rw [Bool.not_eq_false] at hoffends
  obtain ⟨c', hc', hoffends'⟩ := (exists_offends_iff h).mpr ⟨c, hc, offends_substitute hoffends⟩
  rw [hcs' c' hc'] at hoffends'
  cases hoffends'

/-- Pairs fare worse exactly if a subword is met or if some pair offends that did not. -/
theorem joins_iff : Joins replacement cs ↔
    MeetsNested cs' ∨ ((∃ c ∈ cs', c.offends = true) ∧ ∀ c ∈ cs, c.offends = false) := by
  rw [Joins, ← h, meetsNested_map_bare, exists_offends_iff h]

end

/-- The neighbours among items with replaced references are the neighbours with their references
replaced. -/
theorem map_bare_neighbours (trace trace' : List Span) (items : List Expr) :
    (neighbours trace' (items.map (Expr.substitute replacement))).map bare =
      (neighbours trace items).map (substitute replacement) := by
  induction items with
  | nil => rfl
  | cons left items ih =>
    cases items with
    | nil => rfl
    | cons right others => exact congrArg (List.cons _) ih

end Contact

namespace Expr

variable {replacement : String → Option Expr} {unfold unfold' : String → Bool → List Span → List Contact}

/-- Whether an expression with replaced references has the pairs of neighbours that it had, with the
references in them replaced. -/
def Carries (replacement : String → Option Expr)
    (unfold unfold' : String → Bool → List Span → List Contact) (e : Expr) : Prop :=
  ∀ inWord trace trace', ((e.substitute replacement).contacts unfold' inWord trace').map Contact.bare =
    (e.contacts unfold inWord trace).map (Contact.substitute replacement)

/-- The pairs in a list of expressions with replaced references are its pairs with their references
replaced. -/
theorem map_bare_contactsAll {es : List Expr} (h : ∀ e ∈ es, e.Carries replacement unfold unfold')
    (inWord : Bool) (trace trace' : List Span) :
    (contactsAll unfold' inWord trace' (substituteAll replacement es)).map Contact.bare =
      (contactsAll unfold inWord trace es).map (Contact.substitute replacement) := by
  induction es with
  | nil => rfl
  | cons e es ih =>
    rw [substituteAll, contactsAll, contactsAll, List.map_append, List.map_append,
      h e (by simp) inWord trace, ih fun x hx => h x (by simp [hx])]

/-- An expression has the pairs that it had if the references in it do. -/
theorem carries_of_references {e : Expr}
    (h : ∀ name ∈ e.references, ∀ level span,
      (Expr.reference name level span).Carries replacement unfold unfold') :
    e.Carries replacement unfold unfold' := by
  induction e with
  | literal => exact fun _ _ _ => rfl
  | reference name level span => exact h name (by simp [references]) level span
  | command => exact fun _ _ _ => rfl
  | sequence items ih =>
    have hitems := map_bare_contactsAll fun e he => ih e he fun name hname =>
      h name (mem_referencesAll.mpr ⟨e, he, hname⟩)
    intro inWord trace trace'
    rw [substitute, contacts, contacts, List.map_append, List.map_append, hitems inWord trace]
    cases inWord with
    | false => rfl
    | true =>
      rw [if_pos rfl, if_pos rfl, substituteAll_eq_map, Contact.map_bare_neighbours trace trace']
  | alternative branches ih =>
    exact map_bare_contactsAll fun e he => ih e he fun name hname =>
      h name (mem_referencesAll.mpr ⟨e, he, hname⟩)
  | fallback branches ih =>
    exact map_bare_contactsAll fun e he => ih e he fun name hname =>
      h name (mem_referencesAll.mpr ⟨e, he, hname⟩)
  | optional item ih => exact ih h
  | repeated item ih => exact ih h
  | described item description ih => exact ih h
  | subword body level span ih => exact fun _ => ih h true

end Expr

namespace Definitions

/-- What a definition unfolds to in a depth. -/
def unfolded (definitions : Definitions) :
    ℕ → String → Bool → List Span → List Contact
  | 0, _, _, _ => []
  | depth + 1, name, inWord, trace =>
    ((definitions.get? name).map fun body => definitions.contacts depth body inWord trace).getD []

/-- Pairs of neighbours are found by unfolding references as deep as is allowed. -/
theorem contacts_eq_unfolded (definitions : Definitions) (depth : ℕ) (e : Expr) (inWord : Bool)
    (trace : List Span) :
    definitions.contacts depth e inWord trace =
      e.contacts (definitions.unfolded depth) inWord trace := by
  cases depth with
  | zero => rfl
  | succ depth =>
    rw [contacts]
    congr 1
    funext name inWord trace
    rw [unfolded]
    cases definitions.get? name <;> rfl

/-- A name without definition unfolds to nothing. -/
theorem unfolded_of_none {definitions : Definitions} {name : String}
    (h : definitions.get? name = none) (depth : ℕ) (inWord : Bool) (trace : List Span) :
    definitions.unfolded depth name inWord trace = [] := by
  cases depth with
  | zero => rfl
  | succ depth => rw [unfolded, h, Option.map_none, Option.getD_none]

/-- A defined name unfolds to the pairs of its definition. -/
theorem unfolded_of_some {definitions : Definitions} {name : String} {body : Expr}
    (h : definitions.get? name = some body) (depth : ℕ) (inWord : Bool) (trace : List Span) :
    definitions.unfolded (depth + 1) name inWord trace =
      definitions.contacts depth body inWord trace := by
  rw [unfolded, h, Option.map_some, Option.getD_some]

section

variable {definitions definitions' : Definitions} {replacement : String → Option Expr}
  {C : String → Prop} {rank : String → ℕ}

/-- Where resolved definitions arise from others by a replacement, and names stay as they are or are
replaced by resolved definitions, so do the pairs of neighbours. The depths have to be above the ranks of
the names that are come to. -/
theorem contacts_substitute
    (hresolved : ∀ name, C name →
      definitions'.get? name = (definitions.get? name).map (Expr.substitute replacement))
    (hreplaced : ∀ name, replacement name = none ∨ replacement name = definitions'.get? name)
    (hrank : ∀ name body, C name → definitions.get? name = some body →
      ∀ other ∈ body.references, C other ∧ (definitions.contains other = true → rank other < rank name))
    (hrank' : ∀ name body, C name → definitions'.get? name = some body →
      ∀ other ∈ body.references, definitions'.contains other = true → rank other < rank name)
    {depth depth' : ℕ} {e : Expr}
    (he : ∀ name ∈ e.references, C name ∧ (definitions.contains name = true → rank name < depth))
    (he' : ∀ name ∈ (e.substitute replacement).references,
      definitions'.contains name = true → rank name < depth')
    (inWord : Bool) (trace trace' : List Span) :
    (definitions'.contacts depth' (e.substitute replacement) inWord trace').map Contact.bare =
      (definitions.contacts depth e inWord trace).map (Contact.substitute replacement) := by
  induction depth using Nat.strong_induction_on generalizing e depth' inWord trace trace' with
  | h depth ih =>
    rw [contacts_eq_unfolded, contacts_eq_unfolded]
    refine Expr.carries_of_references (fun name hname level span inWord trace trace' => ?_) inWord trace
      trace'
    change _ = (definitions.unfolded depth name inWord _).map _
    obtain ⟨hC, hlt⟩ := he name hname
    have hget := hresolved name hC
    cases hbody : definitions.get? name with
    | none =>
      rw [hbody] at hget
      have hkept : replacement name = none := (hreplaced name).elim id fun h => h.trans hget
      rw [Expr.substitute, hkept, unfolded_of_none hbody]
      exact congrArg (List.map Contact.bare) (unfolded_of_none hget depth' inWord _)
    | some body =>
      rw [hbody, Option.map_some] at hget
      have hdepth := hlt (by simp [OrderedMap.contains, hbody])
      obtain ⟨less, rfl⟩ : ∃ less, depth = less + 1 := ⟨depth - 1, by omega⟩
      have hless : ∀ other ∈ body.references, C other ∧
          (definitions.contains other = true → rank other < less) := by
        intro other hother
        obtain ⟨hC', hlower⟩ := hrank name body hC hbody other hother
        refine ⟨hC', fun hdefined => ?_⟩
        have hlower' := hlower hdefined
        omega
      rw [unfolded_of_some hbody]
      rcases hreplaced name with hkept | hput
      · -- the reference stays and is unfolded on both sides
        have hmem : name ∈ (e.substitute replacement).references := by
          rw [Expr.references_substitute, List.mem_flatMap]
          exact ⟨name, hname, by simp [Expr.leftBy, hkept]⟩
        have hdepth' := he' name hmem (by simp [OrderedMap.contains, hget])
        obtain ⟨less', rfl⟩ : ∃ less', depth' = less' + 1 := ⟨depth' - 1, by omega⟩
        rw [Expr.substitute, hkept]
        refine (congrArg (List.map Contact.bare) (unfolded_of_some hget less' inWord _)).trans ?_
        refine ih less (Nat.lt_succ_self less) hless (fun other hother hdefined => ?_) inWord _ _
        have hlower := hrank' name _ hC hget other hother hdefined
        omega
      · -- the definition has taken the place of the reference
        rw [Expr.substitute, hput, hget, Option.getD_some, ← contacts_eq_unfolded]
        refine ih less (Nat.lt_succ_self less) hless (fun other hother hdefined => ?_) inWord _ trace'
        refine he' other ?_ hdefined
        rw [Expr.references_substitute, List.mem_flatMap]
        exact ⟨name, hname, by simpa [Expr.leftBy, hput, hget] using hother⟩

end

end Definitions

end ShellCompletion
