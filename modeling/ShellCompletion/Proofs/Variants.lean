import Mathlib.Data.List.GetD
import ShellCompletion.Proofs.Descriptions

/-!
# Variants of an expression

A variant arises by choosing a branch at each alternative and each fallback. What distribution does to its
literals follows the structure of the expression: the parts of a sequence are handed what is left over, and
so are the branches of a fallback, but those of an alternative are all handed the same. A literal that has
a description keeps it, and if some literal has none, one of these gets what is handed to the expression.
-/

namespace ShellCompletion

/-- The places of literals when others are put to the left of them. -/
def shifted (literals : ℕ) (places : List ℕ) : List ℕ := places.map (literals + ·)

/-- The descriptions of the literals at the given places. -/
def along (descriptions : List (Option String)) (places : List ℕ) : List (Option String) :=
  places.map (descriptions.getD · none)

/-- The descriptions of the literals of a variant before and after the distribution. -/
abbrev Outcome := List (Option String × Option String)

namespace Outcome

/-- Whether a literal has no description before. -/
def Open (outcome : Outcome) : Prop := none ∈ outcome.map Prod.fst

/-- Whether no description is given. -/
def Kept (outcome : Outcome) : Prop := outcome.map Prod.snd = outcome.map Prod.fst

/-- Two outcomes together have an open place if one of them has. -/
theorem open_append {first rest : Outcome} : Open (first ++ rest) ↔ first.Open ∨ rest.Open := by
  rw [Open, List.map_append, List.mem_append]
  rfl

end Outcome

namespace Expr

mutual

/-- The variants of an expression, one for each way of choosing a branch at all alternatives and
fallbacks: the places of its literals, apart from those inside of described groups. Where there are no
branches, nothing is chosen. -/
def variants : Expr → List (List ℕ)
  | .literal .. => [[0]]
  | .reference .. => [[]]
  | .command .. => [[]]
  | .sequence items => variantsAlong items
  | .alternative branches => if branches.isEmpty then [[]] else variantsOfChoice branches
  | .fallback branches => if branches.isEmpty then [[]] else variantsOfChoice branches
  | .optional item => item.variants
  | .repeated item => item.variants
  | .described .. => [[]]
  | .subword body _ _ => body.variants

/-- The variants of one expression after the other. -/
def variantsAlong : List Expr → List (List ℕ)
  | [] => [[]]
  | e :: es => e.variants.flatMap fun variant =>
    (variantsAlong es).map fun others => variant ++ shifted e.descriptions.length others

/-- The variants of one of several expressions. -/
def variantsOfChoice : List Expr → List (List ℕ)
  | [] => []
  | e :: es => e.variants ++ (variantsOfChoice es).map (shifted e.descriptions.length)

end

/-- Whether some variant has a literal without a description. -/
def hasOpen (e : Expr) : Bool :=
  e.variants.any fun variant => (along e.descriptions variant).contains none

/-- Whether some variant has no literal without a description. -/
def avoidsOpen (e : Expr) : Bool :=
  e.variants.any fun variant => !(along e.descriptions variant).contains none

/-! ### What the literals of a variant have before and after -/

mutual

/-- For each variant the descriptions of its literals before and after the distribution. -/
def outcomes (handed : Option String) : Expr → List Outcome
  | .literal _ none _ _ => [[(none, handed)]]
  | .literal _ (some own) _ _ => [[(some own, some own)]]
  | .reference .. => [[]]
  | .command .. => [[]]
  | .sequence items => outcomesAlong handed items
  | .alternative branches => if branches.isEmpty then [[]] else outcomesEach handed branches
  | .fallback branches => if branches.isEmpty then [[]] else outcomesRanked handed branches
  | .optional item => item.outcomes handed
  | .repeated item => item.outcomes handed
  | .described .. => [[]]
  | .subword body _ _ => body.outcomes handed

/-- For each variant of one expression after the other. -/
def outcomesAlong (handed : Option String) : List Expr → List Outcome
  | [] => [[]]
  | e :: es => (e.outcomes handed).flatMap fun outcome =>
    (outcomesAlong (e.distribute handed).2 es).map (outcome ++ ·)

/-- For each variant of one of several expressions with the same description for each. -/
def outcomesEach (handed : Option String) : List Expr → List Outcome
  | [] => []
  | e :: es => e.outcomes handed ++ outcomesEach handed es

/-- For each variant of one of several expressions that a description is handed along. -/
def outcomesRanked (handed : Option String) : List Expr → List Outcome
  | [] => []
  | e :: es => e.outcomes handed ++ outcomesRanked (e.distribute handed).2 es

end

/-- The descriptions of the literals at the given places, in two lists. -/
def bothAlong (before after : List (Option String)) (places : List ℕ) : Outcome :=
  places.map fun k => (before.getD k none, after.getD k none)

section

variable {before after : List (Option String)}

/-- What the places of a variant had before is what stood along them. -/
theorem map_fst_bothAlong (places : List ℕ) :
    (bothAlong before after places).map Prod.fst = along before places := by
  simp [bothAlong, along]

/-- What the places of a variant have after is what stands along them. -/
theorem map_snd_bothAlong (places : List ℕ) :
    (bothAlong before after places).map Prod.snd = along after places := by
  simp [bothAlong, along]

variable (hlength : after.length = before.length) (others others' : List (Option String))

include hlength

/-- The places of the first part lie in the first part. -/
theorem bothAlong_append_left {places : List ℕ} (hplaces : ∀ k ∈ places, k < before.length) :
    bothAlong (before ++ others) (after ++ others') places = bothAlong before after places := by
  refine List.map_congr_left fun k hk => ?_
  rw [List.getD_append _ _ _ _ (hplaces k hk), List.getD_append _ _ _ _ (hlength ▸ hplaces k hk)]

/-- The places of the second part are those behind the first part. -/
theorem bothAlong_append_right (places : List ℕ) :
    bothAlong (before ++ others) (after ++ others') (shifted before.length places) =
      bothAlong others others' places := by
  rw [bothAlong, shifted, List.map_map]
  refine List.map_congr_left fun k _ => ?_
  rw [Function.comp_apply, List.getD_append_right _ _ _ _ (Nat.le_add_right _ _),
    List.getD_append_right _ _ _ _ (hlength ▸ Nat.le_add_right _ _), hlength,
    Nat.add_sub_cancel_left]

end

section

variable {es : List Expr} (hes : ∀ e ∈ es, ∀ variant ∈ e.variants, ∀ k ∈ variant,
  k < e.descriptions.length)

include hes

/-- The variants of a sequence go through places of its literals. -/
theorem lt_of_mem_variantsAlong :
    ∀ variant ∈ variantsAlong es, ∀ k ∈ variant, k < (descriptionsAll es).length := by
  induction es with
  | nil => simp [variantsAlong]
  | cons e es ih =>
    have hothers := ih fun x hx => hes x (by simp [hx])
    intro variant hvariant k hk
    obtain ⟨first, hfirst, hvariant⟩ := List.mem_flatMap.mp hvariant
    obtain ⟨rest, hrest, rfl⟩ := List.mem_map.mp hvariant
    rw [descriptionsAll, List.length_append]
    rcases List.mem_append.mp hk with hk | hk
    · exact Nat.lt_add_right _ (hes e (by simp) first hfirst k hk)
    · obtain ⟨j, hj, rfl⟩ := List.mem_map.mp hk
      exact Nat.add_lt_add_left (hothers rest hrest j hj) _

theorem lt_of_mem_variantsOfChoice :
    ∀ variant ∈ variantsOfChoice es, ∀ k ∈ variant, k < (descriptionsAll es).length := by
  induction es with
  | nil => simp [variantsOfChoice]
  | cons e es ih =>
    have hothers := ih fun x hx => hes x (by simp [hx])
    intro variant hvariant k hk
    rw [descriptionsAll, List.length_append]
    rcases List.mem_append.mp hvariant with hvariant | hvariant
    · exact Nat.lt_add_right _ (hes e (by simp) variant hvariant k hk)
    · obtain ⟨rest, hrest, rfl⟩ := List.mem_map.mp hvariant
      obtain ⟨j, hj, rfl⟩ := List.mem_map.mp hk
      exact Nat.add_lt_add_left (hothers rest hrest j hj) _

theorem lt_of_mem_variants_choice :
    ∀ variant ∈ (if es.isEmpty then [[]] else variantsOfChoice es), ∀ k ∈ variant,
      k < (descriptionsAll es).length := by
  split
  · simp
  · exact lt_of_mem_variantsOfChoice hes

end

/-- The places in a variant are places of literals. -/
theorem lt_of_mem_variants (e : Expr) :
    ∀ variant ∈ e.variants, ∀ k ∈ variant, k < e.descriptions.length := by
  induction e with
  | literal => simp [variants, descriptions]
  | reference | command | described => simp [variants]
  | sequence items ih => exact lt_of_mem_variantsAlong ih
  | alternative branches ih => exact lt_of_mem_variants_choice ih
  | fallback branches ih => exact lt_of_mem_variants_choice ih
  | optional item ih => exact ih
  | repeated item ih => exact ih
  | subword body level span ih => exact ih

/-- The variants of a choice are those of the first branch and those of the others. -/
theorem map_bothAlong_variantsOfChoice {e : Expr} {after : List (Option String)}
    (hlength : after.length = e.descriptions.length) (es : List Expr)
    (others : List (Option String)) :
    (variantsOfChoice (e :: es)).map (bothAlong (descriptionsAll (e :: es)) (after ++ others)) =
      e.variants.map (bothAlong e.descriptions after) ++
        (variantsOfChoice es).map (bothAlong (descriptionsAll es) others) := by
  rw [variantsOfChoice, List.map_append, List.map_map]
  refine congrArg₂ _ (List.map_congr_left fun variant hvariant => ?_)
    (List.map_congr_left fun rest _ => ?_)
  · exact bothAlong_append_left hlength _ _ (e.lt_of_mem_variants variant hvariant)
  · exact bothAlong_append_right hlength _ _ rest

section

variable {es : List Expr} (hes : ∀ e ∈ es, ∀ handed, e.outcomes handed =
  e.variants.map (bothAlong e.descriptions (e.distribute handed).1.descriptions))

include hes

/-- What becomes of the variants of a sequence is what distribution does to their places. -/
theorem outcomesAlong_eq (handed : Option String) : outcomesAlong handed es =
    (variantsAlong es).map
      (bothAlong (descriptionsAll es) (descriptionsAll (distributeAlong handed es).1)) := by
  induction es generalizing handed with
  | nil => rfl
  | cons e es ih =>
    have hothers := ih (fun x hx => hes x (by simp [hx])) (e.distribute handed).2
    have hlength := e.length_descriptions_distribute handed
    rw [outcomesAlong, hes e (by simp), hothers, variantsAlong, List.flatMap_map, List.map_flatMap]
    refine List.flatMap_congr fun variant hvariant => ?_
    rw [List.map_map, List.map_map]
    refine List.map_congr_left fun rest _ => ?_
    have hfirst := bothAlong_append_left hlength (descriptionsAll es)
      (descriptionsAll (distributeAlong (e.distribute handed).2 es).1)
      (e.lt_of_mem_variants variant hvariant)
    have hrest := bothAlong_append_right hlength (descriptionsAll es)
      (descriptionsAll (distributeAlong (e.distribute handed).2 es).1) rest
    rw [Function.comp_apply, Function.comp_apply, ← hfirst, ← hrest]
    exact List.map_append.symm

/-- What becomes of the variants of an alternative is what distribution does to their places. -/
theorem outcomesEach_eq (handed : Option String) : outcomesEach handed es =
    (variantsOfChoice es).map
      (bothAlong (descriptionsAll es) (descriptionsAll (distributeEach handed es))) := by
  induction es with
  | nil => rfl
  | cons e es ih =>
    rw [outcomesEach, hes e (by simp), ih fun x hx => hes x (by simp [hx])]
    exact (map_bothAlong_variantsOfChoice (e.length_descriptions_distribute handed) es _).symm

/-- What becomes of the variants of a fallback is what distribution does to their places. -/
theorem outcomesRanked_eq (handed : Option String) : outcomesRanked handed es =
    (variantsOfChoice es).map
      (bothAlong (descriptionsAll es) (descriptionsAll (distributeAlong handed es).1)) := by
  induction es generalizing handed with
  | nil => rfl
  | cons e es ih =>
    rw [outcomesRanked, hes e (by simp), ih (fun x hx => hes x (by simp [hx])) _]
    exact (map_bothAlong_variantsOfChoice (e.length_descriptions_distribute handed) es _).symm

end

/-- The outcomes are what the literals of the variants have before and after the distribution. -/
theorem outcomes_eq (e : Expr) (handed : Option String) : e.outcomes handed =
    e.variants.map (bothAlong e.descriptions (e.distribute handed).1.descriptions) := by
  induction e generalizing handed with
  | literal text description level span => cases description <;> rfl
  | reference | command | described => rfl
  | sequence items ih => exact outcomesAlong_eq ih handed
  | alternative branches ih =>
    rw [outcomes, variants, outcomesEach_eq ih handed, apply_ite (List.map _)]
    rfl
  | fallback branches ih =>
    rw [outcomes, variants, outcomesRanked_eq ih handed, apply_ite (List.map _)]
    rfl
  | optional item ih => exact ih handed
  | repeated item ih => exact ih handed
  | subword body level span ih => exact ih handed

/-! ### Open literals -/

/-- What the literals have before does not depend on what is handed to the expression. -/
theorem exists_mem_outcomes_iff (e : Expr) (handed : Option String)
    (P : List (Option String) → Prop) : (∃ outcome ∈ e.outcomes handed, P (outcome.map Prod.fst)) ↔
      ∃ variant ∈ e.variants, P (along e.descriptions variant) := by
  rw [outcomes_eq]
  constructor
  · rintro ⟨outcome, houtcome, h⟩
    obtain ⟨variant, hvariant, rfl⟩ := List.mem_map.mp houtcome
    rw [map_fst_bothAlong] at h
    exact ⟨variant, hvariant, h⟩
  · rintro ⟨variant, hvariant, h⟩
    rw [← map_fst_bothAlong] at h
    exact ⟨_, List.mem_map_of_mem hvariant, h⟩

/-- An expression has an open literal exactly if some variant has an open place. -/
theorem hasOpen_iff (e : Expr) (handed : Option String) :
    e.hasOpen = true ↔ ∃ outcome ∈ e.outcomes handed, outcome.Open := by
  rw [hasOpen, List.any_eq_true]
  simp only [Outcome.Open, exists_mem_outcomes_iff e handed (none ∈ ·), List.contains_iff_mem]

/-- An expression has a way past open literals exactly if some variant has no open place. -/
theorem avoidsOpen_iff (e : Expr) (handed : Option String) :
    e.avoidsOpen = true ↔ ∃ outcome ∈ e.outcomes handed, ¬ outcome.Open := by
  rw [avoidsOpen, List.any_eq_true]
  simp only [Outcome.Open, exists_mem_outcomes_iff e handed (none ∉ ·), Bool.not_eq_true',
    Bool.eq_false_iff, ne_eq, List.contains_iff_mem]

/-- What becomes of a sequence is what becomes of its first item and then of the others. -/
theorem mem_outcomesAlong_cons {e : Expr} {es : List Expr} {handed : Option String}
    {outcome : Outcome} : outcome ∈ outcomesAlong handed (e :: es) ↔ ∃ first ∈ e.outcomes handed,
      ∃ rest ∈ outcomesAlong (e.distribute handed).2 es, first ++ rest = outcome := by
  simp [outcomesAlong]

theorem exists_mem_outcomesAlong {es : List Expr}
    (hes : ∀ e ∈ es, ∀ handed, ∃ outcome, outcome ∈ e.outcomes handed) (handed : Option String) :
    ∃ outcome, outcome ∈ outcomesAlong handed es := by
  induction es generalizing handed with
  | nil => exact ⟨[], by simp [outcomesAlong]⟩
  | cons e es ih =>
    obtain ⟨first, hfirst⟩ := hes e (by simp) handed
    obtain ⟨rest, hrest⟩ := ih (fun x hx => hes x (by simp [hx])) (e.distribute handed).2
    exact ⟨first ++ rest, mem_outcomesAlong_cons.mpr ⟨first, hfirst, rest, hrest, rfl⟩⟩

/-- There is a variant. -/
theorem exists_mem_outcomes (e : Expr) (handed : Option String) :
    ∃ outcome, outcome ∈ e.outcomes handed := by
  induction e generalizing handed with
  | literal text description level span => cases description <;> simp [outcomes]
  | reference | command | described => simp [outcomes]
  | sequence items ih => exact exists_mem_outcomesAlong ih handed
  | alternative branches ih =>
    cases branches with
    | nil => exact ⟨[], by simp [outcomes]⟩
    | cons e es =>
      obtain ⟨outcome, houtcome⟩ := ih e (by simp) handed
      exact ⟨outcome, List.mem_append_left _ houtcome⟩
  | fallback branches ih =>
    cases branches with
    | nil => exact ⟨[], by simp [outcomes]⟩
    | cons e es =>
      obtain ⟨outcome, houtcome⟩ := ih e (by simp) handed
      exact ⟨outcome, List.mem_append_left _ houtcome⟩
  | optional item ih => exact ih handed
  | repeated item ih => exact ih handed
  | subword body level span ih => exact ih handed

/-- Every sequence has a variant. -/
theorem exists_mem_outcomes_list (es : List Expr) (handed : Option String) :
    ∃ outcome, outcome ∈ outcomesAlong handed es :=
  exists_mem_outcomesAlong (fun e _ => e.exists_mem_outcomes) handed

/-- Some item of a sequence has an open literal exactly if some variant has an open place. -/
theorem any_hasOpen_iff_along (es : List Expr) (handed : Option String) :
    es.any hasOpen = true ↔ ∃ outcome ∈ outcomesAlong handed es, outcome.Open := by
  induction es generalizing handed with
  | nil => simp [outcomesAlong, Outcome.Open]
  | cons e es ih =>
    rw [List.any_cons, Bool.or_eq_true, e.hasOpen_iff handed, ih (e.distribute handed).2]
    simp only [mem_outcomesAlong_cons]
    constructor
    · rintro (⟨first, hfirst, hopen⟩ | ⟨rest, hrest, hopen⟩)
      · obtain ⟨rest, hrest⟩ := exists_mem_outcomes_list es (e.distribute handed).2
        exact ⟨_, ⟨first, hfirst, rest, hrest, rfl⟩, Outcome.open_append.mpr (.inl hopen)⟩
      · obtain ⟨first, hfirst⟩ := e.exists_mem_outcomes handed
        exact ⟨_, ⟨first, hfirst, rest, hrest, rfl⟩, Outcome.open_append.mpr (.inr hopen)⟩
    · rintro ⟨_, ⟨first, hfirst, rest, hrest, rfl⟩, hopen⟩
      rcases Outcome.open_append.mp hopen with hopen | hopen
      · exact .inl ⟨first, hfirst, hopen⟩
      · exact .inr ⟨rest, hrest, hopen⟩

theorem any_hasOpen_iff_ranked (es : List Expr) (handed : Option String) :
    es.any hasOpen = true ↔ ∃ outcome ∈ outcomesRanked handed es, outcome.Open := by
  induction es generalizing handed with
  | nil => simp [outcomesRanked]
  | cons e es ih =>
    rw [List.any_cons, Bool.or_eq_true, e.hasOpen_iff handed, ih (e.distribute handed).2,
      outcomesRanked]
    simp only [List.mem_append, or_and_right, exists_or]

theorem hasOpen_sequence (items : List Expr) : (sequence items).hasOpen = items.any hasOpen := by
  rw [Bool.eq_iff_iff, hasOpen_iff _ none, any_hasOpen_iff_along items none]
  rfl

theorem hasOpen_fallback (branches : List Expr) :
    (fallback branches).hasOpen = branches.any hasOpen := by
  rw [Bool.eq_iff_iff, hasOpen_iff _ none, any_hasOpen_iff_ranked branches none]
  cases branches with
  | nil => simp [outcomes, outcomesRanked, Outcome.Open]
  | cons e es => rfl

theorem hasOpen_alternative (branches : List Expr) :
    (alternative branches).hasOpen = branches.any hasOpen :=
  hasOpen_fallback branches

/-- An expression that spends a description has an open literal. -/
theorem hasOpen_of_spends {e : Expr} (h : e.spends = true) : e.hasOpen = true := by
  have hany : ∀ es : List Expr, (∀ e ∈ es, e.spends = true → e.hasOpen = true) →
      spendsAny es = true → es.any hasOpen = true := by
    intro es hes hspends
    induction es with
    | nil => cases hspends
    | cons e es ih =>
      rw [List.any_cons, Bool.or_eq_true]
      rcases Bool.or_eq_true_iff.mp hspends with hspends | hspends
      · exact .inl (hes e (by simp) hspends)
      · exact .inr (ih (fun x hx => hes x (by simp [hx])) hspends)
  induction e with
  | literal text description level span =>
    cases description with
    | none => rfl
    | some own => cases h
  | reference | command | alternative | described => cases h
  | sequence items ih => exact (hasOpen_sequence items).trans (hany items ih h)
  | fallback branches ih => exact (hasOpen_fallback branches).trans (hany branches ih h)
  | optional item ih => exact ih h
  | repeated item ih => exact ih h
  | subword body level span ih => exact ih h

/-- An expression without open literals hands everything on. -/
theorem snd_distribute_of_not_hasOpen {e : Expr} (h : e.hasOpen = false) (handed : Option String) :
    (e.distribute handed).2 = handed := by
  rw [snd_distribute, if_neg]
  intro hspends
  rw [hasOpen_of_spends hspends] at h
  cases h

/-! ### Which literals are given a description -/

/-- What is handed on is either the description or nothing. -/
theorem eq_or_given_of_rest {e : Expr} {handed : Option String} {p : Option String × Option String}
    (h : p.2 = p.1 ∨ p.1 = none ∧ p.2 = (e.distribute handed).2) :
    p.2 = p.1 ∨ p.1 = none ∧ p.2 = handed := by
  rw [snd_distribute] at h
  split at h
  · exact .inl (h.elim id fun hnone => hnone.2.trans hnone.1.symm)
  · exact h

section

variable {es : List Expr} (hes : ∀ e ∈ es, ∀ handed, ∀ outcome ∈ e.outcomes handed,
  ∀ p ∈ outcome, p.2 = p.1 ∨ p.1 = none ∧ p.2 = handed)

include hes

/-- A place in a sequence keeps what it has, or it is open and gets what is handed over. -/
theorem eq_or_given_of_mem_outcomesAlong (handed : Option String) :
    ∀ outcome ∈ outcomesAlong handed es, ∀ p ∈ outcome, p.2 = p.1 ∨ p.1 = none ∧ p.2 = handed := by
  induction es generalizing handed with
  | nil => simp [outcomesAlong]
  | cons e es ih =>
    intro outcome houtcome p hp
    obtain ⟨first, hfirst, rest, hrest, rfl⟩ := mem_outcomesAlong_cons.mp houtcome
    rcases List.mem_append.mp hp with hp | hp
    · exact hes e (by simp) handed first hfirst p hp
    · exact eq_or_given_of_rest (ih (fun x hx => hes x (by simp [hx])) _ rest hrest p hp)

/-- A place in an alternative keeps what it has, or it is open and gets what is handed over. -/
theorem eq_or_given_of_mem_outcomesEach (handed : Option String) :
    ∀ outcome ∈ outcomesEach handed es, ∀ p ∈ outcome, p.2 = p.1 ∨ p.1 = none ∧ p.2 = handed := by
  induction es with
  | nil => simp [outcomesEach]
  | cons e es ih =>
    intro outcome houtcome p hp
    rcases List.mem_append.mp houtcome with houtcome | houtcome
    · exact hes e (by simp) handed outcome houtcome p hp
    · exact ih (fun x hx => hes x (by simp [hx])) outcome houtcome p hp

theorem eq_or_given_of_mem_outcomesRanked (handed : Option String) :
    ∀ outcome ∈ outcomesRanked handed es, ∀ p ∈ outcome, p.2 = p.1 ∨ p.1 = none ∧ p.2 = handed := by
  induction es generalizing handed with
  | nil => simp [outcomesRanked]
  | cons e es ih =>
    intro outcome houtcome p hp
    rcases List.mem_append.mp houtcome with houtcome | houtcome
    · exact hes e (by simp) handed outcome houtcome p hp
    · exact eq_or_given_of_rest (ih (fun x hx => hes x (by simp [hx])) _ outcome houtcome p hp)

end

/-- A literal of a variant either keeps what it has or has nothing and gets the description. -/
theorem eq_or_given_of_mem_outcomes (e : Expr) (handed : Option String) :
    ∀ outcome ∈ e.outcomes handed, ∀ p ∈ outcome, p.2 = p.1 ∨ p.1 = none ∧ p.2 = handed := by
  induction e generalizing handed with
  | literal text description level span => cases description <;> simp [outcomes]
  | reference | command | described => simp [outcomes]
  | sequence items ih => exact eq_or_given_of_mem_outcomesAlong ih handed
  | alternative branches ih =>
    rw [outcomes]
    split
    · simp
    · exact eq_or_given_of_mem_outcomesEach ih handed
  | fallback branches ih =>
    rw [outcomes]
    split
    · simp
    · exact eq_or_given_of_mem_outcomesRanked ih handed
  | optional item ih => exact ih handed
  | repeated item ih => exact ih handed
  | subword body level span ih => exact ih handed

/-- A variant is kept as it is if nothing is handed over or no place of it is open. -/
theorem kept_of_mem_outcomes {outcomes : List Outcome} {handed : Option String}
    (h : ∀ outcome ∈ outcomes, ∀ p ∈ outcome, p.2 = p.1 ∨ p.1 = none ∧ p.2 = handed)
    {outcome : Outcome} (houtcome : outcome ∈ outcomes) (hkept : handed = none ∨ ¬ outcome.Open) :
    outcome.Kept := by
  refine List.map_congr_left fun p hp => ?_
  rcases h outcome houtcome p hp with hsame | ⟨hnone, hgiven⟩
  · exact hsame
  · rcases hkept with hempty | hopen
    · rw [hnone, hgiven, hempty]
    · exact (hopen (List.mem_map.mpr ⟨p, hp, hnone⟩)).elim

section

variable {es : List Expr} {description : String} (hes : ∀ e ∈ es, e.hasOpen = true →
  ∃ outcome ∈ e.outcomes (some description), (none, some description) ∈ outcome)
  (hopen : es.any hasOpen = true)

include hes hopen

/-- Some open place in a sequence with an open literal gets the description. -/
theorem exists_given_along : ∃ outcome ∈ outcomesAlong (some description) es,
    (none, some description) ∈ outcome := by
  induction es with
  | nil => cases hopen
  | cons e es ih =>
    cases hfirst : e.hasOpen with
    | true =>
      obtain ⟨first, hmem, hgiven⟩ := hes e (by simp) hfirst
      obtain ⟨rest, hrest⟩ := exists_mem_outcomes_list es (e.distribute (some description)).2
      exact ⟨first ++ rest, mem_outcomesAlong_cons.mpr ⟨first, hmem, rest, hrest, rfl⟩,
        List.mem_append_left _ hgiven⟩
    | false =>
      rw [List.any_cons, hfirst, Bool.false_or] at hopen
      obtain ⟨rest, hrest, hgiven⟩ := ih (fun x hx => hes x (by simp [hx])) hopen
      obtain ⟨first, hmem⟩ := e.exists_mem_outcomes (some description)
      rw [← snd_distribute_of_not_hasOpen hfirst (some description)] at hrest
      exact ⟨first ++ rest, mem_outcomesAlong_cons.mpr ⟨first, hmem, rest, hrest, rfl⟩,
        List.mem_append_right _ hgiven⟩

/-- Some open place in an alternative with an open literal gets the description. -/
theorem exists_given_each : ∃ outcome ∈ outcomesEach (some description) es,
    (none, some description) ∈ outcome := by
  induction es with
  | nil => cases hopen
  | cons e es ih =>
    rcases Bool.or_eq_true_iff.mp hopen with hfirst | hothers
    · obtain ⟨outcome, hmem, hgiven⟩ := hes e (by simp) hfirst
      exact ⟨outcome, List.mem_append_left _ hmem, hgiven⟩
    · obtain ⟨outcome, hmem, hgiven⟩ := ih (fun x hx => hes x (by simp [hx])) hothers
      exact ⟨outcome, List.mem_append_right _ hmem, hgiven⟩

theorem exists_given_ranked : ∃ outcome ∈ outcomesRanked (some description) es,
    (none, some description) ∈ outcome := by
  induction es with
  | nil => cases hopen
  | cons e es ih =>
    cases hfirst : e.hasOpen with
    | true =>
      obtain ⟨outcome, hmem, hgiven⟩ := hes e (by simp) hfirst
      exact ⟨outcome, List.mem_append_left _ hmem, hgiven⟩
    | false =>
      rw [List.any_cons, hfirst, Bool.false_or] at hopen
      obtain ⟨outcome, hmem, hgiven⟩ := ih (fun x hx => hes x (by simp [hx])) hopen
      rw [← snd_distribute_of_not_hasOpen hfirst (some description)] at hmem
      exact ⟨outcome, List.mem_append_right _ hmem, hgiven⟩

end

/-- If there are open literals, one of them gets the description. -/
theorem exists_given {e : Expr} (h : e.hasOpen = true) (description : String) :
    ∃ outcome ∈ e.outcomes (some description), (none, some description) ∈ outcome := by
  induction e with
  | literal text own level span =>
    cases own with
    | none => exact ⟨_, List.mem_singleton_self _, List.mem_singleton_self _⟩
    | some own => cases h
  | reference | command | described => cases h
  | sequence items ih => exact exists_given_along ih ((hasOpen_sequence items).symm.trans h)
  | alternative branches ih =>
    have hany := (hasOpen_alternative branches).symm.trans h
    obtain ⟨outcome, hmem, hgiven⟩ := exists_given_each ih hany
    cases branches with
    | nil => cases hany
    | cons => exact ⟨outcome, hmem, hgiven⟩
  | fallback branches ih =>
    have hany := (hasOpen_fallback branches).symm.trans h
    obtain ⟨outcome, hmem, hgiven⟩ := exists_given_ranked ih hany
    cases branches with
    | nil => cases hany
    | cons => exact ⟨outcome, hmem, hgiven⟩
  | optional item ih => exact ih h
  | repeated item ih => exact ih h
  | subword body level span ih => exact ih h

end Expr

end ShellCompletion
