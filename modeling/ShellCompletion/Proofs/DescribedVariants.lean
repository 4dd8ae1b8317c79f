import ShellCompletion.Grammar.Parser
import ShellCompletion.Proofs.Variants

/-!
# Descriptions of groups

The description of a group is meant for the first literal of every variant. It is handed from left to
right, though: the branches of a fallback share it, and behind an alternative it is handed on even if it
was given to a literal there. So it comes to the right literals exactly if the group shares it evenly.
-/

namespace ShellCompletion

/-- Give a description to the first literal that has none. -/
def giveFirst (description : String) : List (Option String) → List (Option String)
  | [] => []
  | none :: others => some description :: others
  | some own :: others => some own :: giveFirst description others

theorem length_giveFirst (description : String) (descriptions : List (Option String)) :
    (giveFirst description descriptions).length = descriptions.length := by
  fun_induction giveFirst description descriptions with
  | case1 => rfl
  | case2 => rfl
  | case3 own others ih => rw [List.length_cons, List.length_cons, ih]

/-- A description is given to no literal if all have one. -/
theorem giveFirst_of_not_mem (description : String) {descriptions : List (Option String)}
    (h : none ∉ descriptions) : giveFirst description descriptions = descriptions := by
  fun_induction giveFirst description descriptions with
  | case1 => rfl
  | case2 => simp at h
  | case3 own others ih => rw [ih (by simpa using h)]

/-- All literals have a description if none gets one. -/
theorem not_mem_of_giveFirst_eq {description : String} {descriptions : List (Option String)}
    (h : giveFirst description descriptions = descriptions) : none ∉ descriptions := by
  fun_induction giveFirst description descriptions with
  | case1 => simp
  | case2 => simp at h
  | case3 own others ih => simpa using ih (List.cons.inj h).2

/-- The first open literal of two parts is that of the first part, if it has one. -/
theorem giveFirst_append (description : String) (first rest : List (Option String)) :
    giveFirst description (first ++ rest) =
      giveFirst description first ++ if none ∈ first then rest else giveFirst description rest := by
  fun_induction giveFirst description first with
  | case1 => simp
  | case2 => simp [giveFirst]
  | case3 own others ih => simpa [giveFirst] using ih

namespace Outcome

/-- Whether the description is given to the first literal without one and to no other. -/
def Fits (description : String) (outcome : Outcome) : Prop :=
  outcome.map Prod.snd = giveFirst description (outcome.map Prod.fst)

/-- Where nothing is given, the description fits only if there is no literal for it. -/
theorem Kept.fits_iff {outcome : Outcome} (h : outcome.Kept) (description : String) :
    outcome.Fits description ↔ ¬ outcome.Open := by
  rw [Fits, h]
  exact ⟨fun heq => not_mem_of_giveFirst_eq heq.symm, fun hopen => (giveFirst_of_not_mem _ hopen).symm⟩

/-- Two parts of a variant fit if the first one does and the second gets the description only if the
first has no open place. -/
theorem fits_append {description : String} {first rest : Outcome} :
    Fits description (first ++ rest) ↔ first.Fits description ∧
      (first.Open → rest.Kept) ∧ (¬ first.Open → rest.Fits description) := by
  have hlength : (first.map Prod.snd).length =
      (giveFirst description (first.map Prod.fst)).length := by
    rw [length_giveFirst, List.length_map, List.length_map]
  rw [Fits, List.map_append, List.map_append, giveFirst_append]
  constructor
  · intro h
    obtain ⟨hfirst, hrest⟩ := List.append_inj h hlength
    exact ⟨hfirst, fun hopen => hrest.trans (if_pos hopen), fun hopen => hrest.trans (if_neg hopen)⟩
  · rintro ⟨hfirst, hopen, hclosed⟩
    rw [hfirst]
    split
    · next h => rw [hopen h]
    · next h => rw [hclosed h]

end Outcome

namespace Expr

mutual

/-- Whether the literals without a description stand where one that is handed on is shared evenly. In a
sequence only the first item with such a literal may have one, unless that item has one in each of its
variants and spends the description. No branch of a fallback may have one behind a branch that spends the
description. -/
def sharesEvenly : Expr → Bool
  | .literal .. => true
  | .reference .. => true
  | .command .. => true
  | .sequence items => sharesEvenlyAlong items
  | .alternative branches => sharesEvenlyEach branches
  | .fallback branches => sharesEvenlyRanked branches
  | .optional item => item.sharesEvenly
  | .repeated item => item.sharesEvenly
  | .described .. => true
  | .subword body _ _ => body.sharesEvenly

/-- Whether one expression after the other shares a description evenly. -/
def sharesEvenlyAlong : List Expr → Bool
  | [] => true
  | e :: es => e.sharesEvenly &&
    if e.hasOpen then !es.any hasOpen || e.spends && !e.avoidsOpen else sharesEvenlyAlong es

/-- Whether each of several expressions shares a description evenly. -/
def sharesEvenlyEach : List Expr → Bool
  | [] => true
  | e :: es => e.sharesEvenly && sharesEvenlyEach es

/-- Whether expressions that a description is handed along share it evenly if one of them is chosen. -/
def sharesEvenlyRanked : List Expr → Bool
  | [] => true
  | e :: es => e.sharesEvenly && if e.spends then !es.any hasOpen else sharesEvenlyRanked es

end

/-! ### Where the description comes to the right literals -/

/-- The variants of a sequence fit if those of its first item do and the others get the description only
behind a way past open literals. -/
theorem fits_along_cons_iff {e : Expr} {es : List Expr} {description : String} :
    (∀ outcome ∈ outcomesAlong (some description) (e :: es), outcome.Fits description) ↔
      (∀ outcome ∈ e.outcomes (some description), outcome.Fits description) ∧
      (e.hasOpen = true →
        ∀ rest ∈ outcomesAlong (e.distribute (some description)).2 es, rest.Kept) ∧
      (e.avoidsOpen = true →
        ∀ rest ∈ outcomesAlong (e.distribute (some description)).2 es, rest.Fits description) := by
  rw [e.hasOpen_iff (some description), e.avoidsOpen_iff (some description)]
  constructor
  · intro h
    have hboth : ∀ first ∈ e.outcomes (some description),
        ∀ rest ∈ outcomesAlong (e.distribute (some description)).2 es,
          first.Fits description ∧ (first.Open → rest.Kept) ∧
            (¬ first.Open → rest.Fits description) := fun first hfirst rest hrest =>
      Outcome.fits_append.mp (h _ (mem_outcomesAlong_cons.mpr ⟨first, hfirst, rest, hrest, rfl⟩))
    refine ⟨fun first hfirst => ?_, ?_, ?_⟩
    · obtain ⟨rest, hrest⟩ := exists_mem_outcomes_list es (e.distribute (some description)).2
      exact (hboth first hfirst rest hrest).1
    · rintro ⟨first, hfirst, hopen⟩ rest hrest
      exact (hboth first hfirst rest hrest).2.1 hopen
    · rintro ⟨first, hfirst, hopen⟩ rest hrest
      exact (hboth first hfirst rest hrest).2.2 hopen
  · rintro ⟨hfits, hkept, hothers⟩ outcome houtcome
    obtain ⟨first, hfirst, rest, hrest, rfl⟩ := mem_outcomesAlong_cons.mp houtcome
    exact Outcome.fits_append.mpr ⟨hfits first hfirst, fun hopen => hkept ⟨first, hfirst, hopen⟩ rest hrest,
      fun hopen => hothers ⟨first, hfirst, hopen⟩ rest hrest⟩

/-- A variant of a sequence is kept if nothing is handed over or no place of it is open. -/
theorem kept_of_mem_outcomesAlong {es : List Expr} {handed : Option String} {outcome : Outcome}
    (h : outcome ∈ outcomesAlong handed es) (hkept : handed = none ∨ ¬ outcome.Open) : outcome.Kept :=
  kept_of_mem_outcomes
    (eq_or_given_of_mem_outcomesAlong (fun e _ => e.eq_or_given_of_mem_outcomes) handed) h hkept

theorem kept_of_mem_outcomesRanked {es : List Expr} {handed : Option String} {outcome : Outcome}
    (h : outcome ∈ outcomesRanked handed es) (hkept : handed = none ∨ ¬ outcome.Open) : outcome.Kept :=
  kept_of_mem_outcomes
    (eq_or_given_of_mem_outcomesRanked (fun e _ => e.eq_or_given_of_mem_outcomes) handed) h hkept

/-- The description is not given to any of a list exactly if there is no literal for it. -/
theorem kept_along_iff (es : List Expr) (description : String) :
    (∀ rest ∈ outcomesAlong (some description) es, rest.Kept) ↔ es.any hasOpen = false := by
  constructor
  · intro h
    rw [Bool.eq_false_iff]
    intro hopen
    obtain ⟨outcome, hmem, hgiven⟩ :=
      exists_given_along (fun e _ he => exists_given he description) hopen
    have hsame := List.map_inj_left.mp (h outcome hmem) _ hgiven
    cases hsame
  · intro h rest hrest
    refine kept_of_mem_outcomesAlong hrest (.inr fun hopen => ?_)
    rw [(any_hasOpen_iff_along es (some description)).mpr ⟨rest, hrest, hopen⟩] at h
    cases h

/-- Where nothing is handed along, a description fits exactly if there is no literal for it. -/
theorem fits_along_none_iff (es : List Expr) (description : String) :
    (∀ rest ∈ outcomesAlong none es, rest.Fits description) ↔ es.any hasOpen = false := by
  rw [Bool.eq_false_iff, ne_eq, any_hasOpen_iff_along es none, not_exists]
  refine forall_congr' fun rest => ?_
  rw [not_and]
  exact forall_congr' fun hrest => (kept_of_mem_outcomesAlong hrest (.inl rfl)).fits_iff description

theorem fits_ranked_none_iff (es : List Expr) (description : String) :
    (∀ rest ∈ outcomesRanked none es, rest.Fits description) ↔ es.any hasOpen = false := by
  rw [Bool.eq_false_iff, ne_eq, any_hasOpen_iff_ranked es none, not_exists]
  refine forall_congr' fun rest => ?_
  rw [not_and]
  exact forall_congr' fun hrest => (kept_of_mem_outcomesRanked hrest (.inl rfl)).fits_iff description

/-- An expression without open literals has a way past them. -/
theorem avoidsOpen_of_not_hasOpen {e : Expr} (h : e.hasOpen = false) : e.avoidsOpen = true := by
  obtain ⟨outcome, houtcome⟩ := e.exists_mem_outcomes none
  rw [avoidsOpen_iff e none]
  refine ⟨outcome, houtcome, fun hopen => ?_⟩
  rw [(hasOpen_iff e none).mpr ⟨outcome, houtcome, hopen⟩] at h
  cases h

section

variable {es : List Expr} {description : String} (hes : ∀ e ∈ es,
  (∀ outcome ∈ e.outcomes (some description), outcome.Fits description) ↔ e.sharesEvenly = true)

include hes

/-- The variants of a sequence fit exactly if it shares evenly. -/
theorem fits_along_iff : (∀ outcome ∈ outcomesAlong (some description) es,
    outcome.Fits description) ↔ sharesEvenlyAlong es = true := by
  induction es with
  | nil => simp [outcomesAlong, sharesEvenlyAlong, Outcome.Fits, giveFirst]
  | cons e es ih =>
    have hothers := ih fun x hx => hes x (by simp [hx])
    rw [fits_along_cons_iff, hes e (by simp), sharesEvenlyAlong, Bool.and_eq_true]
    refine and_congr_right fun _ => ?_
    cases hopen : e.hasOpen with
    | false =>
      -- the description is handed on as it is
      rw [snd_distribute_of_not_hasOpen hopen, hothers, avoidsOpen_of_not_hasOpen hopen]
      simp
    | true =>
      rw [snd_distribute]
      cases hspends : e.spends with
      | false =>
        -- the item keeps the description for those behind, which must not have a use for it
        simp only [Bool.false_eq_true, if_false, if_true, kept_along_iff, hothers, true_imp_iff,
          Bool.false_and, Bool.or_false, Bool.not_eq_true']
        refine and_iff_left_of_imp fun hnone _ => hothers.mp fun rest hrest => ?_
        exact ((kept_along_iff es description).mpr hnone rest hrest).fits_iff description |>.mpr
          fun hyes => by
            rw [(any_hasOpen_iff_along es (some description)).mpr ⟨rest, hrest, hyes⟩] at hnone
            cases hnone
      | true =>
        have hkept : ∀ rest ∈ outcomesAlong none es, rest.Kept := fun rest hrest =>
          kept_of_mem_outcomesAlong hrest (.inl rfl)
        simp only [if_true, fits_along_none_iff, true_imp_iff, Bool.true_and,
          and_iff_right hkept]
        cases e.avoidsOpen <;> simp

/-- The variants of an alternative fit exactly if it shares evenly. -/
theorem fits_each_iff : (∀ outcome ∈ outcomesEach (some description) es,
    outcome.Fits description) ↔ sharesEvenlyEach es = true := by
  induction es with
  | nil => simp [outcomesEach, sharesEvenlyEach]
  | cons e es ih =>
    rw [outcomesEach, sharesEvenlyEach, Bool.and_eq_true, List.forall_mem_append,
      hes e (by simp), ih fun x hx => hes x (by simp [hx])]

/-- The variants of a fallback fit exactly if it shares evenly. -/
theorem fits_ranked_iff : (∀ outcome ∈ outcomesRanked (some description) es,
    outcome.Fits description) ↔ sharesEvenlyRanked es = true := by
  induction es with
  | nil => simp [outcomesRanked, sharesEvenlyRanked]
  | cons e es ih =>
    have hothers := ih fun x hx => hes x (by simp [hx])
    rw [outcomesRanked, sharesEvenlyRanked, Bool.and_eq_true, List.forall_mem_append,
      hes e (by simp), snd_distribute]
    refine and_congr_right fun _ => ?_
    cases e.spends with
    | false => exact hothers
    | true =>
      simp only [if_true, Bool.not_eq_true']
      exact fits_ranked_none_iff es description

end

/-- A description comes to the right literals exactly if the expression shares it evenly. -/
theorem fits_outcomes_iff (e : Expr) (description : String) :
    (∀ outcome ∈ e.outcomes (some description), outcome.Fits description) ↔
      e.sharesEvenly = true := by
  have hempty : ∀ outcome ∈ ([[]] : List Outcome), outcome.Fits description := by
    simp [Outcome.Fits, giveFirst]
  induction e with
  | literal text own level span =>
    cases own <;> simp [outcomes, sharesEvenly, Outcome.Fits, giveFirst]
  | reference | command | described => simpa [outcomes, sharesEvenly] using hempty
  | sequence items ih => exact fits_along_iff ih
  | alternative branches ih =>
    cases branches with
    | nil => simpa [outcomes, sharesEvenly, sharesEvenlyEach] using hempty
    | cons e es => exact fits_each_iff ih
  | fallback branches ih =>
    cases branches with
    | nil => simpa [outcomes, sharesEvenly, sharesEvenlyRanked] using hempty
    | cons e es => exact fits_ranked_iff ih
  | optional item ih => exact ih
  | repeated item ih => exact ih
  | subword body level span ih => exact ih

end Expr

/-! ### Groups in an expression -/

/-- The variants of a group, with the places that its literals have in the whole expression. -/
def Group.variants (g : Group) : List (List ℕ) := g.item.variants.map (shifted g.before)

/-- What stands along the places of a part stands along the same places of the whole. -/
theorem StandsAt.along_shifted {part whole : List (Option String)} {place : ℕ}
    (h : StandsAt part whole place) {places : List ℕ} (hplaces : ∀ k ∈ places, k < part.length) :
    along whole (shifted place places) = along part places := by
  rw [along, shifted, List.map_map]
  refine List.map_congr_left fun k hk => ?_
  rw [Function.comp_apply, List.getD_eq_getElem?_getD, List.getD_eq_getElem?_getD,
    h.getElem?_add (hplaces k hk)]

theorem getElem?_eq_of_getD {descriptions : List (Option String)} {k : ℕ}
    (hk : k < descriptions.length) {found : Option String} (h : descriptions.getD k none = found) :
    descriptions[k]? = some found := by
  rw [← h, List.getD_eq_getElem _ _ hk, List.getElem?_eq_getElem hk]

namespace Expr

/-- The variants go through the places of the literals also after distribution. -/
theorem lt_of_mem_variants_distribute {e : Expr} (handed : Option String) {variant : List ℕ}
    (h : variant ∈ e.variants) : ∀ k ∈ variant, k < (e.distribute handed).1.descriptions.length := by
  rw [length_descriptions_distribute]
  exact e.lt_of_mem_variants variant h

/-- In every variant of a described group the description comes to the first literal that has none and
lies in no other group inside, and to no other one, exactly if the group shares its description evenly. -/
theorem given_first_iff {e : Expr} {g : Group} (hg : g ∈ e.groups) :
    (∀ variant ∈ g.variants, along e.distributed.descriptions variant =
        giveFirst g.description (along e.descriptions variant)) ↔
      g.item.sharesEvenly = true := by
  obtain ⟨hbefore, hafter⟩ := e.settledIn_of_mem_groups none g hg
  rw [← fits_outcomes_iff g.item g.description, outcomes_eq, List.forall_mem_map, Group.variants,
    List.forall_mem_map]
  refine forall_congr' fun variant => forall_congr' fun hvariant => ?_
  rw [Outcome.Fits, map_fst_bothAlong, map_snd_bothAlong, distributed,
    hafter.along_shifted (lt_of_mem_variants_distribute _ hvariant),
    hbefore.along_shifted (g.item.lt_of_mem_variants variant hvariant)]

/-- Distribution loses and invents nothing. It leaves no described group, and apart from descriptions it
changes nothing else. A literal keeps its own description, and one that it gets is that of the innermost
group around it. The description of a group comes to one of the literals that it is for, if there are any. -/
theorem distributed_faithful (e : Expr) :
    e.distributed.groups = [] ∧
      e.distributed.blanked = e.ungrouped.blanked ∧
      List.Forall₂ Caption.Allows (e.captions none) e.distributed.descriptions ∧
      ∀ g ∈ e.groups, g.item.hasOpen = true → ∃ variant ∈ g.variants, ∃ k ∈ variant,
        e.descriptions[k]? = some none ∧ e.distributed.descriptions[k]? = some (some g.description) := by
  refine ⟨e.groups_distribute none, e.blanked_distribute none, e.allows_distribute (by simp), ?_⟩
  intro g hg hopen
  obtain ⟨hbefore, hafter⟩ := e.settledIn_of_mem_groups none g hg
  obtain ⟨outcome, houtcome, hgiven⟩ := exists_given hopen g.description
  rw [outcomes_eq] at houtcome
  obtain ⟨variant, hvariant, rfl⟩ := List.mem_map.mp houtcome
  obtain ⟨k, hk, hpair⟩ := List.mem_map.mp hgiven
  have hlt := g.item.lt_of_mem_variants variant hvariant k hk
  have hlt' := lt_of_mem_variants_distribute (some g.description) hvariant k hk
  obtain ⟨hnone, hsome⟩ := Prod.mk.inj hpair
  refine ⟨shifted g.before variant, List.mem_map_of_mem hvariant, g.before + k,
    List.mem_map_of_mem hk, ?_, ?_⟩
  · exact (hbefore.getElem?_add hlt).trans (getElem?_eq_of_getD hlt hnone)
  · exact (hafter.getElem?_add hlt').trans (getElem?_eq_of_getD hlt' hsome)

/-- What may follow the command in `mygrep (--color=<WHEN> | --color <WHEN>) "highlight";`. -/
def describedOption : Expr := .described (.alternative [
  .subword (.sequence [.literal "--color=" none 0 (some ⟨0, 8, 16⟩),
    .reference "WHEN" 0 (some ⟨0, 16, 22⟩)]) 0 (some ⟨0, 8, 22⟩),
  .sequence [.literal "--color" none 0 (some ⟨0, 25, 32⟩),
    .reference "WHEN" 0 (some ⟨0, 33, 39⟩)]]) "highlight"

/-- Both spellings of the option get its description. -/
theorem given_first_describedOption :
    Grammar.parse "mygrep (--color=<WHEN> | --color <WHEN>) \"highlight\";" =
        .ok ⟨[.call "mygrep" describedOption]⟩ ∧
      ∃ g ∈ describedOption.groups, g.variants = [[0], [1]] ∧
        ∀ variant ∈ g.variants, along describedOption.distributed.descriptions variant =
          giveFirst g.description (along describedOption.descriptions variant) := by
  refine ⟨by decide +kernel, _, List.mem_singleton_self _, by decide, ?_⟩
  exact (given_first_iff (List.mem_singleton_self _)).mpr (by decide)

/-- Distribution gives the description to the literals of both spellings and changes nothing else. -/
theorem distributed_faithful_describedOption :
    describedOption.distributed = .alternative [
      .subword (.sequence [.literal "--color=" (some "highlight") 0 (some ⟨0, 8, 16⟩),
        .reference "WHEN" 0 (some ⟨0, 16, 22⟩)]) 0 (some ⟨0, 8, 22⟩),
      .sequence [.literal "--color" (some "highlight") 0 (some ⟨0, 25, 32⟩),
        .reference "WHEN" 0 (some ⟨0, 33, 39⟩)]] ∧
      describedOption.distributed.blanked = describedOption.ungrouped.blanked ∧
      ∃ g ∈ describedOption.groups, g.item.hasOpen = true ∧
        ∃ variant ∈ g.variants, ∃ k ∈ variant, describedOption.descriptions[k]? = some none ∧
          describedOption.distributed.descriptions[k]? = some (some g.description) := by
  obtain ⟨-, hblanked, -, hgiven⟩ := distributed_faithful describedOption
  exact ⟨rfl, hblanked, _, List.mem_singleton_self _, by decide,
    hgiven _ (List.mem_singleton_self _) (by decide)⟩

/-- What may follow the command in `cmd (foo || bar) "d";`. -/
def describedFallback : Expr := .described (.fallback [.literal "foo" none 0 (some ⟨0, 5, 8⟩),
  .literal "bar" none 0 (some ⟨0, 12, 15⟩)]) "d"

/-- What may follow the command in `cmd ((foo | bar) baz) "d";`. -/
def describedPair : Expr := .described (.sequence [
  .alternative [.literal "foo" none 0 (some ⟨0, 6, 9⟩), .literal "bar" none 0 (some ⟨0, 12, 15⟩)],
  .literal "baz" none 0 (some ⟨0, 17, 20⟩)]) "d"

/-- The second branch of a fallback gets no description, and a literal behind an alternative gets one
after a literal in the alternative. -/
theorem not_given_first_describedFallback :
    Grammar.parse "cmd (foo || bar) \"d\";" = .ok ⟨[.call "cmd" describedFallback]⟩ ∧
      (∃ g ∈ describedFallback.groups, [1] ∈ g.variants ∧
        along describedFallback.distributed.descriptions [1] = [none] ∧
        giveFirst g.description (along describedFallback.descriptions [1]) = [some "d"]) ∧
    Grammar.parse "cmd ((foo | bar) baz) \"d\";" = .ok ⟨[.call "cmd" describedPair]⟩ ∧
      ∃ g ∈ describedPair.groups, [0, 2] ∈ g.variants ∧
        along describedPair.distributed.descriptions [0, 2] = [some "d", some "d"] ∧
        giveFirst g.description (along describedPair.descriptions [0, 2]) = [some "d", none] := by
  refine ⟨by decide +kernel, ⟨_, List.mem_singleton_self _, by decide, by decide, by decide⟩,
    by decide +kernel, _, List.mem_singleton_self _, by decide, by decide, by decide⟩

end Expr

end ShellCompletion
