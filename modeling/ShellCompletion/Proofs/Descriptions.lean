import Mathlib.Data.List.Forall2
import Mathlib.Data.Nat.Notation
import ShellCompletion.Proofs.Expressions

/-!
# Descriptions of literals

The literals of an expression are numbered from left to right. Distribution removes the described groups
and leaves everything else where it was, so a literal keeps its number. It also keeps the description that
it has, and one that it gets comes from the innermost group around it. What happens inside a group depends
on that group alone.
-/

namespace ShellCompletion

/-! ### Parts of lists -/

/-- Whether a list stands in another one from the given place on. -/
def StandsAt {α : Type} (part whole : List α) (place : ℕ) : Prop :=
  ∃ left right, whole = left ++ part ++ right ∧ left.length = place

namespace StandsAt

variable {α : Type} {part whole : List α} {place : ℕ}

theorem self (part : List α) : StandsAt part part 0 := ⟨[], [], by simp, rfl⟩

theorem append (h : StandsAt part whole place) (behind : List α) :
    StandsAt part (whole ++ behind) place := by
  obtain ⟨left, right, rfl, hlength⟩ := h
  exact ⟨left, right ++ behind, by simp, hlength⟩

theorem append_left (h : StandsAt part whole place) (before : List α) :
    StandsAt part (before ++ whole) (place + before.length) := by
  obtain ⟨left, right, rfl, hlength⟩ := h
  exact ⟨before ++ left, right, by simp, by rw [List.length_append, hlength, Nat.add_comm]⟩

/-- What stands in a part stands in the whole at the place of the part. -/
theorem getElem?_add (h : StandsAt part whole place) {k : ℕ} (hk : k < part.length) :
    whole[place + k]? = part[k]? := by
  obtain ⟨left, right, rfl, rfl⟩ := h
  rw [List.append_assoc, List.getElem?_append_right (Nat.le_add_right _ _), Nat.add_sub_cancel_left,
    List.getElem?_append_left hk]

end StandsAt

/-! ### Literals and groups -/

/-- The descriptions at a literal: its own one, and that of the innermost described group around it. -/
structure Caption where
  /-- The description of the literal itself. -/
  own : Option String
  /-- The description of the innermost group. -/
  group : Option String

/-- Whether a description may be found at a literal when descriptions are distributed: the literal keeps
its own one, and if it gets one, it is that of the innermost group. -/
def Caption.Allows (c : Caption) (found : Option String) : Prop :=
  (∀ text, c.own = some text → found = some text) ∧
    ∀ text, c.own = none → found = some text → c.group = some text

/-- A described group in an expression. -/
structure Group where
  /-- What the group consists of. -/
  item : Expr
  /-- The description of the group. -/
  description : String
  /-- The number of literals to the left of the group. -/
  before : ℕ

/-- The group when literals are put to the left of the expression that it is in. -/
def Group.behind (literals : ℕ) (g : Group) : Group := { g with before := g.before + literals }

namespace Expr

mutual

/-- The descriptions of the literals, from left to right. -/
def descriptions : Expr → List (Option String)
  | .literal _ description _ _ => [description]
  | .reference .. => []
  | .command .. => []
  | .sequence items => descriptionsAll items
  | .alternative branches => descriptionsAll branches
  | .fallback branches => descriptionsAll branches
  | .optional item => item.descriptions
  | .repeated item => item.descriptions
  | .described item _ => item.descriptions
  | .subword body _ _ => body.descriptions

/-- The descriptions of the literals of a list of expressions. -/
def descriptionsAll : List Expr → List (Option String)
  | [] => []
  | e :: es => e.descriptions ++ descriptionsAll es

end

mutual

/-- The captions of the literals, from left to right, if the expression stands directly in a group with
the given description or in none. -/
def captions (group : Option String) : Expr → List Caption
  | .literal _ description _ _ => [⟨description, group⟩]
  | .reference .. => []
  | .command .. => []
  | .sequence items => captionsAll group items
  | .alternative branches => captionsAll group branches
  | .fallback branches => captionsAll group branches
  | .optional item => item.captions group
  | .repeated item => item.captions group
  | .described item description => item.captions (some description)
  | .subword body _ _ => body.captions group

/-- The captions of the literals of a list of expressions. -/
def captionsAll (group : Option String) : List Expr → List Caption
  | [] => []
  | e :: es => e.captions group ++ captionsAll group es

end

mutual

/-- The described groups of an expression, those inside of others included. -/
def groups : Expr → List Group
  | .literal .. => []
  | .reference .. => []
  | .command .. => []
  | .sequence items => groupsAll items
  | .alternative branches => groupsAll branches
  | .fallback branches => groupsAll branches
  | .optional item => item.groups
  | .repeated item => item.groups
  | .described item description => ⟨item, description, 0⟩ :: item.groups
  | .subword body _ _ => body.groups

/-- The described groups of a list of expressions. -/
def groupsAll : List Expr → List Group
  | [] => []
  | e :: es => e.groups ++ (groupsAll es).map (Group.behind e.descriptions.length)

end

mutual

/-- The expression with the items of the described groups in their places. -/
def ungrouped : Expr → Expr
  | .literal text description level span => .literal text description level span
  | .reference name level span => .reference name level span
  | .command text patterns level span => .command text patterns level span
  | .sequence items => .sequence (ungroupedAll items)
  | .alternative branches => .alternative (ungroupedAll branches)
  | .fallback branches => .fallback (ungroupedAll branches)
  | .optional item => .optional item.ungrouped
  | .repeated item => .repeated item.ungrouped
  | .described item _ => item.ungrouped
  | .subword body level span => .subword body.ungrouped level span

/-- Each expression of a list without described groups. -/
def ungroupedAll : List Expr → List Expr
  | [] => []
  | e :: es => e.ungrouped :: ungroupedAll es

end

mutual

/-- The expression with no description at any literal. -/
def blanked : Expr → Expr
  | .literal text _ level span => .literal text none level span
  | .reference name level span => .reference name level span
  | .command text patterns level span => .command text patterns level span
  | .sequence items => .sequence (blankedAll items)
  | .alternative branches => .alternative (blankedAll branches)
  | .fallback branches => .fallback (blankedAll branches)
  | .optional item => .optional item.blanked
  | .repeated item => .repeated item.blanked
  | .described item description => .described item.blanked description
  | .subword body level span => .subword body.blanked level span

/-- Each expression of a list with no description at any literal. -/
def blankedAll : List Expr → List Expr
  | [] => []
  | e :: es => e.blanked :: blankedAll es

end

mutual

/-- Whether there is a literal to which a description can be given that lies in no alternative and in no
described group. -/
def spends : Expr → Bool
  | .literal _ description _ _ => description.isNone
  | .reference .. => false
  | .command .. => false
  | .sequence items => spendsAny items
  | .alternative _ => false
  | .fallback branches => spendsAny branches
  | .optional item => item.spends
  | .repeated item => item.spends
  | .described .. => false
  | .subword body _ _ => body.spends

/-- Whether one of a list of expressions has such a literal. -/
def spendsAny : List Expr → Bool
  | [] => false
  | e :: es => e.spends || spendsAny es

end

/-! ### What distribution hands on and what it keeps -/

/-- What is handed over is left behind a sequence unless one of its items spends it. -/
theorem snd_distributeAlong {es : List Expr}
    (hes : ∀ e ∈ es, ∀ handed, (e.distribute handed).2 = if e.spends then none else handed)
    (handed : Option String) :
    (distributeAlong handed es).2 = if spendsAny es then none else handed := by
  induction es generalizing handed with
  | nil => rfl
  | cons e es ih =>
    have hothers := ih (fun x hx => hes x (by simp [hx])) (e.distribute handed).2
    rw [distributeAlong, hothers, hes e (by simp), spendsAny]
    cases e.spends <;> simp

/-- A description is handed on unless it is spent. -/
theorem snd_distribute (e : Expr) (handed : Option String) :
    (e.distribute handed).2 = if e.spends then none else handed := by
  induction e generalizing handed with
  | literal text description => cases description <;> rfl
  | reference => rfl
  | command => rfl
  | sequence items ih => exact snd_distributeAlong ih handed
  | alternative branches _ => rfl
  | fallback branches ih => exact snd_distributeAlong ih handed
  | optional item ih => exact ih handed
  | repeated item ih => exact ih handed
  | described item description _ => rfl
  | subword body level span ih => exact ih handed

/-- The same description is handed to each of a list. -/
theorem forall₂_distributeEach (handed : Option String) (es : List Expr) :
    List.Forall₂ (fun x e => ∃ handed, x = (distribute handed e).1) (distributeEach handed es) es := by
  rw [distributeEach_eq_map, List.forall₂_map_left_iff, List.forall₂_same]
  exact fun e _ => ⟨handed, rfl⟩

/-- Distribution changes nothing in a list but the descriptions. -/
theorem blankedAll_of_forall₂ {es xs : List Expr}
    (hes : ∀ e ∈ es, ∀ handed, (e.distribute handed).1.blanked = e.ungrouped.blanked)
    (hmade : List.Forall₂ (fun x e => ∃ handed, x = (distribute handed e).1) xs es) :
    blankedAll xs = blankedAll (ungroupedAll es) := by
  induction hmade with
  | nil => rfl
  | @cons x e xs es hfirst _ ih =>
    obtain ⟨handed, rfl⟩ := hfirst
    rw [ungroupedAll, blankedAll, blankedAll, hes e (by simp), ih fun x hx => hes x (by simp [hx])]

/-- Apart from descriptions, distribution only removes the described groups. -/
theorem blanked_distribute (e : Expr) (handed : Option String) :
    (e.distribute handed).1.blanked = e.ungrouped.blanked := by
  induction e generalizing handed with
  | literal text description => cases description <;> rfl
  | reference => rfl
  | command => rfl
  | sequence items ih =>
    exact congrArg sequence (blankedAll_of_forall₂ ih (forall₂_distributeAlong handed items))
  | alternative branches ih =>
    exact congrArg alternative (blankedAll_of_forall₂ ih (forall₂_distributeEach handed branches))
  | fallback branches ih =>
    exact congrArg fallback (blankedAll_of_forall₂ ih (forall₂_distributeAlong handed branches))
  | optional item ih => exact congrArg optional (ih handed)
  | repeated item ih => exact congrArg repeated (ih handed)
  | described item description ih => exact ih (some description)
  | subword body level span ih => exact congrArg (subword · level span) (ih handed)

/-- Distribution leaves no groups in a list. -/
theorem groupsAll_of_forall₂ {es xs : List Expr}
    (hes : ∀ e ∈ es, ∀ handed, (e.distribute handed).1.groups = [])
    (hmade : List.Forall₂ (fun x e => ∃ handed, x = (distribute handed e).1) xs es) :
    groupsAll xs = [] := by
  induction hmade with
  | nil => rfl
  | @cons x e xs es hfirst _ ih =>
    obtain ⟨handed, rfl⟩ := hfirst
    rw [groupsAll, hes e (by simp), ih fun x hx => hes x (by simp [hx]), List.map_nil, List.append_nil]

/-- Distribution leaves no described group. -/
theorem groups_distribute (e : Expr) (handed : Option String) :
    (e.distribute handed).1.groups = [] := by
  induction e generalizing handed with
  | literal text description => cases description <;> rfl
  | reference => rfl
  | command => rfl
  | sequence items ih => exact groupsAll_of_forall₂ ih (forall₂_distributeAlong handed items)
  | alternative branches ih => exact groupsAll_of_forall₂ ih (forall₂_distributeEach handed branches)
  | fallback branches ih => exact groupsAll_of_forall₂ ih (forall₂_distributeAlong handed branches)
  | optional item ih => exact ih handed
  | repeated item ih => exact ih handed
  | described item description ih => exact ih (some description)
  | subword body level span ih => exact ih handed

/-! ### What is found at the literals -/

section

variable {group : Option String} {es : List Expr}
  (hes : ∀ e ∈ es, ∀ group handed : Option String, (∀ text ∈ handed, group = some text) →
    List.Forall₂ Caption.Allows (e.captions group) (e.distribute handed).1.descriptions)

include hes

/-- The literals of a sequence get descriptions that their captions allow. -/
theorem allows_distributeAlong {handed : Option String} (hhanded : ∀ text ∈ handed, group = some text) :
    List.Forall₂ Caption.Allows (captionsAll group es)
      (descriptionsAll (distributeAlong handed es).1) := by
  induction es generalizing handed with
  | nil => exact .nil
  | cons e es ih =>
    -- what is left of the description is the same or nothing
    have hrest : ∀ text ∈ (e.distribute handed).2, group = some text := by
      intro text htext
      rw [snd_distribute] at htext
      split at htext
      · cases htext
      · exact hhanded text htext
    exact List.rel_append (hes e (by simp) group handed hhanded)
      (ih (fun x hx => hes x (by simp [hx])) hrest)

/-- The literals of an alternative get descriptions that their captions allow. -/
theorem allows_distributeEach {handed : Option String} (hhanded : ∀ text ∈ handed, group = some text) :
    List.Forall₂ Caption.Allows (captionsAll group es) (descriptionsAll (distributeEach handed es)) := by
  induction es with
  | nil => exact .nil
  | cons e es ih =>
    exact List.rel_append (hes e (by simp) group handed hhanded)
      (ih fun x hx => hes x (by simp [hx]))

end

/-- A literal keeps its own description, and one that it gets is that of the innermost group. -/
theorem allows_distribute (e : Expr) {group handed : Option String}
    (hhanded : ∀ text ∈ handed, group = some text) :
    List.Forall₂ Caption.Allows (e.captions group) (e.distribute handed).1.descriptions := by
  induction e generalizing group handed with
  | literal text description level span =>
    cases description with
    | none => exact .cons ⟨by simp, fun text _ hfound => hhanded text hfound⟩ .nil
    | some own => exact .cons ⟨by simp, by simp⟩ .nil
  | reference => exact .nil
  | command => exact .nil
  | sequence items ih => exact allows_distributeAlong (fun e he _ _ => ih e he) hhanded
  | alternative branches ih => exact allows_distributeEach (fun e he _ _ => ih e he) hhanded
  | fallback branches ih => exact allows_distributeAlong (fun e he _ _ => ih e he) hhanded
  | optional item ih => exact ih hhanded
  | repeated item ih => exact ih hhanded
  | described item description ih => exact ih (by simp)
  | subword body level span ih => exact ih hhanded

/-- There is a caption for each literal. -/
theorem length_captions (e : Expr) (group : Option String) :
    (e.captions group).length = e.descriptions.length := by
  have hall : ∀ (es : List Expr) (group : Option String),
      (∀ e ∈ es, ∀ group, (e.captions group).length = e.descriptions.length) →
      (captionsAll group es).length = (descriptionsAll es).length := by
    intro es group hes
    induction es with
    | nil => rfl
    | cons e es ih =>
      rw [captionsAll, descriptionsAll, List.length_append, List.length_append, hes e (by simp),
        ih fun x hx => hes x (by simp [hx])]
  induction e generalizing group with
  | sequence items ih => exact hall items group ih
  | alternative branches ih => exact hall branches group ih
  | fallback branches ih => exact hall branches group ih
  | optional item ih => exact ih group
  | repeated item ih => exact ih group
  | described item description ih => exact ih (some description)
  | subword body level span ih => exact ih group
  | _ => rfl

/-- Distribution keeps the number of literals. -/
theorem length_descriptions_distribute (e : Expr) (handed : Option String) :
    (e.distribute handed).1.descriptions.length = e.descriptions.length := by
  have hallows := e.allows_distribute (fun text (htext : text ∈ handed) => htext)
  rw [← hallows.length_eq, length_captions]

end Expr

/-! ### What happens inside a group -/

/-- Whether the literals of a group stand at the same places in both lists of descriptions, in the second
one with the description of the group distributed among them. -/
def Group.SettledIn (g : Group) (before after : List (Option String)) : Prop :=
  StandsAt g.item.descriptions before g.before ∧
    StandsAt (g.item.distribute (some g.description)).1.descriptions after g.before

/-- What settles a group does so whatever follows. -/
theorem Group.SettledIn.append {g : Group} {before after : List (Option String)}
    (h : g.SettledIn before after) (others others' : List (Option String)) :
    g.SettledIn (before ++ others) (after ++ others') :=
  ⟨h.1.append others, h.2.append others'⟩

/-- What settles a group does so behind other descriptions. -/
theorem Group.SettledIn.behind {g : Group} {before after others others' : List (Option String)}
    (h : g.SettledIn before after) (hlength : others'.length = others.length) :
    (g.behind others.length).SettledIn (others ++ before) (others' ++ after) := by
  refine ⟨h.1.append_left others, ?_⟩
  have hstands := h.2.append_left others'
  rw [hlength] at hstands
  exact hstands

namespace Expr

/-- Every group of a list is settled if those of its expressions are. -/
theorem settledIn_of_mem_groupsAll {es xs : List Expr}
    (hes : ∀ e ∈ es, ∀ handed, ∀ g ∈ e.groups,
      g.SettledIn e.descriptions (e.distribute handed).1.descriptions)
    (hmade : List.Forall₂ (fun x e => ∃ handed, x = (distribute handed e).1) xs es) :
    ∀ g ∈ groupsAll es, g.SettledIn (descriptionsAll es) (descriptionsAll xs) := by
  induction hmade with
  | nil => simp [groupsAll]
  | @cons x e xs es hfirst _ ih =>
    obtain ⟨handed, rfl⟩ := hfirst
    intro g hg
    rcases List.mem_append.mp hg with hg | hg
    · exact (hes e (by simp) handed g hg).append _ _
    · obtain ⟨inner, hinner, rfl⟩ := List.mem_map.mp hg
      exact (ih (fun x hx => hes x (by simp [hx])) inner hinner).behind
        (e.length_descriptions_distribute handed)

/-- Whatever is handed to an expression, the description of a group is distributed among the literals of
the group. -/
theorem settledIn_of_mem_groups (e : Expr) (handed : Option String) :
    ∀ g ∈ e.groups, g.SettledIn e.descriptions (e.distribute handed).1.descriptions := by
  induction e generalizing handed with
  | literal | reference | command => simp [groups]
  | sequence items ih => exact settledIn_of_mem_groupsAll ih (forall₂_distributeAlong handed items)
  | alternative branches ih =>
    exact settledIn_of_mem_groupsAll ih (forall₂_distributeEach handed branches)
  | fallback branches ih =>
    exact settledIn_of_mem_groupsAll ih (forall₂_distributeAlong handed branches)
  | optional item ih => exact ih handed
  | repeated item ih => exact ih handed
  | described item description ih =>
    intro g hg
    rcases List.mem_cons.mp hg with rfl | hg
    · exact ⟨.self _, .self _⟩
    · exact ih (some description) g hg
  | subword body level span ih => exact ih handed

end Expr

end ShellCompletion
