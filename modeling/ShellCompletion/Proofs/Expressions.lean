import Mathlib.Data.List.Forall2
import Mathlib.Data.Nat.Notation
import ShellCompletion.Grammar.Compilation
import ShellCompletion.Grammar.Level
import ShellCompletion.Grammar.Resolution

/-!
# Passes over expressions

A grammar goes through several passes, each of which rebuilds an expression from its parts. None of
them leaves a sequence or a choice without items that had some. After descriptions are distributed
no described group is left, and after the subwords are flattened none of them has another one inside.
-/

namespace ShellCompletion.Expr

/-- Induction over expressions: what holds of all items of a list may be assumed of each of them. -/
@[induction_eliminator]
theorem induction {motive : Expr → Prop}
    (literal : ∀ text description level span, motive (.literal text description level span))
    (reference : ∀ name level span, motive (.reference name level span))
    (command : ∀ text patterns level span, motive (.command text patterns level span))
    (sequence : ∀ items, (∀ e ∈ items, motive e) → motive (.sequence items))
    (alternative : ∀ branches, (∀ e ∈ branches, motive e) → motive (.alternative branches))
    (fallback : ∀ branches, (∀ e ∈ branches, motive e) → motive (.fallback branches))
    (optional : ∀ item, motive item → motive (.optional item))
    (repeated : ∀ item, motive item → motive (.repeated item))
    (described : ∀ item description, motive item → motive (.described item description))
    (subword : ∀ body level span, motive body → motive (.subword body level span)) :
    ∀ e, motive e := by
  have hnil : ∀ e ∈ ([] : List Expr), motive e := by simp
  have hcons : ∀ e es, motive e → (∀ x ∈ es, motive x) → ∀ x ∈ e :: es, motive x := by
    intro e es he hes x hx
    rcases List.mem_cons.mp hx with rfl | hx
    · exact he
    · exact hes x hx
  intro e
  exact Expr.rec literal reference command sequence alternative fallback optional repeated described
    subword hnil hcons e

/-! ### Passes over lists -/

theorem flattenAll_eq_map (es : List Expr) : flattenAll es = es.map flatten := by
  induction es with
  | nil => rfl
  | cons e es ih => rw [flattenAll, ih, List.map_cons]

theorem flattenSubwordsAll_eq_map (es : List Expr) :
    flattenSubwordsAll es = es.map flattenSubwords := by
  induction es with
  | nil => rfl
  | cons e es ih => rw [flattenSubwordsAll, ih, List.map_cons]

theorem substituteAll_eq_map (replacement : String → Option Expr) (es : List Expr) :
    substituteAll replacement es = es.map (substitute replacement) := by
  induction es with
  | nil => rfl
  | cons e es ih => rw [substituteAll, ih, List.map_cons]

theorem assignLevelsAll_eq_map (level : ℕ) (es : List Expr) :
    assignLevelsAll level es = es.map (assignLevels level) := by
  induction es with
  | nil => rfl
  | cons e es ih => rw [assignLevelsAll, ih, List.map_cons]

theorem distributeEach_eq_map (handed : Option String) (es : List Expr) :
    distributeEach handed es = es.map fun e => (e.distribute handed).1 := by
  induction es with
  | nil => rfl
  | cons e es ih => rw [distributeEach, ih, List.map_cons]

theorem referencesAll_eq_flatMap (es : List Expr) : referencesAll es = es.flatMap references := by
  induction es with
  | nil => rfl
  | cons e es ih => rw [referencesAll, ih, List.flatMap_cons]

/-- The names that a list mentions are those that its expressions mention. -/
theorem mem_referencesAll {es : List Expr} {name : String} :
    name ∈ referencesAll es ↔ ∃ e ∈ es, name ∈ e.references := by
  rw [referencesAll_eq_flatMap, List.mem_flatMap]

/-- Ranked branches get levels one by one. -/
theorem forall₂_assignLevelsRanked (rank : ℕ) (es : List Expr) :
    List.Forall₂ (fun x e => ∃ level, x = assignLevels level e) (assignLevelsRanked rank es) es := by
  induction es generalizing rank with
  | nil => exact .nil
  | cons e es ih => exact .cons ⟨rank, rfl⟩ (ih (rank + 1))

/-- Descriptions are handed along a list one by one. -/
theorem forall₂_distributeAlong (handed : Option String) (es : List Expr) :
    List.Forall₂ (fun x e => ∃ handed, x = (distribute handed e).1)
      (distributeAlong handed es).1 es := by
  induction es generalizing handed with
  | nil => exact .nil
  | cons e es ih => exact .cons ⟨handed, rfl⟩ (ih (e.distribute handed).2)

/-! ### Expressions without gaps -/

/-- An expression in which no sequence and no choice is without items, also inside of subwords.
Described groups occur only if they are allowed. -/
inductive Filled (described : Prop) : Expr → Prop
  | literal (text : String) (description : Option String) (level : ℕ) (span : Option Span) :
    Filled described (.literal text description level span)
  | reference (name : String) (level : ℕ) (span : Option Span) :
    Filled described (.reference name level span)
  | command (text : String) (patterns : Option ShellTexts) (level : ℕ) (span : Option Span) :
    Filled described (.command text patterns level span)
  | sequence {items : List Expr} (hne : items ≠ []) (hitems : ∀ e ∈ items, Filled described e) :
    Filled described (.sequence items)
  | alternative {branches : List Expr} (hne : branches ≠ [])
    (hbranches : ∀ e ∈ branches, Filled described e) : Filled described (.alternative branches)
  | fallback {branches : List Expr} (hne : branches ≠ [])
    (hbranches : ∀ e ∈ branches, Filled described e) : Filled described (.fallback branches)
  | optional {item : Expr} (hitem : Filled described item) : Filled described (.optional item)
  | repeated {item : Expr} (hitem : Filled described item) : Filled described (.repeated item)
  | group {item : Expr} (description : String) (hallowed : described) (hitem : Filled described item) :
    Filled described (.described item description)
  | subword {body : Expr} (level : ℕ) (span : Option Span) (hbody : Filled described body) :
    Filled described (.subword body level span)

/-- What is made member by member from a list is made from members of it. -/
theorem exists_of_mem_forall₂ {made : Expr → Expr → Prop} {xs es : List Expr}
    (h : List.Forall₂ made xs es) {x : Expr} (hx : x ∈ xs) : ∃ e ∈ es, made x e := by
  induction h with
  | nil => simp at hx
  | cons hfirst _ ih =>
    rcases List.mem_cons.mp hx with rfl | hx
    · exact ⟨_, by simp, hfirst⟩
    · obtain ⟨e, he, hxe⟩ := ih hx
      exact ⟨e, by simp [he], hxe⟩

/-- What is made member by member from a list with members has members, and each of them is made from
a member. -/
theorem forall_of_forall₂ {made : Expr → Expr → Prop} {xs es : List Expr} {P : Expr → Prop}
    (h : List.Forall₂ made xs es) (hne : es ≠ []) (hP : ∀ e ∈ es, ∀ x, made x e → P x) :
    xs ≠ [] ∧ ∀ x ∈ xs, P x := by
  constructor
  · rintro rfl
    cases h
    exact hne rfl
  · intro x hx
    obtain ⟨e, he, hxe⟩ := exists_of_mem_forall₂ h hx
    exact hP e he x hxe

section

variable {described : Prop} {e : Expr}

/-- Flattening a word leaves no gaps. -/
theorem Filled.flatten (h : e.Filled described) : e.flatten.Filled described := by
  induction h with
  | literal => exact .literal ..
  | reference => exact .reference ..
  | command => exact .command ..
  | sequence hne _ ih =>
    rw [Expr.flatten, flattenAll_eq_map]
    exact .sequence (by simpa using hne) (by simpa using ih)
  | alternative hne _ ih =>
    rw [Expr.flatten, flattenAll_eq_map]
    exact .alternative (by simpa using hne) (by simpa using ih)
  | fallback hne _ ih =>
    rw [Expr.flatten, flattenAll_eq_map]
    exact .fallback (by simpa using hne) (by simpa using ih)
  | optional _ ih => exact .optional ih
  | repeated _ ih => exact .repeated ih
  | group description hallowed _ ih => exact .group description hallowed ih
  | subword _ _ _ ih => exact ih

/-- Flattening all subwords leaves no gaps. -/
theorem Filled.flattenSubwords (h : e.Filled described) : e.flattenSubwords.Filled described := by
  induction h with
  | literal => exact .literal ..
  | reference => exact .reference ..
  | command => exact .command ..
  | sequence hne _ ih =>
    rw [Expr.flattenSubwords, flattenSubwordsAll_eq_map]
    exact .sequence (by simpa using hne) (by simpa using ih)
  | alternative hne _ ih =>
    rw [Expr.flattenSubwords, flattenSubwordsAll_eq_map]
    exact .alternative (by simpa using hne) (by simpa using ih)
  | fallback hne _ ih =>
    rw [Expr.flattenSubwords, flattenSubwordsAll_eq_map]
    exact .fallback (by simpa using hne) (by simpa using ih)
  | optional _ ih => exact .optional ih
  | repeated _ ih => exact .repeated ih
  | group description hallowed _ ih => exact .group description hallowed ih
  | subword level span hbody _ => exact .subword level span hbody.flatten

/-- Replacing references by expressions without gaps leaves no gaps. -/
theorem Filled.substitute {replacement : String → Option Expr}
    (hreplacement : ∀ name body, replacement name = some body → body.Filled described)
    (h : e.Filled described) : (e.substitute replacement).Filled described := by
  induction h with
  | literal => exact .literal ..
  | reference name level span =>
    rw [Expr.substitute]
    cases hname : replacement name with
    | none => exact .reference name level span
    | some body => exact hreplacement name body hname
  | command => exact .command ..
  | sequence hne _ ih =>
    rw [Expr.substitute, substituteAll_eq_map]
    exact .sequence (by simpa using hne) (by simpa using ih)
  | alternative hne _ ih =>
    rw [Expr.substitute, substituteAll_eq_map]
    exact .alternative (by simpa using hne) (by simpa using ih)
  | fallback hne _ ih =>
    rw [Expr.substitute, substituteAll_eq_map]
    exact .fallback (by simpa using hne) (by simpa using ih)
  | optional _ ih => exact .optional ih
  | repeated _ ih => exact .repeated ih
  | group description hallowed _ ih => exact .group description hallowed ih
  | subword level span _ ih => exact .subword level span ih

/-- Assigning levels leaves no gaps. -/
theorem Filled.assignLevels (h : e.Filled described) (level : ℕ) :
    (e.assignLevels level).Filled described := by
  induction h generalizing level with
  | literal => exact .literal ..
  | reference => exact .reference ..
  | command => exact .command ..
  | sequence hne _ ih =>
    rw [Expr.assignLevels, assignLevelsAll_eq_map]
    exact .sequence (by simpa using hne) (by simpa using fun x hx => ih x hx level)
  | alternative hne _ ih =>
    rw [Expr.assignLevels, assignLevelsAll_eq_map]
    exact .alternative (by simpa using hne) (by simpa using fun x hx => ih x hx level)
  | fallback hne _ ih =>
    rw [Expr.assignLevels]
    obtain ⟨hne, hall⟩ := forall_of_forall₂ (P := Filled described)
      (forall₂_assignLevelsRanked 0 _) hne (by
        rintro e he x ⟨rank, rfl⟩
        exact ih e he rank)
    exact .fallback hne hall
  | optional _ ih => exact .optional (ih level)
  | repeated _ ih => exact .repeated (ih level)
  | group description hallowed _ ih => exact .group description hallowed (ih level)
  | subword _ span _ ih => exact .subword _ span (ih level)

/-- Distributing descriptions leaves no described group. -/
theorem Filled.distribute (h : e.Filled described) (handed : Option String) :
    (e.distribute handed).1.Filled False := by
  induction h generalizing handed with
  | literal text description => cases description <;> exact .literal ..
  | reference => exact .reference ..
  | command => exact .command ..
  | sequence hne _ ih =>
    obtain ⟨hne, hall⟩ := forall_of_forall₂ (P := Filled False)
      (forall₂_distributeAlong handed _) hne (by
        rintro e he x ⟨handed, rfl⟩
        exact ih e he handed)
    exact .sequence hne hall
  | alternative hne _ ih =>
    rw [Expr.distribute, distributeEach_eq_map]
    exact .alternative (by simpa using hne) (by simpa using fun x hx => ih x hx handed)
  | fallback hne _ ih =>
    obtain ⟨hne, hall⟩ := forall_of_forall₂ (P := Filled False)
      (forall₂_distributeAlong handed _) hne (by
        rintro e he x ⟨handed, rfl⟩
        exact ih e he handed)
    exact .fallback hne hall
  | optional _ ih => exact .optional (ih handed)
  | repeated _ ih => exact .repeated (ih handed)
  | group description _ _ ih => exact ih (some description)
  | subword level span _ ih => exact .subword level span (ih handed)

/-- Distributing descriptions leaves no gaps and no described groups. -/
theorem Filled.distributed (h : e.Filled described) : e.distributed.Filled False :=
  h.distribute none

end

/-! ### Equality -/

mutual

/-- Whether two expressions are the same. -/
def same : Expr → Expr → Bool
  | .literal text description level span, .literal text' description' level' span' =>
    text = text' ∧ description = description' ∧ level = level' ∧ span = span'
  | .reference name level span, .reference name' level' span' =>
    name = name' ∧ level = level' ∧ span = span'
  | .command text patterns level span, .command text' patterns' level' span' =>
    text = text' ∧ patterns = patterns' ∧ level = level' ∧ span = span'
  | .sequence items, .sequence items' => sameAll items items'
  | .alternative branches, .alternative branches' => sameAll branches branches'
  | .fallback branches, .fallback branches' => sameAll branches branches'
  | .optional item, .optional item' => same item item'
  | .repeated item, .repeated item' => same item item'
  | .described item description, .described item' description' =>
    same item item' ∧ description = description'
  | .subword body level span, .subword body' level' span' =>
    same body body' ∧ level = level' ∧ span = span'
  | _, _ => false

/-- Whether two lists of expressions are the same. -/
def sameAll : List Expr → List Expr → Bool
  | [], [] => true
  | e :: es, e' :: es' => same e e' && sameAll es es'
  | _, _ => false

end

/-- Expressions are compared by their structure. -/
theorem same_iff (e e' : Expr) : e.same e' = true ↔ e = e' := by
  have hall : ∀ es : List Expr, (∀ e ∈ es, ∀ e', e.same e' = true ↔ e = e') →
      ∀ es', sameAll es es' = true ↔ es = es' := by
    intro es hes es'
    induction es generalizing es' with
    | nil => cases es' <;> simp [sameAll]
    | cons e es ih =>
      cases es' with
      | nil => simp [sameAll]
      | cons e' es' =>
        rw [sameAll, Bool.and_eq_true, hes e (by simp), ih (fun x hx => hes x (by simp [hx])),
          List.cons.injEq]
  induction e generalizing e' with
  | sequence items ih => cases e' <;> simp [same, hall items ih]
  | alternative branches ih => cases e' <;> simp [same, hall branches ih]
  | fallback branches ih => cases e' <;> simp [same, hall branches ih]
  | optional item ih => cases e' <;> simp [same, ih]
  | repeated item ih => cases e' <;> simp [same, ih]
  | described item description ih => cases e' <;> simp [same, ih]
  | subword body level span ih => cases e' <;> simp [same, ih]
  | _ => cases e' <;> simp [same]

instance : DecidableEq Expr := fun e e' => decidable_of_iff _ (same_iff e e')

end ShellCompletion.Expr

namespace ShellCompletion

deriving instance DecidableEq for Statement

deriving instance DecidableEq for Grammar

end ShellCompletion
