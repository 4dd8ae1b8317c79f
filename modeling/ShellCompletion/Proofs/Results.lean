import Mathlib.Logic.Basic
import ShellCompletion.Failure

/-!
# Results in steps

A computation in steps succeeds exactly if each step does, and fails with the failure of its first
failing step.
-/

namespace ShellCompletion.Result

variable {α β γ : Type}

/-- A computation in two steps succeeds if the first step does and the second one does with its
value. -/
theorem bind_eq_ok {x : Result α} {f : α → Result β} {b : β} :
    x >>= f = .ok b ↔ ∃ a, x = .ok a ∧ f a = .ok b := by
  cases x with
  | error e =>
    constructor
    · intro h
      cases h
    · rintro ⟨a, h, -⟩
      cases h
  | ok a =>
    constructor
    · exact fun h => ⟨a, rfl, h⟩
    · rintro ⟨a', h, hf⟩
      cases h
      exact hf

theorem ok_bind (a : α) (f : α → Result β) : (Except.ok a : Result α) >>= f = f a := rfl

theorem pure_eq_ok (a : α) : (pure a : Result α) = .ok a := rfl

instance {x : Result α} {P : α → Prop} [DecidablePred P] : Decidable (∃ a, x = .ok a ∧ P a) :=
  match x with
  | .ok a => decidable_of_iff (P a) (by simp)
  | .error _ => isFalse (by simp)

/-- A step that is made for each value of a list succeeds with the list of the results if it succeeds
for each value. -/
theorem mapM_eq_ok {f : α → Result β} {g : α → β} {xs : List α} (h : ∀ a ∈ xs, f a = .ok (g a)) :
    xs.mapM f = .ok (xs.map g) := by
  induction xs with
  | nil => rfl
  | cons a xs ih =>
    rw [List.mapM_cons, h a (by simp), ok_bind, ih fun b hb => h b (by simp [hb]), ok_bind]
    rfl

/-- A fold whose steps all succeed is a fold without steps that fail. -/
theorem foldlM_eq_ok {f : β → α → Result β} {g : β → α → β} {xs : List α}
    (h : ∀ b, ∀ a ∈ xs, f b a = .ok (g b a)) (b : β) : xs.foldlM f b = .ok (xs.foldl g b) := by
  induction xs generalizing b with
  | nil => rfl
  | cons a xs ih =>
    rw [List.foldlM_cons, h b a (by simp), ok_bind, ih fun b x hx => h b x (by simp [hx])]
    rfl

/-- A step that changes nothing can be put into a fold at any place. -/
theorem foldlM_insert {f : β → α → Result β} {P : β → Prop} {x : α} (hx : ∀ b, P b → f b x = .ok b)
    {xs : List α} (hxs : ∀ b, ∀ a ∈ xs, ∀ c, P b → f b a = .ok c → P c) (place : Nat) {b : β}
    (hb : P b) : (xs.take place ++ x :: xs.drop place).foldlM f b = xs.foldlM f b := by
  induction place generalizing xs b with
  | zero => rw [List.take_zero, List.drop_zero, List.nil_append, List.foldlM_cons, hx b hb, ok_bind]
  | succ place ih =>
    cases xs with
    | nil =>
      rw [List.take_nil, List.drop_nil, List.nil_append, List.foldlM_cons, hx b hb, ok_bind]
    | cons a xs =>
      rw [List.take_succ_cons, List.drop_succ_cons, List.cons_append, List.foldlM_cons,
        List.foldlM_cons]
      cases ha : f b a with
      | error e => rfl
      | ok c =>
        rw [ok_bind, ok_bind]
        exact ih (fun b a' ha' => hxs b a' (by simp [ha'])) (hxs b a (by simp) c hb ha)

/-- A computation in two steps fails if the first step does, or the second one does with its value. -/
theorem bind_eq_error {x : Result α} {f : α → Result β} {e : Failure} :
    x >>= f = .error e ↔ x = .error e ∨ ∃ a, x = .ok a ∧ f a = .error e := by
  cases x with
  | error e' =>
    constructor
    · intro h
      cases h
      exact Or.inl rfl
    · intro h
      rcases h with h | ⟨a, ha, -⟩
      · cases h
        rfl
      · cases ha
  | ok a =>
    constructor
    · intro h
      exact Or.inr ⟨a, rfl, h⟩
    · intro h
      rcases h with h | ⟨a', ha, hf⟩
      · cases h
      · cases ha
        exact hf

/-- Checks made one after the other fail with the failure of the first one that does not pass. -/
theorem forM_eq_error {check : α → Result Unit} {xs : List α} {e : Failure} :
    forM xs check = .error e ↔ ∃ before x after, xs = before ++ x :: after ∧
      (∀ y ∈ before, check y = .ok ()) ∧ check x = .error e := by
  induction xs with
  | nil =>
    constructor
    · intro h
      cases h
    · rintro ⟨before, x, after, h, -⟩
      simp at h
  | cons y xs ih =>
    rw [List.forM_cons, bind_eq_error]
    constructor
    · intro h
      rcases h with h | ⟨⟨⟩, hy, h⟩
      · exact ⟨[], y, xs, rfl, by simp, h⟩
      · obtain ⟨before, x, after, rfl, hbefore, hx⟩ := ih.mp h
        exact ⟨y :: before, x, after, rfl, by simpa using ⟨hy, hbefore⟩, hx⟩
    · rintro ⟨before, x, after, h, hbefore, hx⟩
      cases before with
      | nil =>
        cases h
        exact Or.inl hx
      | cons z before =>
        cases h
        exact Or.inr ⟨(), hbefore y (by simp),
          ih.mpr ⟨before, x, after, rfl, fun z hz => hbefore z (by simp [hz]), hx⟩⟩

/-- Checks made one after the other pass if each of them does. -/
theorem forM_eq_ok {check : α → Result Unit} {xs : List α} :
    forM xs check = .ok () ↔ ∀ x ∈ xs, check x = .ok () := by
  induction xs with
  | nil => simp [pure_eq_ok]
  | cons y xs ih =>
    rw [List.forM_cons, bind_eq_ok, List.forall_mem_cons, ← ih]
    constructor
    · rintro ⟨⟨⟩, hy, h⟩
      exact ⟨hy, h⟩
    · rintro ⟨hy, h⟩
      exact ⟨(), hy, h⟩

/-- What each step of a fold preserves, the whole fold does. -/
theorem foldlM_preserves {f : β → α → Result β} {P : β → Prop} {xs : List α} {b c : β}
    (h : xs.foldlM f b = .ok c) (hb : P b)
    (hf : ∀ b, ∀ a ∈ xs, ∀ c, P b → f b a = .ok c → P c) : P c := by
  induction xs generalizing b with
  | nil =>
    cases h
    exact hb
  | cons a xs ih =>
    rw [List.foldlM_cons, bind_eq_ok] at h
    obtain ⟨b', hb', h⟩ := h
    exact ih h (hf b a (by simp) b' hb hb') fun b'' a' ha' => hf b'' a' (by simp [ha'])

/-- What a fold comes to if each step, from what the steps before it have made, either succeeds or fails
in one of the given ways. -/
theorem foldlM_cases {f : β → α → Result β} {P : List α → β → Prop} {E : Failure → Prop} {xs : List α}
    {b : β} (hb : P [] b)
    (hf : ∀ before a behind b, xs = before ++ a :: behind → P before b →
      (∃ c, f b a = .ok c ∧ P (before ++ [a]) c) ∨ ∃ e, f b a = .error e ∧ E e) :
    (∃ c, xs.foldlM f b = .ok c ∧ P xs c) ∨ ∃ e, xs.foldlM f b = .error e ∧ E e := by
  have general : ∀ before rest b, xs = before ++ rest → P before b →
      (∃ c, rest.foldlM f b = .ok c ∧ P xs c) ∨ ∃ e, rest.foldlM f b = .error e ∧ E e := by
    intro before rest
    induction rest generalizing before with
    | nil =>
      intro b hxs hb
      rw [List.append_nil] at hxs
      exact Or.inl ⟨b, rfl, hxs ▸ hb⟩
    | cons a rest ih =>
      intro b hxs hb
      rw [List.foldlM_cons]
      rcases hf before a rest b hxs hb with ⟨c, hc, hP⟩ | ⟨e, he, hE⟩
      · rw [hc, ok_bind]
        exact ih (before ++ [a]) c (by rw [hxs, List.append_assoc, List.singleton_append]) hP
      · rw [he]
        exact Or.inr ⟨e, rfl, hE⟩
  exact general [] xs b rfl hb

/-- Two folds come to the same if each step of the one does what the step of the other does, from what the
steps before it have made. -/
theorem foldlM_congr_cases {f g : β → α → Result β} {P : List α → β → Prop} {E : Failure → Prop}
    {xs : List α} {b : β} (hb : P [] b)
    (hf : ∀ before a behind b, xs = before ++ a :: behind → P before b → g b a = f b a ∧
      ((∃ c, f b a = .ok c ∧ P (before ++ [a]) c) ∨ ∃ e, f b a = .error e ∧ E e)) :
    xs.foldlM g b = xs.foldlM f b ∧
      ((∃ c, xs.foldlM f b = .ok c ∧ P xs c) ∨ ∃ e, xs.foldlM f b = .error e ∧ E e) := by
  refine ⟨?_, foldlM_cases hb fun before a behind b hxs hP => (hf before a behind b hxs hP).2⟩
  have general : ∀ before rest b, xs = before ++ rest → P before b →
      rest.foldlM g b = rest.foldlM f b := by
    intro before rest
    induction rest generalizing before with
    | nil => exact fun _ _ _ => rfl
    | cons a rest ih =>
      intro b hxs hb
      rw [List.foldlM_cons, List.foldlM_cons]
      obtain ⟨heq, ⟨c, hc, hP⟩ | ⟨e, he, -⟩⟩ := hf before a rest b hxs hb
      · rw [heq, hc, ok_bind, ok_bind]
        exact ih (before ++ [a]) c (by rw [hxs, List.append_assoc, List.singleton_append]) hP
      · rw [heq, he]
        rfl
  exact general [] xs b rfl hb

/-- What holds of the start of a fold, and after each step of the values folded so far, holds of the whole
fold. -/
theorem foldlM_invariant {f : β → α → Result β} {P : List α → β → Prop} {xs : List α} {b c : β}
    (h : xs.foldlM f b = .ok c) (hb : P [] b)
    (hf : ∀ before a b c, P before b → f b a = .ok c → P (before ++ [a]) c) : P xs c := by
  have hcases : (∃ c, xs.foldlM f b = .ok c ∧ P xs c) ∨ ∃ e, xs.foldlM f b = .error e ∧ True := by
    refine foldlM_cases hb fun before a behind b _ hbefore => ?_
    cases ha : f b a with
    | error e => exact Or.inr ⟨e, rfl, trivial⟩
    | ok c => exact Or.inl ⟨c, rfl, hf before a b c hbefore ha⟩
  rcases hcases with ⟨c', hc', hP⟩ | ⟨e, he, -⟩
  · rw [h] at hc'
    cases hc'
    exact hP
  · rw [h] at he
    cases he

/-- Whether a computation fails, if at all, in one of the given ways. -/
def FailsWithin (E : Failure → Prop) (x : Result α) : Prop := ∀ e, x = .error e → E e

section

variable {E : Failure → Prop}

theorem failsWithin_ok (a : α) : FailsWithin E (.ok a : Result α) := by
  intro e h
  cases h

theorem failsWithin_error {e : Failure} (he : E e) : FailsWithin E (.error e : Result α) := by
  intro e' h
  cases h
  exact he

theorem FailsWithin.mono {E' : Failure → Prop} {x : Result α} (h : FailsWithin E x)
    (hE : ∀ e, E e → E' e) : FailsWithin E' x := fun e he => hE e (h e he)

/-- Two steps fail in given ways if each of them does. -/
theorem FailsWithin.bind {x : Result α} {f : α → Result β} (hx : FailsWithin E x)
    (hf : ∀ a, x = .ok a → FailsWithin E (f a)) : FailsWithin E (x >>= f) := by
  intro e h
  rcases bind_eq_error.mp h with h | ⟨a, ha, h⟩
  · exact hx e h
  · exact hf a ha e h

theorem FailsWithin.foldlM {f : β → α → Result β} {xs : List α} (b : β)
    (hf : ∀ b, ∀ a ∈ xs, FailsWithin E (f b a)) : FailsWithin E (xs.foldlM f b) := by
  induction xs generalizing b with
  | nil => exact failsWithin_ok b
  | cons a xs ih =>
    rw [List.foldlM_cons]
    refine (hf b a (by simp)).bind fun b' _ => ih b' fun b'' a' ha' => ?_
    exact hf b'' a' (by simp [ha'])

end

/-- Whether a result is a value or a rejection. -/
def Faultless (x : Result α) : Prop := ∀ f, x ≠ .error (.fault f)

/-- To be without faults is to fail with rejections only. -/
theorem faultless_iff {x : Result α} : Faultless x ↔ FailsWithin (fun e => ∀ f, e ≠ .fault f) x :=
  ⟨fun h _ he f hf => h f (hf ▸ he), fun h f hf => h _ hf f rfl⟩

theorem faultless_ok (a : α) : Faultless (.ok a : Result α) := faultless_iff.mpr (failsWithin_ok a)

theorem faultless_reject (e : GrammarError) : Faultless (reject e : Result α) := by
  intro f h
  cases h

theorem Faultless.bind {x : Result α} {f : α → Result β} (hx : Faultless x)
    (hf : ∀ a, x = .ok a → Faultless (f a)) : Faultless (x >>= f) :=
  faultless_iff.mpr ((faultless_iff.mp hx).bind fun a ha => faultless_iff.mp (hf a ha))

theorem Faultless.foldlM {f : β → α → Result β} {xs : List α} (b : β)
    (hf : ∀ b, ∀ a ∈ xs, Faultless (f b a)) : Faultless (xs.foldlM f b) :=
  faultless_iff.mpr (FailsWithin.foldlM b fun b a ha => faultless_iff.mp (hf b a ha))

/-- Whether two computations come to the same, with a value that has the given property if there is one. -/
def Same (P : α → Prop) (x y : Result α) : Prop := x = y ∧ ∀ a, y = .ok a → P a

/-- Two steps give the same if the first ones do and the second ones do from what these give. -/
theorem Same.bind {P : α → Prop} {Q : β → Prop} {x y : Result α} {f g : α → Result β}
    (h : Same P x y) (hfg : ∀ a, P a → Same Q (f a) (g a)) : Same Q (x >>= f) (y >>= g) := by
  obtain ⟨rfl, hP⟩ := h
  cases x with
  | error e => exact ⟨rfl, fun b hb => by cases hb⟩
  | ok a => exact hfg a (hP a rfl)

/-- Whether a computation has a result. -/
def Succeeds (x : Result α) : Prop := ∃ a, x = .ok a

theorem succeeds_ok (a : α) : Succeeds (.ok a : Result α) := ⟨a, rfl⟩

/-- What is required is found if it is there. -/
theorem succeeds_require {fault : Fault} {x : Option α} (h : x.isSome = true) :
    Succeeds (require fault x) := by
  obtain ⟨a, rfl⟩ := Option.isSome_iff_exists.mp h
  exact ⟨a, rfl⟩

theorem Succeeds.bind {x : Result α} {f : α → Result β} (hx : Succeeds x)
    (hf : ∀ a, x = .ok a → Succeeds (f a)) : Succeeds (x >>= f) := by
  obtain ⟨a, ha⟩ := hx
  rw [ha, ok_bind]
  exact hf a ha

/-- A step for each item of a list succeeds if it does for each of them. -/
theorem Succeeds.mapM {f : α → Result β} {xs : List α} (h : ∀ a ∈ xs, Succeeds (f a)) :
    Succeeds (xs.mapM f) := by
  induction xs with
  | nil => exact ⟨[], rfl⟩
  | cons a xs ih =>
    rw [List.mapM_cons]
    refine (h a (by simp)).bind fun _ _ => ?_
    exact (ih fun b hb => h b (by simp [hb])).bind fun _ _ => succeeds_ok _

end ShellCompletion.Result
