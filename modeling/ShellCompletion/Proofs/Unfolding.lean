import Mathlib.Data.Finset.Prod
import Mathlib.Data.Fintype.Prod
import Mathlib.Order.Lattice.Nat
import ShellCompletion.Proofs.Collections
import ShellCompletion.Proofs.Contacts

/-!
# Unfolding without end

The check for touching literals unfolds definitions inside each other, up to a given depth. A check that
comes to an end within some depth gives the same verdict in every greater depth. Whether it comes to an
end does not depend on the references that led to it, only on the expression and on whether it stands
inside a word. So twice the number of definitions is as good as any depth: a check that does not end
within it does not end at all.
-/

namespace ShellCompletion

/-- Whether a check went on up to the depth that it was given. -/
def Result.Endless (x : Result Unit) : Prop := x = giveUp .endlessUnfolding

namespace Result

theorem not_endless_of_bind {x : Result Unit} {f : Unit → Result Unit} (h : ¬ Endless (x >>= f)) :
    ¬ Endless x := fun hx => h (bind_eq_error.mpr (Or.inl hx))

/-- Whether two checks pass together and go on together. -/
def Matches (x y : Result Unit) : Prop := (x = .ok () ↔ y = .ok ()) ∧ (Endless x ↔ Endless y)

theorem Matches.refl (x : Result Unit) : Matches x x := ⟨Iff.rfl, Iff.rfl⟩

/-- Two rejections match. -/
theorem matches_reject (first second : GrammarError) : Matches (reject first) (reject second) := by
  simp [Matches, Endless, reject, giveUp]

/-- Checks in a row match if each of them does. -/
theorem Matches.bind {x y : Result Unit} {f g : Unit → Result Unit} (h : Matches x y)
    (hfg : Matches (f ()) (g ())) : Matches (x >>= f) (y >>= g) := by
  have hendless : ∀ (x : Result Unit) (f : Unit → Result Unit),
      Endless (x >>= f) ↔ Endless x ∨ x = .ok () ∧ Endless (f ()) := by
    intro x f
    rw [Endless, giveUp, bind_eq_error]
    constructor
    · rintro (hx | ⟨⟨⟩, hx, hf⟩)
      · exact Or.inl hx
      · exact Or.inr ⟨hx, hf⟩
    · rintro (hx | ⟨hx, hf⟩)
      · exact Or.inl hx
      · exact Or.inr ⟨(), hx, hf⟩
  have hok : ∀ (x : Result Unit) (f : Unit → Result Unit),
      x >>= f = .ok () ↔ x = .ok () ∧ f () = .ok () := by
    intro x f
    rw [bind_eq_ok]
    constructor
    · rintro ⟨⟨⟩, hx, hf⟩
      exact ⟨hx, hf⟩
    · rintro ⟨hx, hf⟩
      exact ⟨(), hx, hf⟩
  constructor
  · rw [hok, hok, h.1, hfg.1]
  · rw [hendless, hendless, h.1, h.2, hfg.2]

end Result

open Result (Endless Matches)

namespace Expr

/-- A check keeps its verdict if references are unfolded further wherever their check did not come to an
end. -/
theorem checkTouching_of_not_endless {unfold further : String → Bool → List Span → Result Unit}
    (hunfold : ∀ name inWord trace, ¬ Endless (unfold name inWord trace) →
      further name inWord trace = unfold name inWord trace)
    (e : Expr) (inWord : Bool) (trace : List Span)
    (h : ¬ Endless (e.checkTouching unfold inWord trace)) :
    e.checkTouching further inWord trace = e.checkTouching unfold inWord trace := by
  have hall : ∀ (es : List Expr) (inWord : Bool),
      (∀ e ∈ es, ¬ Endless (e.checkTouching unfold inWord trace) →
        e.checkTouching further inWord trace = e.checkTouching unfold inWord trace) →
      ¬ Endless (checkTouchingAll unfold inWord trace es) →
      checkTouchingAll further inWord trace es = checkTouchingAll unfold inWord trace es := by
    intro es inWord hes h
    induction es with
    | nil => rfl
    | cons e es ih =>
      rw [checkTouchingAll] at h
      rw [checkTouchingAll, checkTouchingAll, hes e (by simp) (Result.not_endless_of_bind h)]
      cases hfirst : e.checkTouching unfold inWord trace with
      | error => rfl
      | ok =>
        rw [hfirst, Result.ok_bind] at h
        exact ih (fun x hx => hes x (by simp [hx])) h
  induction e generalizing inWord with
  | literal => rfl
  | reference name level span => exact hunfold name inWord _ h
  | command => rfl
  | sequence items ih =>
    rw [checkTouching] at h
    rw [checkTouching, checkTouching,
      hall items inWord (fun e he => ih e he inWord) (Result.not_endless_of_bind h)]
  | alternative branches ih => exact hall branches inWord (fun e he => ih e he inWord) h
  | fallback branches ih => exact hall branches inWord (fun e he => ih e he inWord) h
  | optional item ih => exact ih inWord h
  | repeated item ih => exact ih inWord h
  | described => rfl
  | subword body level span ih => exact ih true h

/-- The check of neighbours does not depend on the trace but for its message. -/
theorem matches_refuseTouching (trace trace' : List Span) (items : List Expr) :
    Matches (refuseTouching trace items) (refuseTouching trace' items) := by
  induction items with
  | nil => exact .refl _
  | cons left items ih =>
    cases items with
    | nil => exact .refl _
    | cons right others =>
      rw [refuseTouching, refuseTouching]
      cases left.tail with
      | error => exact .refl _
      | ok l =>
        cases right.head with
        | error => exact .refl _
        | ok r =>
          cases l with
          | literal =>
            cases r with
            | literal => exact Result.matches_reject _ _
            | _ => exact ih
          | _ => exact ih

/-- The references that led to an expression do not matter for whether its check passes or goes on, if
they do not for what its own references stand for. -/
theorem matches_checkTouching {unfold : String → Bool → List Span → Result Unit}
    (hunfold : ∀ name inWord trace trace',
      Matches (unfold name inWord trace) (unfold name inWord trace'))
    (e : Expr) (inWord : Bool) (trace trace' : List Span) :
    Matches (e.checkTouching unfold inWord trace) (e.checkTouching unfold inWord trace') := by
  have hall : ∀ (es : List Expr) (inWord : Bool),
      (∀ e ∈ es, Matches (e.checkTouching unfold inWord trace)
        (e.checkTouching unfold inWord trace')) →
      Matches (checkTouchingAll unfold inWord trace es)
        (checkTouchingAll unfold inWord trace' es) := by
    intro es inWord hes
    induction es with
    | nil => exact .refl _
    | cons e es ih => exact (hes e (by simp)).bind (ih fun x hx => hes x (by simp [hx]))
  induction e generalizing inWord with
  | literal => exact .refl _
  | reference name level span => exact hunfold name inWord _ _
  | command => exact .refl _
  | sequence items ih =>
    refine (hall items inWord fun e he => ih e he inWord).bind ?_
    cases inWord with
    | false => exact .refl _
    | true => exact matches_refuseTouching trace trace' items
  | alternative branches ih => exact hall branches inWord fun e he => ih e he inWord
  | fallback branches ih => exact hall branches inWord fun e he => ih e he inWord
  | optional item ih => exact ih inWord
  | repeated item ih => exact ih inWord
  | described => exact .refl _
  | subword body level span ih => exact ih true

end Expr

namespace Definitions

variable {definitions : Definitions}

/-- One level of unfolding more does not change the verdict of a check that came to an end. -/
theorem checkTouching_succ {depth : ℕ} {e : Expr} {inWord : Bool} {trace : List Span}
    (h : ¬ Endless (definitions.checkTouching depth e inWord trace)) :
    definitions.checkTouching (depth + 1) e inWord trace =
      definitions.checkTouching depth e inWord trace := by
  induction depth generalizing e inWord trace with
  | zero =>
    refine Expr.checkTouching_of_not_endless ?_ e inWord trace h
    intro name inWord trace hname
    split at hname
    · exact (hname rfl).elim
    · next hdefined =>
      have hnone : definitions.get? name = none := by
        simpa [OrderedMap.contains] using hdefined
      rw [hnone, if_neg hdefined]
  | succ depth ih =>
    refine Expr.checkTouching_of_not_endless ?_ e inWord trace h
    intro name inWord trace hname
    cases hbody : definitions.get? name with
    | none => rfl
    | some body =>
      rw [hbody] at hname
      exact ih hname

/-- A check that comes to an end needs no more depth. -/
theorem checkTouching_of_le {depth deeper : ℕ} (hle : depth ≤ deeper) {e : Expr} {inWord : Bool}
    {trace : List Span} (h : ¬ Endless (definitions.checkTouching depth e inWord trace)) :
    definitions.checkTouching deeper e inWord trace =
      definitions.checkTouching depth e inWord trace := by
  induction hle with
  | refl => rfl
  | step _ ih =>
    rw [← ih] at h
    rw [checkTouching_succ h, ih]

/-- The check for touching literals does not depend on the trace but for its message. -/
theorem matches_checkTouching (depth : ℕ) (e : Expr) (inWord : Bool) (trace trace' : List Span) :
    Matches (definitions.checkTouching depth e inWord trace)
      (definitions.checkTouching depth e inWord trace') := by
  induction depth generalizing e inWord trace trace' with
  | zero => exact Expr.matches_checkTouching (fun _ _ _ _ => .refl _) e inWord trace trace'
  | succ depth ih =>
    refine Expr.matches_checkTouching ?_ e inWord trace trace'
    intro name inWord trace trace'
    cases definitions.get? name with
    | none => exact .refl _
    | some body => exact ih body inWord trace trace'

variable (definitions)

/-- Whether the check of an expression, inside a word or outside, comes to an end within a depth. -/
def EndsWithin (depth : ℕ) (e : Expr) (inWord : Bool) : Prop :=
  ¬ Endless (definitions.checkTouching depth e inWord [])

/-- Whether a depth is the least one in which the check of an expression comes to an end. -/
def EndsAt (depth : ℕ) (e : Expr) (inWord : Bool) : Prop :=
  definitions.EndsWithin depth e inWord ∧ ∀ less < depth, ¬ definitions.EndsWithin less e inWord

variable {definitions}

/-- Whether the check ends within a depth does not depend on the trace. -/
theorem endsWithin_iff (depth : ℕ) (e : Expr) (inWord : Bool) (trace : List Span) :
    definitions.EndsWithin depth e inWord ↔
      ¬ Endless (definitions.checkTouching depth e inWord trace) :=
  not_congr (matches_checkTouching depth e inWord [] trace).2

/-- A check that ends within a depth ends within a greater one. -/
theorem EndsWithin.mono {depth deeper : ℕ} {e : Expr} {inWord : Bool}
    (h : definitions.EndsWithin depth e inWord) (hle : depth ≤ deeper) :
    definitions.EndsWithin deeper e inWord := by
  rw [EndsWithin, checkTouching_of_le hle h]
  exact h

/-- A check ends at one depth. -/
theorem EndsAt.unique {depth depth' : ℕ} {e : Expr} {inWord : Bool}
    (h : definitions.EndsAt depth e inWord) (h' : definitions.EndsAt depth' e inWord) :
    depth = depth' := by
  rcases lt_trichotomy depth depth' with hlt | heq | hlt
  · exact (h'.2 depth hlt h.1).elim
  · exact heq
  · exact (h.2 depth' hlt h'.1).elim

/-- If a check ends no sooner than in a depth, it unfolds a definition whose own check ends no sooner than
in the depth below. -/
theorem EndsAt.exists_definition {depth : ℕ} {e : Expr} {inWord : Bool}
    (h : definitions.EndsAt (depth + 1) e inWord) :
    ∃ name body within, definitions.get? name = some body ∧ definitions.EndsAt depth body within := by
  by_contra hnone
  -- otherwise all that is unfolded in the last level would end a level sooner, and so would the check
  have hsooner : ∀ name body within trace, definitions.get? name = some body →
      ¬ Endless (definitions.checkTouching depth body within trace) →
      ∃ less < depth, ¬ Endless (definitions.checkTouching less body within trace) := by
    intro name body within trace hbody hends
    by_contra hlater
    refine hnone ⟨name, body, within, hbody, (endsWithin_iff _ _ _ trace).mpr hends, ?_⟩
    intro less hless hends'
    exact hlater ⟨less, hless, (endsWithin_iff _ _ _ trace).mp hends'⟩
  apply h.2 depth (Nat.lt_succ_self depth)
  have hsame : definitions.checkTouching depth e inWord [] =
      definitions.checkTouching (depth + 1) e inWord [] := by
    cases depth with
    | zero =>
      refine Expr.checkTouching_of_not_endless ?_ e inWord [] h.1
      intro name within trace hname
      cases hbody : definitions.get? name with
      | none => simp [OrderedMap.contains, hbody]
      | some body =>
        rw [hbody] at hname
        obtain ⟨less, hless, -⟩ := hsooner name body within trace hbody hname
        omega
    | succ depth =>
      refine Expr.checkTouching_of_not_endless ?_ e inWord [] h.1
      intro name within trace hname
      cases hbody : definitions.get? name with
      | none => rfl
      | some body =>
        rw [hbody] at hname
        obtain ⟨less, hless, hends⟩ := hsooner name body within trace hbody hname
        have hbelow := checkTouching_of_le (Nat.le_of_lt_succ hless) hends
        have habove := checkTouching_of_le hless.le hends
        exact hbelow.trans habove.symm
  rw [EndsWithin, hsame]
  exact h.1

/-- Every depth below the one in which a check ends is the one in which the check of a definition ends. -/
theorem EndsAt.exists_below {depth : ℕ} {e : Expr} {inWord : Bool}
    (h : definitions.EndsAt depth e inWord) (less : ℕ) (hless : less < depth) :
    ∃ name body within, definitions.get? name = some body ∧ definitions.EndsAt less body within := by
  induction depth generalizing e inWord with
  | zero => omega
  | succ depth ih =>
    obtain ⟨name, body, within, hbody, hends⟩ := h.exists_definition
    rcases Nat.lt_succ_iff_lt_or_eq.mp hless with hlt | rfl
    · exact ih hends hlt
    · exact ⟨name, body, within, hbody, hends⟩

/-- No check ends only in a depth that is above twice the number of definitions. -/
theorem EndsAt.le {depth : ℕ} {e : Expr} {inWord : Bool} (h : definitions.EndsAt depth e inWord) :
    depth ≤ 2 * definitions.size := by
  have hchoice : ∀ less : Fin depth, ∃ place : String × Bool, ∃ body,
      definitions.get? place.1 = some body ∧ definitions.EndsAt less body place.2 := by
    intro less
    obtain ⟨name, body, within, hbody, hends⟩ := h.exists_below less less.isLt
    exact ⟨(name, within), body, hbody, hends⟩
  choose place body hbody hends using hchoice
  have hinjective : Function.Injective place := by
    intro less less' heq
    have hsame : body less = body less' := by
      have hless := hbody less
      rw [heq, hbody less'] at hless
      exact (Option.some.inj hless).symm
    have hends' := hends less
    rw [heq, hsame] at hends'
    exact Fin.ext (hends'.unique (hends less'))
  have hcard := Finset.card_le_card_of_injOn (s := Finset.univ)
    (t := definitions.keys.toFinset ×ˢ (Finset.univ : Finset Bool)) place ?_ hinjective.injOn
  · rw [Finset.card_univ, Fintype.card_fin, Finset.card_product, Finset.card_univ,
      Fintype.card_bool] at hcard
    have hkeys := definitions.keys.toFinset_card_le
    rw [OrderedMap.keys, List.length_map] at hkeys
    rw [OrderedMap.size]
    rw [OrderedMap.keys] at hcard
    omega
  · intro less _
    have hkey := (definitions.mem_keys_iff _).mpr ⟨_, hbody less⟩
    simpa using hkey

/-- A check that goes on up to twice the number of definitions goes on in every depth. -/
theorem endless_iff_forall {e : Expr} {inWord : Bool} {trace : List Span} :
    Endless (definitions.checkTouching (2 * definitions.size) e inWord trace) ↔
      ∀ depth, Endless (definitions.checkTouching depth e inWord trace) := by
  classical
  constructor
  · intro h depth
    by_contra hdepth
    have hexists : ∃ depth, definitions.EndsWithin depth e inWord :=
      ⟨depth, (endsWithin_iff depth e inWord trace).mpr hdepth⟩
    have hleast : definitions.EndsAt (Nat.find hexists) e inWord :=
      ⟨Nat.find_spec hexists, fun less hless => Nat.find_min hexists hless⟩
    exact (endsWithin_iff _ e inWord trace).mp (hleast.1.mono hleast.le) h
  · intro h
    exact h _

end Definitions

end ShellCompletion
