import ShellCompletion.Grammar.Adjacency
import ShellCompletion.Proofs.Expressions
import ShellCompletion.Proofs.Results

/-!
# Neighbours inside words

The check for literals that touch looks at the neighbouring items of the sequences inside words, one
pair after the other, and follows references into their definitions. Here the pairs are listed in the
order in which the check meets them, so that the check is a check of each pair of the list: it fails
with the first pair that does not pass. A pair does not pass if the left item ends and the right one
begins with a literal, or if one of the two has a subword there, which the check does not provide for.
-/

namespace ShellCompletion

/-- Two neighbouring items of a sequence inside a word. -/
structure Contact where
  /-- The left item. -/
  left : Expr
  /-- The right item. -/
  right : Expr
  /-- The places of the references through which the sequence was reached. -/
  trace : List Span

/-- The pairs of neighbours in a list of items. -/
def neighbours (trace : List Span) : List Expr → List Contact
  | left :: right :: others => ⟨left, right, trace⟩ :: neighbours trace (right :: others)
  | _ => []

namespace Expr

mutual

/-- The pairs of neighbours inside words of an expression. References are left to the given function,
which is told whether it is inside a word and which references led there. -/
def contacts (unfold : String → Bool → List Span → List Contact) (inWord : Bool) (trace : List Span) :
    Expr → List Contact
  | .literal .. => []
  | .reference name _ span => unfold name inWord (trace ++ span.toList)
  | .command .. => []
  | .sequence items =>
    contactsAll unfold inWord trace items ++ if inWord then neighbours trace items else []
  | .alternative branches => contactsAll unfold inWord trace branches
  | .fallback branches => contactsAll unfold inWord trace branches
  | .optional item => item.contacts unfold inWord trace
  | .repeated item => item.contacts unfold inWord trace
  | .described item _ => item.contacts unfold inWord trace
  | .subword body _ _ => body.contacts unfold true trace

/-- The pairs of neighbours inside words of the expressions of a list. -/
def contactsAll (unfold : String → Bool → List Span → List Contact) (inWord : Bool)
    (trace : List Span) : List Expr → List Contact
  | [] => []
  | e :: es => e.contacts unfold inWord trace ++ contactsAll unfold inWord trace es

end

mutual

/-- What an expression begins with, if sequences are entered. -/
def front : Expr → Expr
  | .sequence items => frontOr (.sequence items) items
  | e => e

/-- What the first expression of a list begins with, or the given expression. -/
def frontOr (missing : Expr) : List Expr → Expr
  | [] => missing
  | e :: _ => e.front

end

/-- What an expression ends with: of a sequence, what its last item begins with. -/
def back : Expr → Expr
  | .sequence items => frontOr (.sequence items) items.getLast?.toList
  | e => e.front

def isSubword : Expr → Bool
  | .subword .. => true
  | _ => false

def isLiteral : Expr → Bool
  | .literal .. => true
  | _ => false

end Expr

/-- The pairs of neighbours inside words of an expression and of the definitions that it refers to,
which are unfolded in each other up to the given depth. -/
def Definitions.contacts (definitions : Definitions) :
    ℕ → Expr → Bool → List Span → List Contact
  | 0, e, inWord, trace => e.contacts (fun _ _ _ => []) inWord trace
  | depth + 1, e, inWord, trace =>
    e.contacts (fun name inWord trace =>
      match definitions.get? name with
      | some body => definitions.contacts depth body inWord trace
      | none => []) inWord trace

namespace Contact

variable (c : Contact)

/-- Whether a subword meets the neighbour. -/
def nested : Bool := c.left.back.isSubword || c.right.front.isSubword

/-- Whether a literal meets a literal. -/
def touching : Bool := c.left.back.isLiteral && c.right.front.isLiteral

/-- The check of a single pair. -/
def check : Result Unit := refuseTouching c.trace [c.left, c.right]

end Contact

namespace Expr

/-- What an expression begins with is found unless it is a subword. -/
theorem Filled.head_eq {e : Expr} (h : e.Filled False) :
    e.head = if e.front.isSubword then giveUp .nestedSubword else .ok e.front := by
  induction h with
  | @sequence items hne _ ih =>
    cases items with
    | nil => exact (hne rfl).elim
    | cons e es => exact ih e (by simp)
  | group _ hallowed => exact hallowed.elim
  | _ => rfl

/-- What an expression ends with is found unless it is a subword. -/
theorem Filled.tail_eq {e : Expr} (h : e.Filled False) :
    e.tail = if e.back.isSubword then giveUp .nestedSubword else .ok e.back := by
  cases h with
  | @sequence items hne hitems =>
    have hlast := List.getLast?_eq_getLast_of_ne_nil hne
    rw [tail, back, hlast]
    exact (hitems _ (List.getLast_mem hne)).head_eq
  | group _ hallowed => exact hallowed.elim
  | _ => rfl

end Expr

/-! ### The check of all pairs -/

/-- Refusing touching literals in a list of items is checking its pairs of neighbours in order. -/
theorem refuseTouching_eq (trace : List Span) (items : List Expr) :
    refuseTouching trace items = forM (neighbours trace items) Contact.check := by
  induction items with
  | nil => rfl
  | cons left items ih =>
    cases items with
    | nil => rfl
    | cons right others =>
      rw [neighbours, List.forM_cons, ← ih, Contact.check, refuseTouching, refuseTouching]
      cases left.tail with
      | error e => rfl
      | ok l =>
        cases right.head with
        | error e => rfl
        | ok r => cases l <;> cases r <;> rfl

namespace Expr

section

variable {unfold : String → Bool → List Span → Result Unit}
  {listed : String → Bool → List Span → List Contact}

/-- Checking an expression is checking its pairs in order, if it is so for what its references stand
for. -/
theorem Filled.checkTouching_eq {e : Expr} (h : e.Filled False)
    (hunfold : ∀ name ∈ e.references, ∀ inWord trace,
      unfold name inWord trace = forM (listed name inWord trace) Contact.check)
    (inWord : Bool) (trace : List Span) :
    e.checkTouching unfold inWord trace = forM (e.contacts listed inWord trace) Contact.check := by
  have hall : ∀ (es : List Expr) (inWord : Bool),
      (∀ e ∈ es, e.checkTouching unfold inWord trace =
        forM (e.contacts listed inWord trace) Contact.check) →
      checkTouchingAll unfold inWord trace es =
        forM (contactsAll listed inWord trace es) Contact.check := by
    intro es inWord hes
    induction es with
    | nil => rfl
    | cons e es ih =>
      have hothers := ih fun x hx => hes x (by simp [hx])
      rw [checkTouchingAll, contactsAll, List.forM_append, hes e (by simp), hothers]
  induction h generalizing inWord with
  | literal => rfl
  | reference name level span => exact hunfold name (by simp [references]) inWord _
  | command => rfl
  | @sequence items _ _ ih =>
    have hitems := hall items inWord fun e he =>
      ih e he (fun name hname => hunfold name (mem_referencesAll.mpr ⟨e, he, hname⟩)) inWord
    rw [checkTouching, contacts, List.forM_append, hitems]
    cases inWord with
    | false => rfl
    | true => simp only [if_true, refuseTouching_eq]
  | @alternative branches _ _ ih =>
    exact hall branches inWord fun e he =>
      ih e he (fun name hname => hunfold name (mem_referencesAll.mpr ⟨e, he, hname⟩)) inWord
  | @fallback branches _ _ ih =>
    exact hall branches inWord fun e he =>
      ih e he (fun name hname => hunfold name (mem_referencesAll.mpr ⟨e, he, hname⟩)) inWord
  | optional _ ih => exact ih hunfold inWord
  | repeated _ ih => exact ih hunfold inWord
  | group _ hallowed => exact hallowed.elim
  | subword _ _ _ ih => exact ih hunfold true

/-- The pairs of a list are those of its expressions. -/
theorem mem_contactsAll {inWord : Bool} {trace : List Span} {es : List Expr} {c : Contact} :
    c ∈ contactsAll listed inWord trace es ↔ ∃ e ∈ es, c ∈ e.contacts listed inWord trace := by
  induction es with
  | nil => simp [contactsAll]
  | cons e es ih => simp [contactsAll, ih]

/-- Neighbours among items without gaps have no gaps. -/
theorem filled_of_mem_neighbours {items : List Expr} (h : ∀ e ∈ items, e.Filled False)
    {trace : List Span} {c : Contact} (hc : c ∈ neighbours trace items) :
    c.left.Filled False ∧ c.right.Filled False := by
  induction items with
  | nil => simp [neighbours] at hc
  | cons left items ih =>
    cases items with
    | nil => simp [neighbours] at hc
    | cons right others =>
      rw [neighbours] at hc
      rcases List.mem_cons.mp hc with rfl | hc
      · exact ⟨h left (by simp), h right (by simp)⟩
      · exact ih (fun e he => h e (by simp [he])) hc

/-- The items of the listed pairs have no gaps. -/
theorem Filled.of_mem_contacts {e : Expr} (h : e.Filled False)
    (hlisted : ∀ name inWord trace, ∀ c ∈ listed name inWord trace,
      c.left.Filled False ∧ c.right.Filled False)
    {inWord : Bool} {trace : List Span} {c : Contact} (hc : c ∈ e.contacts listed inWord trace) :
    c.left.Filled False ∧ c.right.Filled False := by
  induction h generalizing inWord with
  | literal => simp [contacts] at hc
  | reference name level span => exact hlisted name inWord _ c hc
  | command => simp [contacts] at hc
  | @sequence items _ hitems ih =>
    rw [contacts] at hc
    rcases List.mem_append.mp hc with hc | hc
    · obtain ⟨e, he, hc⟩ := mem_contactsAll.mp hc
      exact ih e he hc
    · split at hc
      · exact filled_of_mem_neighbours hitems hc
      · simp at hc
  | @alternative branches _ _ ih =>
    obtain ⟨e, he, hc⟩ := mem_contactsAll.mp hc
    exact ih e he hc
  | @fallback branches _ _ ih =>
    obtain ⟨e, he, hc⟩ := mem_contactsAll.mp hc
    exact ih e he hc
  | optional _ ih => exact ih hc
  | repeated _ ih => exact ih hc
  | group _ hallowed => exact hallowed.elim
  | subword _ _ _ ih => exact ih hc

end

end Expr

namespace Definitions

variable {definitions : Definitions}
  (hfilled : ∀ name body, definitions.get? name = some body → body.Filled False)

include hfilled

/-- Where every definition that can be come to mentions only defined names of lower rank, and the depth
is above the ranks, checking an expression with its definitions is checking the pairs in order. -/
theorem checkTouching_eq {C : String → Prop} {rank : String → ℕ}
    (hrank : ∀ name body, C name → definitions.get? name = some body →
      ∀ other ∈ body.references, definitions.contains other = true →
        C other ∧ rank other < rank name)
    (depth : ℕ) {e : Expr} (he : e.Filled False)
    (hdepth : ∀ name ∈ e.references, definitions.contains name = true →
      C name ∧ rank name < depth)
    (inWord : Bool) (trace : List Span) :
    definitions.checkTouching depth e inWord trace =
      forM (definitions.contacts depth e inWord trace) Contact.check := by
  induction depth generalizing e inWord trace with
  | zero =>
    apply he.checkTouching_eq
    intro name hname inWord trace
    rw [if_neg]
    · rfl
    · intro hdefined
      exact absurd (hdepth name hname hdefined).2 (Nat.not_lt_zero _)
  | succ depth ih =>
    apply he.checkTouching_eq
    intro name hname inWord trace
    cases hbody : definitions.get? name with
    | none => rfl
    | some body =>
      apply ih (hfilled name body hbody)
      intro other hother hdefined
      obtain ⟨hcalled, hname⟩ := hdepth name hname (by simp [OrderedMap.contains, hbody])
      obtain ⟨hcalled', hlower⟩ := hrank name body hcalled hbody other hother hdefined
      exact ⟨hcalled', by omega⟩

/-- The pairs of an expression without gaps have no gaps. -/
theorem filled_of_mem_contacts (depth : ℕ) {e : Expr} (he : e.Filled False) {inWord : Bool}
    {trace : List Span} {c : Contact} (hc : c ∈ definitions.contacts depth e inWord trace) :
    c.left.Filled False ∧ c.right.Filled False := by
  induction depth generalizing e inWord trace c with
  | zero => exact he.of_mem_contacts (by simp) hc
  | succ depth ih =>
    refine he.of_mem_contacts ?_ hc
    intro name inWord trace c' hc'
    split at hc'
    · next body hbody => exact ih (hfilled name body hbody) hc'
    · simp at hc'

end Definitions

/-! ### The first pair that does not pass -/

namespace Contact

/-- Whether a pair does not pass. -/
def offends (c : Contact) : Bool := c.nested || c.touching

section

variable {c : Contact} (hleft : c.left.Filled False) (hright : c.right.Filled False)

include hleft hright

/-- A pair is a fault if a subword meets the neighbour, is rejected if a literal meets a literal, and
passes otherwise. -/
theorem check_cases :
    (c.nested = true ∧ c.check = giveUp .nestedSubword) ∨
    (c.nested = false ∧ c.touching = true ∧
      ∃ first second, c.check = reject (.adjacentLiterals first second c.trace)) ∨
    (c.nested = false ∧ c.touching = false ∧ c.check = .ok ()) := by
  unfold nested touching check
  rw [refuseTouching, hleft.tail_eq, hright.head_eq]
  cases hl : c.left.back.isSubword with
  | true => exact Or.inl ⟨rfl, rfl⟩
  | false =>
    cases hr : c.right.front.isSubword with
    | true => exact Or.inl ⟨rfl, rfl⟩
    | false =>
      refine Or.inr ?_
      generalize c.left.back = l at *
      generalize c.right.front = r at *
      cases l with
      | literal =>
        cases r with
        | literal => exact Or.inl ⟨rfl, rfl, _, _, rfl⟩
        | _ => exact Or.inr ⟨rfl, rfl, rfl⟩
      | _ => exact Or.inr ⟨rfl, rfl, rfl⟩

/-- A pair passes exactly if it does not offend. -/
theorem check_eq_ok_iff : c.check = .ok () ↔ c.offends = false := by
  rw [offends, Bool.or_eq_false_iff]
  obtain ⟨hnested, hcheck⟩ | ⟨hnested, htouching, first, second, hcheck⟩ |
    ⟨hnested, htouching, hcheck⟩ := check_cases hleft hright
  · simp [hcheck, hnested, giveUp]
  · simp [hcheck, htouching, reject]
  · simp [hcheck, hnested, htouching]

/-- A pair has a fault exactly if a subword is met in it. -/
theorem check_eq_fault_iff {f : Fault} :
    c.check = .error (.fault f) ↔ f = .nestedSubword ∧ c.nested = true := by
  obtain ⟨hnested, hcheck⟩ | ⟨hnested, htouching, first, second, hcheck⟩ |
    ⟨hnested, htouching, hcheck⟩ := check_cases hleft hright
  · simp [hcheck, hnested, giveUp, eq_comm]
  · simp [hcheck, hnested, reject]
  · simp [hcheck, hnested]

end

/-- Whether the first pair that does not pass is one in which a subword meets the neighbour. -/
def MeetsNested (cs : List Contact) : Prop :=
  ∃ c, cs.find? offends = some c ∧ c.nested = true

/-- The check of all pairs has a fault exactly if the first pair that does not pass has one. -/
theorem forM_check_eq_fault_iff {cs : List Contact}
    (hcs : ∀ c ∈ cs, c.left.Filled False ∧ c.right.Filled False) {f : Fault} :
    forM cs check = .error (.fault f) ↔ f = .nestedSubword ∧ MeetsNested cs := by
  rw [Result.forM_eq_error]
  constructor
  · rintro ⟨before, c, after, rfl, hbefore, hc⟩
    obtain ⟨hleft, hright⟩ := hcs c (by simp)
    obtain ⟨rfl, hnested⟩ := (check_eq_fault_iff hleft hright).mp hc
    refine ⟨rfl, c, ?_, hnested⟩
    rw [List.find?_eq_some_iff_append]
    refine ⟨by simp [offends, hnested], before, after, rfl, fun b hb => ?_⟩
    obtain ⟨hleft, hright⟩ := hcs b (by simp [hb])
    simpa using (check_eq_ok_iff hleft hright).mp (hbefore b hb)
  · rintro ⟨rfl, c, hfind, hnested⟩
    obtain ⟨-, before, after, rfl, hbefore⟩ := List.find?_eq_some_iff_append.mp hfind
    refine ⟨before, c, after, rfl, fun b hb => ?_, ?_⟩
    · obtain ⟨hleft, hright⟩ := hcs b (by simp [hb])
      exact (check_eq_ok_iff hleft hright).mpr (by simpa using hbefore b hb)
    · obtain ⟨hleft, hright⟩ := hcs c (by simp)
      exact (check_eq_fault_iff hleft hright).mpr ⟨rfl, hnested⟩

/-- The check of all pairs passes if every pair does. Otherwise it has a fault if a subword meets the
neighbour in the first pair that does not pass, and is a rejection if not. -/
theorem forM_check_cases {cs : List Contact}
    (hcs : ∀ c ∈ cs, c.left.Filled False ∧ c.right.Filled False) :
    (forM cs check = .ok () ∧ ∀ c ∈ cs, c.offends = false) ∨
      (forM cs check = giveUp .nestedSubword ∧ MeetsNested cs) ∨
      ((∃ first second trace, forM cs check = reject (.adjacentLiterals first second trace)) ∧
        (∃ c ∈ cs, c.offends = true) ∧ ¬ MeetsNested cs) := by
  cases hfind : cs.find? offends with
  | none =>
    have hall : ∀ c ∈ cs, c.offends = false := by simpa using hfind
    refine Or.inl ⟨?_, hall⟩
    cases hcheck : forM cs check with
    | ok => rfl
    | error e =>
      obtain ⟨before, c, after, rfl, -, hc⟩ := Result.forM_eq_error.mp hcheck
      obtain ⟨hleft, hright⟩ := hcs c (by simp)
      rw [(check_eq_ok_iff hleft hright).mpr (hall c (by simp))] at hc
      cases hc
  | some c =>
    obtain ⟨hc, before, after, rfl, hbefore⟩ := List.find?_eq_some_iff_append.mp hfind
    obtain ⟨hleft, hright⟩ := hcs c (by simp)
    rcases check_cases hleft hright with ⟨hnested, -⟩ |
      ⟨hnested, -, first, second, hcheck⟩ | ⟨hnested, htouching, -⟩
    · have hmeets : MeetsNested (before ++ c :: after) := ⟨c, hfind, hnested⟩
      exact Or.inr (Or.inl ⟨(forM_check_eq_fault_iff hcs).mpr ⟨rfl, hmeets⟩, hmeets⟩)
    · refine Or.inr (Or.inr ⟨⟨first, second, c.trace, ?_⟩, ⟨c, by simp, hc⟩, ?_⟩)
      · refine Result.forM_eq_error.mpr ⟨before, c, after, rfl, fun b hb => ?_, hcheck⟩
        obtain ⟨hleft, hright⟩ := hcs b (by simp [hb])
        exact (check_eq_ok_iff hleft hright).mpr (by simpa using hbefore b hb)
      · rintro ⟨c', hfind', hnested'⟩
        rw [hfind] at hfind'
        cases hfind'
        rw [hnested] at hnested'
        cases hnested'
    · simp [offends, hnested, htouching] at hc

/-- Where a subword is met, a pair offends. -/
theorem MeetsNested.exists_offends {cs : List Contact} (h : MeetsNested cs) :
    ∃ c ∈ cs, c.offends = true := by
  obtain ⟨c, hfind, -⟩ := h
  exact ⟨c, List.mem_of_find?_eq_some hfind, List.find?_some hfind⟩

/-- All pairs pass exactly if none offends. -/
theorem forM_check_eq_ok_iff {cs : List Contact}
    (hcs : ∀ c ∈ cs, c.left.Filled False ∧ c.right.Filled False) :
    forM cs check = .ok () ↔ ∀ c ∈ cs, c.offends = false := by
  rcases forM_check_cases hcs with ⟨hcheck, hpass⟩ | ⟨hcheck, hmeets⟩ |
    ⟨⟨first, second, trace, hcheck⟩, hoffends, -⟩
  · exact iff_of_true hcheck hpass
  · refine iff_of_false (by simp [hcheck, giveUp]) ?_
    simpa using hmeets.exists_offends
  · refine iff_of_false (by simp [hcheck, reject]) ?_
    simpa using hoffends

end Contact

end ShellCompletion
