import ShellCompletion.Grammar.Parser
import ShellCompletion.Proofs.Contacts
import ShellCompletion.Proofs.Definitions

/-!
# Which literals are found to touch

The check for touching literals goes down an expression, into the definitions of the names that it
mentions, and compares the neighbours in each sequence inside a word. Literals touch if the left neighbour
ends with one and the right neighbour begins with one, where a sequence begins as its first item does and
ends as its last item does. The check takes for the end of a sequence what its last item *begins* with.
That is the same thing unless the last item is a sequence itself, and then literals that touch may be
missed, and others refused that do not touch.
-/

namespace ShellCompletion

namespace Definitions

variable (definitions : Definitions)

/-- Whether going down from an expression, and from references to their definitions, one comes to a part.
It is kept whether one is inside a word. -/
inductive Leads : Bool → Expr → Bool → Expr → Prop
  | here {within : Bool} {e : Expr} : Leads within e within e
  | item {within within' : Bool} {items : List Expr} {e part : Expr} (he : e ∈ items)
    (h : Leads within e within' part) : Leads within (.sequence items) within' part
  | choice {within within' : Bool} {branches : List Expr} {e part : Expr} (he : e ∈ branches)
    (h : Leads within e within' part) : Leads within (.alternative branches) within' part
  | branch {within within' : Bool} {branches : List Expr} {e part : Expr} (he : e ∈ branches)
    (h : Leads within e within' part) : Leads within (.fallback branches) within' part
  | optional {within within' : Bool} {e part : Expr} (h : Leads within e within' part) :
    Leads within (.optional e) within' part
  | repeated {within within' : Bool} {e part : Expr} (h : Leads within e within' part) :
    Leads within (.repeated e) within' part
  | described {within within' : Bool} {e part : Expr} (description : String)
    (h : Leads within e within' part) : Leads within (.described e description) within' part
  | word {within within' : Bool} {e part : Expr} (level : ℕ) (span : Option Span)
    (h : Leads true e within' part) : Leads within (.subword e level span) within' part
  | definition {within within' : Bool} {name : String} {body part : Expr} (level : ℕ) (span : Option Span)
    (hbody : definitions.get? name = some body) (h : Leads within body within' part) :
    Leads within (.reference name level span) within' part

/-- Whether two expressions are neighbours in a sequence that is inside a word, in an expression or in the
definitions of the names that it leads to. -/
def Neighbours (e left right : Expr) : Prop :=
  ∃ items, definitions.Leads false e true (.sequence items) ∧ [left, right] <:+: items

/-- Whether literals in an expression are refused because they touch. -/
def Refuses (e : Expr) : Prop :=
  ∃ first second trace, e.refuseTouchingLiterals definitions = reject (.adjacentLiterals first second trace)

end Definitions

namespace Expr

mutual

/-- What an expression ends with, if sequences are entered. -/
def last : Expr → Expr
  | .sequence items => lastOr (.sequence items) items
  | e => e

/-- What the last expression of a list ends with, or the given expression. -/
def lastOr (missing : Expr) : List Expr → Expr
  | [] => missing
  | e :: es => lastOr e.last es

end

theorem lastOr_eq {missing x : Expr} {es : List Expr} (h : es.getLast? = some x) :
    lastOr missing es = x.last := by
  induction es generalizing missing with
  | nil => simp at h
  | cons e es ih =>
    rw [lastOr]
    cases es with
    | nil =>
      cases h
      rfl
    | cons e' es => exact ih (by simpa using h)

/-- A sequence ends with what its last item ends with. -/
theorem last_sequence {items : List Expr} {x : Expr} (h : items.getLast? = some x) :
    (sequence items).last = x.last := by
  rw [last, lastOr_eq h]

/-- What is looked at in the end of a sequence is the beginning of its last item. -/
theorem back_sequence {items : List Expr} {x : Expr} (h : items.getLast? = some x) :
    (sequence items).back = x.front := by
  rw [back, h]
  rfl

end Expr

/-- Whether literals of an expression touch inside a word: of some neighbours, the left one ends and the
right one begins with a literal. -/
def Definitions.Touches (definitions : Definitions) (e : Expr) : Prop :=
  ∃ left right, definitions.Neighbours e left right ∧
    left.last.isLiteral = true ∧ right.front.isLiteral = true

/-- Neighbours are two items that follow each other. -/
theorem mem_neighbours {trace : List Span} {items : List Expr} {c : Contact} :
    c ∈ neighbours trace items ↔ c.trace = trace ∧ [c.left, c.right] <:+: items := by
  induction items with
  | nil => simp [neighbours]
  | cons left items ih =>
    cases items with
    | nil => simp [neighbours, List.infix_cons_iff]
    | cons right others =>
      rw [neighbours, List.mem_cons, ih, @List.infix_cons_iff _ _ left, List.cons_prefix_cons,
        List.cons_prefix_cons]
      rcases c with ⟨l, r, t⟩
      simp only [Contact.mk.injEq, List.nil_prefix, and_true]
      tauto

namespace Definitions

variable {definitions : Definitions}

/-- What leads to a part leads to the pieces of that part. -/
theorem Leads.trans {within within' within'' : Bool} {e part piece : Expr}
    (h : definitions.Leads within e within' part) (h' : definitions.Leads within' part within'' piece) :
    definitions.Leads within e within'' piece := by
  induction h with
  | here => exact h'
  | item he _ ih => exact .item he (ih h')
  | choice he _ ih => exact .choice he (ih h')
  | branch he _ ih => exact .branch he (ih h')
  | optional _ ih => exact .optional (ih h')
  | repeated _ ih => exact .repeated (ih h')
  | described description _ ih => exact .described description (ih h')
  | word level span _ ih => exact .word level span (ih h')
  | definition level span hbody _ ih => exact .definition level span hbody (ih h')

/-- What an expression begins with is a part of it. -/
theorem leads_front {e : Expr} (he : e.Filled False) (within : Bool) :
    definitions.Leads within e within e.front := by
  induction he with
  | @sequence items hne _ ih =>
    cases items with
    | nil => exact (hne rfl).elim
    | cons e es => exact .item (by simp) (ih e (by simp))
  | _ => exact .here

/-- What the check takes for the end of an expression is a part of it. -/
theorem leads_back {e : Expr} (he : e.Filled False) (within : Bool) :
    definitions.Leads within e within e.back := by
  cases he with
  | @sequence items hne hitems =>
    have hlast := List.getLast_mem hne
    rw [Expr.back_sequence (List.getLast?_eq_getLast_of_ne_nil hne)]
    exact .item hlast (leads_front (hitems _ hlast) within)
  | _ => exact .here

/-! ### The listed pairs and the neighbours -/

/-- The pairs of the definition of a name, where definitions are unfolded up to the given depth. -/
def listed (definitions : Definitions) : ℕ → String → Bool → List Span → List Contact
  | 0, _, _, _ => []
  | depth + 1, name, within, trace =>
    match definitions.get? name with
    | some body => definitions.contacts depth body within trace
    | none => []

/-- The pairs within a depth are found by listing those of the references. -/
theorem contacts_eq (depth : ℕ) (e : Expr) (within : Bool) (trace : List Span) :
    definitions.contacts depth e within trace = e.contacts (definitions.listed depth) within trace := by
  cases depth <;> rfl

/-- Each pair of an expression is one of neighbours in a sequence to which it leads, if that is so for the
pairs of what its references stand for. -/
theorem exists_leads_of_contacts {unfold : String → Bool → List Span → List Contact}
    (hunfold : ∀ name within trace, ∀ c ∈ unfold name within trace,
      ∃ body items, definitions.get? name = some body ∧
        definitions.Leads within body true (.sequence items) ∧ [c.left, c.right] <:+: items)
    {e : Expr} {within : Bool} {trace : List Span} {c : Contact} (hc : c ∈ e.contacts unfold within trace) :
    ∃ items, definitions.Leads within e true (.sequence items) ∧ [c.left, c.right] <:+: items := by
  induction e generalizing within with
  | literal => simp [Expr.contacts] at hc
  | reference name level span =>
    obtain ⟨body, items, hbody, hleads, hpair⟩ := hunfold _ _ _ c hc
    exact ⟨items, .definition level span hbody hleads, hpair⟩
  | command => simp [Expr.contacts] at hc
  | sequence items ih =>
    rw [Expr.contacts] at hc
    rcases List.mem_append.mp hc with hc | hc
    · obtain ⟨e, he, hc⟩ := Expr.mem_contactsAll.mp hc
      obtain ⟨found, hleads, hpair⟩ := ih e he hc
      exact ⟨found, .item he hleads, hpair⟩
    · cases within with
      | false => simp at hc
      | true => exact ⟨items, .here, (mem_neighbours.mp hc).2⟩
  | alternative branches ih =>
    obtain ⟨e, he, hc⟩ := Expr.mem_contactsAll.mp hc
    obtain ⟨found, hleads, hpair⟩ := ih e he hc
    exact ⟨found, .choice he hleads, hpair⟩
  | fallback branches ih =>
    obtain ⟨e, he, hc⟩ := Expr.mem_contactsAll.mp hc
    obtain ⟨found, hleads, hpair⟩ := ih e he hc
    exact ⟨found, .branch he hleads, hpair⟩
  | optional e ih =>
    obtain ⟨found, hleads, hpair⟩ := ih hc
    exact ⟨found, .optional hleads, hpair⟩
  | repeated e ih =>
    obtain ⟨found, hleads, hpair⟩ := ih hc
    exact ⟨found, .repeated hleads, hpair⟩
  | described e description ih =>
    obtain ⟨found, hleads, hpair⟩ := ih hc
    exact ⟨found, .described description hleads, hpair⟩
  | subword e level span ih =>
    obtain ⟨found, hleads, hpair⟩ := ih hc
    exact ⟨found, .word level span hleads, hpair⟩

/-- Each listed pair is one of neighbours in a sequence to which the expression leads. -/
theorem exists_leads_of_mem {depth : ℕ} {e : Expr} {within : Bool} {trace : List Span} {c : Contact}
    (hc : c ∈ definitions.contacts depth e within trace) :
    ∃ items, definitions.Leads within e true (.sequence items) ∧ [c.left, c.right] <:+: items := by
  induction depth generalizing e within trace c with
  | zero => exact exists_leads_of_contacts (by simp) hc
  | succ depth ih =>
    refine exists_leads_of_contacts ?_ hc
    intro name within trace c' hc'
    split at hc'
    · next body hbody =>
      obtain ⟨items, hleads, hpair⟩ := ih hc'
      exact ⟨body, items, hbody, hleads, hpair⟩
    · simp at hc'

/-- Neighbours in a sequence to which an expression leads are listed, if every name that is mentioned on the
way has a lower rank than the last one, and the depth is above the ranks. -/
theorem Leads.exists_mem_contacts {rank : String → ℕ}
    (hrank : ∀ name body, definitions.get? name = some body → ∀ other ∈ body.references,
      definitions.contains other = true → rank other < rank name)
    {within within' : Bool} {e part : Expr} (h : definitions.Leads within e within' part)
    {items : List Expr} (hwithin : within' = true) (hpart : part = .sequence items)
    {left right : Expr} (hpair : [left, right] <:+: items)
    {depth : ℕ} (hdepth : ∀ name ∈ e.references, definitions.contains name = true → rank name < depth)
    (trace : List Span) :
    ∃ trace', ⟨left, right, trace'⟩ ∈ definitions.contacts depth e within trace := by
  simp only [contacts_eq] at *
  induction h generalizing depth trace with
  | here =>
    subst hwithin hpart
    refine ⟨trace, ?_⟩
    rw [Expr.contacts, if_pos rfl, List.mem_append, mem_neighbours]
    exact .inr ⟨rfl, hpair⟩
  | item he _ ih =>
    obtain ⟨trace', hmem⟩ := ih hwithin hpart
      (fun name hname => hdepth name (Expr.mem_referencesAll.mpr ⟨_, he, hname⟩)) trace
    refine ⟨trace', ?_⟩
    rw [Expr.contacts, List.mem_append, Expr.mem_contactsAll]
    exact .inl ⟨_, he, hmem⟩
  | choice he _ ih =>
    obtain ⟨trace', hmem⟩ := ih hwithin hpart
      (fun name hname => hdepth name (Expr.mem_referencesAll.mpr ⟨_, he, hname⟩)) trace
    exact ⟨trace', Expr.mem_contactsAll.mpr ⟨_, he, hmem⟩⟩
  | branch he _ ih =>
    obtain ⟨trace', hmem⟩ := ih hwithin hpart
      (fun name hname => hdepth name (Expr.mem_referencesAll.mpr ⟨_, he, hname⟩)) trace
    exact ⟨trace', Expr.mem_contactsAll.mpr ⟨_, he, hmem⟩⟩
  | optional _ ih => exact ih hwithin hpart hdepth trace
  | repeated _ ih => exact ih hwithin hpart hdepth trace
  | described _ _ ih => exact ih hwithin hpart hdepth trace
  | word _ _ _ ih => exact ih hwithin hpart hdepth trace
  | @definition _ _ name body _ level span hbody _ ih =>
    have hlower := hdepth name (by simp [Expr.references]) (by simp [OrderedMap.contains, hbody])
    cases depth with
    | zero => exact (Nat.not_lt_zero _ hlower).elim
    | succ depth =>
      rw [Expr.contacts, listed, hbody]
      simp only [contacts_eq]
      apply ih hwithin hpart
      intro other hother hdefined
      have hother := hrank name body hbody other hother hdefined
      omega

/-- The pairs that the check compares are those of neighbours, if no definition depends on itself. -/
theorem exists_contact_iff (hacyclic : definitions.Acyclic) {e left right : Expr} :
    (∃ trace, ⟨left, right, trace⟩ ∈ definitions.contacts (2 * definitions.size) e false []) ↔
      definitions.Neighbours e left right := by
  constructor
  · rintro ⟨trace, hc⟩
    exact exists_leads_of_mem hc
  · rintro ⟨items, hleads, hpair⟩
    obtain ⟨rank, hbound, hlower⟩ := hacyclic.exists_rank
    refine hleads.exists_mem_contacts hlower rfl rfl hpair ?_ []
    intro name _ hdefined
    have hlt := hbound name hdefined
    omega

/-- Checking an expression with its definitions is checking the pairs in order, if no definition depends on
itself. -/
theorem Acyclic.refuseTouchingLiterals_eq (hacyclic : definitions.Acyclic)
    (hfilled : ∀ name body, definitions.get? name = some body → body.Filled False) {e : Expr}
    (he : e.Filled False) :
    e.refuseTouchingLiterals definitions =
      forM (definitions.contacts (2 * definitions.size) e false []) Contact.check := by
  obtain ⟨rank, hbound, hlower⟩ := hacyclic.exists_rank
  have hdown : ∀ name body, True → definitions.get? name = some body → ∀ other ∈ body.references,
      definitions.contains other = true → True ∧ rank other < rank name :=
    fun name body _ hbody other hother hdefined => ⟨trivial, hlower name body hbody other hother hdefined⟩
  refine checkTouching_eq hfilled hdown _ he ?_ false []
  intro name _ hdefined
  have hlt := hbound name hdefined
  exact ⟨trivial, by omega⟩

end Definitions

namespace Expr

/-- A subword has a body. -/
theorem exists_of_isSubword {e : Expr} (h : e.isSubword = true) :
    ∃ body level span, e = .subword body level span := by
  cases e with
  | subword body level span => exact ⟨body, level, span, rfl⟩
  | _ => cases h

/-- The check takes the end of an expression for a literal exactly if it is one, if the last item of a
sequence begins with a literal exactly if it ends with one. -/
theorem isLiteral_back_eq {e : Expr}
    (h : ∀ items x, e = .sequence items → items.getLast? = some x → x.front.isLiteral = x.last.isLiteral) :
    e.back.isLiteral = e.last.isLiteral := by
  cases e with
  | sequence items =>
    cases hlast : items.getLast? with
    | none =>
      obtain rfl := List.getLast?_eq_none_iff.mp hlast
      rfl
    | some x =>
      rw [back_sequence hlast, last_sequence hlast]
      exact h items x rfl hlast
  | _ => rfl

end Expr

section

variable {definitions : Definitions} {e : Expr}
  (hfilled : ∀ name body, definitions.get? name = some body → body.Filled False) (he : e.Filled False)
  (hflat : ∀ body level span, ¬ definitions.Leads false e true (.subword body level span))

include hfilled he hflat

/-- No pair is one in which a subword meets the neighbour, if no subword is inside of another. -/
theorem not_nested_of_flat {c : Contact}
    (hc : c ∈ definitions.contacts (2 * definitions.size) e false []) : c.nested = false := by
  obtain ⟨items, hleads, hpair⟩ := Definitions.exists_leads_of_mem hc
  obtain ⟨hleft, hright⟩ := Definitions.filled_of_mem_contacts hfilled _ he hc
  have hends : ∀ x ∈ items, ∀ part, definitions.Leads true x true part → part.isSubword = false := by
    intro x hx part hpart
    rw [Bool.eq_false_iff]
    intro hsubword
    obtain ⟨body, level, span, rfl⟩ := Expr.exists_of_isSubword hsubword
    exact hflat body level span (hleads.trans (.item hx hpart))
  rw [Contact.nested, hends c.left (hpair.subset (by simp)) _ (Definitions.leads_back hleft true),
    hends c.right (hpair.subset (by simp)) _ (Definitions.leads_front hright true)]
  rfl

variable (hacyclic : definitions.Acyclic)

include hacyclic

/-- The check passes or refuses literals. It refuses them if a right neighbour begins with a literal and the
check takes a literal for the end of the left one. -/
theorem refuses_cases :
    (e.refuseTouchingLiterals definitions = .ok () ∧
      ∀ left right, definitions.Neighbours e left right →
        ¬ (left.back.isLiteral = true ∧ right.front.isLiteral = true)) ∨
    (definitions.Refuses e ∧
      ∃ left right, definitions.Neighbours e left right ∧
        left.back.isLiteral = true ∧ right.front.isLiteral = true) := by
  have hnested := @not_nested_of_flat definitions e hfilled he hflat
  rw [Definitions.Refuses, hacyclic.refuseTouchingLiterals_eq hfilled he]
  rcases Contact.forM_check_cases
      (fun c hc => Definitions.filled_of_mem_contacts hfilled _ he hc) with
    ⟨hcheck, hpass⟩ | ⟨-, c, hfind, hmeets⟩ | ⟨hcheck, ⟨c, hc, hoffends⟩, -⟩
  · refine .inl ⟨hcheck, ?_⟩
    rintro left right hpair ⟨hleft, hright⟩
    obtain ⟨trace, hc⟩ := (Definitions.exists_contact_iff hacyclic).mpr hpair
    have hpassed := hpass _ hc
    simp [Contact.offends, Contact.touching, hleft, hright] at hpassed
  · rw [hnested (List.mem_of_find?_eq_some hfind)] at hmeets
    cases hmeets
  · refine .inr ⟨hcheck, c.left, c.right, (Definitions.exists_contact_iff hacyclic).mp ⟨c.trace, hc⟩, ?_⟩
    rw [Contact.offends, hnested hc, Bool.false_or, Contact.touching, Bool.and_eq_true] at hoffends
    exact hoffends

/-- Refused are expressions with neighbours that touch where the check looks. -/
theorem refuses_iff : definitions.Refuses e ↔
    ∃ left right, definitions.Neighbours e left right ∧
      left.back.isLiteral = true ∧ right.front.isLiteral = true := by
  obtain ⟨hpass, hnone⟩ | ⟨hrefuses, hsome⟩ := refuses_cases hfilled he hflat hacyclic
  · refine iff_of_false ?_ ?_
    · rintro ⟨first, second, trace, hreject⟩
      rw [hpass] at hreject
      cases hreject
    · rintro ⟨left, right, hpair, htouching⟩
      exact hnone left right hpair htouching
  · exact iff_of_true hrefuses hsome

/-- Without description groups, circles of definitions and subwords inside of words, the check for touching
literals either passes or refuses some. It does the latter if of some neighbours the right one begins with a
literal and so does the last item of the left one, if that is a sequence, or the left one itself. Hence it
refuses literals exactly if there are some that touch, unless it is misled by a last item that is a sequence
and begins with a literal but does not end with one, or the other way round. -/
theorem touching_refused_iff :
    (e.refuseTouchingLiterals definitions = .ok () ∨ definitions.Refuses e) ∧
    (definitions.Refuses e ↔
      ∃ left right, definitions.Neighbours e left right ∧
        left.back.isLiteral = true ∧ right.front.isLiteral = true) ∧
    ((definitions.Refuses e ↔ definitions.Touches e) ↔
      definitions.Refuses e ∧ definitions.Touches e ∨
      ∀ items x right, definitions.Neighbours e (.sequence items) right → items.getLast? = some x →
        right.front.isLiteral = true → x.front.isLiteral = x.last.isLiteral) := by
  have hrefuses := refuses_iff hfilled he hflat hacyclic
  refine ⟨?_, hrefuses, ?_⟩
  · exact (refuses_cases hfilled he hflat hacyclic).imp And.left And.left
  · constructor
    · intro hright
      by_cases hfound : definitions.Refuses e
      · exact .inl ⟨hfound, hright.mp hfound⟩
      · refine .inr fun items x right hpair hlast hfront => ?_
        have hback : x.front.isLiteral = false := by
          rw [Bool.eq_false_iff]
          intro hback
          exact hfound (hrefuses.mpr ⟨_, right, hpair, by rwa [Expr.back_sequence hlast], hfront⟩)
        have hend : x.last.isLiteral = false := by
          rw [Bool.eq_false_iff]
          intro hend
          exact hfound (hright.mpr ⟨_, right, hpair, by rwa [Expr.last_sequence hlast], hfront⟩)
        rw [hback, hend]
    · rintro (hboth | hends)
      · exact iff_of_true hboth.1 hboth.2
      · have hsame : ∀ left right, definitions.Neighbours e left right → right.front.isLiteral = true →
            left.back.isLiteral = left.last.isLiteral := by
          intro left right hpair hfront
          apply Expr.isLiteral_back_eq
          rintro items x rfl hlast
          exact hends items x right hpair hlast hfront
        rw [hrefuses, Definitions.Touches]
        constructor
        · rintro ⟨left, right, hpair, hback, hfront⟩
          exact ⟨left, right, hpair, hsame left right hpair hfront ▸ hback, hfront⟩
        · rintro ⟨left, right, hpair, hend, hfront⟩
          exact ⟨left, right, hpair, (hsame left right hpair hfront).symm ▸ hend, hfront⟩

end

/-- The definition of `<B> ::= a b;`. -/
def spacedPair : Definitions :=
  OrderedMap.empty.insert "B" (.sequence [.literal "a" none 0 none, .literal "b" none 0 none])

/-- The word `<B>c`. -/
def wordOfPair : Expr :=
  .subword (.sequence [.reference "B" 0 none, .literal "c" none 0 none]) 0 none

/-- Its names are defined as two literals with a space between them. -/
theorem get?_spacedPair {name : String} {body : Expr} (h : spacedPair.get? name = some body) :
    body = .sequence [.literal "a" none 0 none, .literal "b" none 0 none] := by
  rw [spacedPair, OrderedMap.get?_insert] at h
  split at h
  · exact (Option.some.inj h).symm
  · cases h

/-- Inside the word `<B>c` the items of `<B>` touch. -/
theorem touching_refused_spacedPair : spacedPair.Acyclic ∧
    (∀ body level span, ¬ spacedPair.Leads false wordOfPair true (.subword body level span)) ∧
    spacedPair.Refuses wordOfPair ∧ spacedPair.Touches wordOfPair := by
  have hacyclic : spacedPair.Acyclic := by
    intro name hcircle
    obtain ⟨other, ⟨body, hbody, hmentioned⟩, -⟩ := Relation.TransGen.head'_iff.mp hcircle
    rw [get?_spacedPair hbody] at hmentioned
    simp [Expr.references, Expr.referencesAll] at hmentioned
  have hfilled : ∀ name body, spacedPair.get? name = some body → body.Filled False := by
    intro name body hbody
    rw [get?_spacedPair hbody]
    refine .sequence (by simp) fun e he => ?_
    obtain rfl | rfl := List.mem_pair.mp he
    · exact .literal ..
    · exact .literal ..
  have hword : wordOfPair.Filled False := by
    refine .subword 0 none (.sequence (by simp) fun e he => ?_)
    obtain rfl | rfl := List.mem_pair.mp he
    · exact .reference ..
    · exact .literal ..
  have hflat : ∀ body level span, ¬ spacedPair.Leads false wordOfPair true (.subword body level span) := by
    intro body level span hleads
    cases hleads with
    | word _ _ hleads =>
      cases hleads with
      | item he hleads =>
        obtain rfl | rfl := List.mem_pair.mp he
        · cases hleads with
          | definition _ _ hbody hleads =>
            rw [get?_spacedPair hbody] at hleads
            cases hleads with
            | item he hleads => obtain rfl | rfl := List.mem_pair.mp he <;> cases hleads
        · cases hleads
  have hpair : spacedPair.Neighbours wordOfPair (.literal "a" none 0 none) (.literal "b" none 0 none) := by
    have hreference : Expr.reference "B" 0 none ∈ [.reference "B" 0 none, .literal "c" none 0 none] := by simp
    exact ⟨_, .word 0 none (.item hreference (.definition 0 none rfl .here)), List.infix_rfl⟩
  obtain ⟨-, hrefuses, -⟩ := touching_refused_iff hfilled hword hflat hacyclic
  exact ⟨hacyclic, hflat, hrefuses.mpr ⟨_, _, hpair, rfl, rfl⟩, _, _, hpair, rfl, rfl⟩

/-- The expression of `cmd ([y] ([z] b))c;`. -/
def nestedEnd : Expr :=
  .subword (.sequence [
    .sequence [.optional (.literal "y" none 0 (some ⟨0, 6, 7⟩)),
      .sequence [.optional (.literal "z" none 0 (some ⟨0, 11, 12⟩)), .literal "b" none 0 (some ⟨0, 14, 15⟩)]],
    .literal "c" none 0 (some ⟨0, 17, 18⟩)]) 0 (some ⟨0, 4, 18⟩)

/-- In `([y] ([z] b))c` the literals `b` and `c` touch and are not refused. -/
theorem touching_refused_nestedEnd :
    Grammar.parse "cmd ([y] ([z] b))c;" = .ok ⟨[.call "cmd" nestedEnd]⟩ ∧
      Definitions.Touches .empty nestedEnd ∧
      nestedEnd.refuseTouchingLiterals .empty = .ok () ∧ ¬ Definitions.Refuses .empty nestedEnd := by
  have hpass : nestedEnd.refuseTouchingLiterals .empty = .ok () := rfl
  refine ⟨by decide +kernel, ⟨_, _, ⟨_, .word 0 _ .here, List.infix_rfl⟩, rfl, rfl⟩, hpass, ?_⟩
  rintro ⟨first, second, trace, hreject⟩
  rw [hpass] at hreject
  cases hreject

end ShellCompletion
