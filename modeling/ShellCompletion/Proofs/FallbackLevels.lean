import ShellCompletion.Proofs.ClashingVariants
import ShellCompletion.Proofs.Validation

/-!
# Fallback levels of the parts of an expression

Every literal, reference, command and subword carries a level, which should be the number of the
innermost fallback branch around it. Literals always get that number. References and commands keep the
level zero with which they were read, and so does a subword none of whose literals gets another number.
So the levels are right exactly if nothing of that kind lies in a branch other than the first one.
-/

namespace ShellCompletion

namespace Expr

/-- The fallback level that a leaf or a subword carries. -/
def level? : Expr → Option ℕ
  | .literal _ _ level _ => some level
  | .reference _ level _ => some level
  | .command _ _ level _ => some level
  | .subword _ level _ => some level
  | _ => none

/-- Where a part of an expression lies: `part.LiesIn index outer e` says that, if `e` itself is in the
branch with the number `outer`, then `index` is the number of the innermost fallback branch around
`part`. -/
inductive LiesIn (part : Expr) (index : ℕ) : ℕ → Expr → Prop
  | self : LiesIn part index index part
  | sequence {outer : ℕ} {items : List Expr} {e : Expr} : e ∈ items → LiesIn part index outer e →
    LiesIn part index outer (.sequence items)
  | alternative {outer : ℕ} {branches : List Expr} {e : Expr} : e ∈ branches →
    LiesIn part index outer e → LiesIn part index outer (.alternative branches)
  | fallback {outer rank : ℕ} {branches : List Expr} {e : Expr} : branches[rank]? = some e →
    LiesIn part index rank e → LiesIn part index outer (.fallback branches)
  | optional {outer : ℕ} {item : Expr} : LiesIn part index outer item →
    LiesIn part index outer (.optional item)
  | repeated {outer : ℕ} {item : Expr} : LiesIn part index outer item →
    LiesIn part index outer (.repeated item)
  | described {outer : ℕ} {item : Expr} {description : String} : LiesIn part index outer item →
    LiesIn part index outer (.described item description)
  | subword {outer level : ℕ} {body : Expr} {span : Option Span} : LiesIn part index outer body →
    LiesIn part index outer (.subword body level span)

/-- Whether each part that carries a level carries the number of the innermost fallback branch around it,
and zero if there is none. -/
def Levelled (e : Expr) : Prop :=
  ∀ (part : Expr) (index : ℕ), part.LiesIn index 0 e → ∀ level ∈ part.level?, level = index

/-- Whether a part gets the number of the branch that it lies in. A reference and a command get it only
in a first branch, and elsewhere a subword needs a literal that gets a number other than zero. -/
def Reached (index : ℕ) : Expr → Prop
  | .reference .. => index = 0
  | .command .. => index = 0
  | .subword body _ _ => index = 0 ∨
    ∃ (leaf : Expr) (place : ℕ), leaf.LiesIn place index body ∧ leaf.isLiteral = true ∧ place ≠ 0
  | _ => True

/-! ### Expressions as they are read -/

/-- An expression in which every level is zero. -/
inductive Unlevelled : Expr → Prop
  | literal (text : String) (description : Option String) (span : Option Span) :
    Unlevelled (.literal text description 0 span)
  | reference (name : String) (span : Option Span) : Unlevelled (.reference name 0 span)
  | command (text : String) (patterns : Option ShellTexts) (span : Option Span) :
    Unlevelled (.command text patterns 0 span)
  | sequence {items : List Expr} (hitems : ∀ e ∈ items, Unlevelled e) : Unlevelled (.sequence items)
  | alternative {branches : List Expr} (hbranches : ∀ e ∈ branches, Unlevelled e) :
    Unlevelled (.alternative branches)
  | fallback {branches : List Expr} (hbranches : ∀ e ∈ branches, Unlevelled e) :
    Unlevelled (.fallback branches)
  | optional {item : Expr} (hitem : Unlevelled item) : Unlevelled (.optional item)
  | repeated {item : Expr} (hitem : Unlevelled item) : Unlevelled (.repeated item)
  | described {item : Expr} (description : String) (hitem : Unlevelled item) :
    Unlevelled (.described item description)
  | subword {body : Expr} (span : Option Span) (hbody : Unlevelled body) :
    Unlevelled (.subword body 0 span)

namespace Unlevelled

variable {e : Expr}

theorem flatten (h : e.Unlevelled) : e.flatten.Unlevelled := by
  induction h with
  | literal => exact .literal ..
  | reference => exact .reference ..
  | command => exact .command ..
  | sequence _ ih =>
    rw [Expr.flatten, flattenAll_eq_map]
    exact .sequence (by simpa using ih)
  | alternative _ ih =>
    rw [Expr.flatten, flattenAll_eq_map]
    exact .alternative (by simpa using ih)
  | fallback _ ih =>
    rw [Expr.flatten, flattenAll_eq_map]
    exact .fallback (by simpa using ih)
  | optional _ ih => exact .optional ih
  | repeated _ ih => exact .repeated ih
  | described description _ ih => exact .described description ih
  | subword _ _ ih => exact ih

theorem distribute (h : e.Unlevelled) (handed : Option String) :
    (e.distribute handed).1.Unlevelled := by
  have halong : ∀ es : List Expr, (∀ e ∈ es, ∀ handed, (e.distribute handed).1.Unlevelled) →
      ∀ handed, ∀ x ∈ (distributeAlong handed es).1, x.Unlevelled := by
    intro es hes handed x hx
    obtain ⟨e, he, handed, rfl⟩ := exists_of_mem_forall₂ (forall₂_distributeAlong handed es) hx
    exact hes e he handed
  induction h generalizing handed with
  | literal text description => cases description <;> exact .literal ..
  | reference => exact .reference ..
  | command => exact .command ..
  | sequence _ ih => exact .sequence (halong _ ih handed)
  | alternative _ ih =>
    rw [Expr.distribute, distributeEach_eq_map]
    exact .alternative (by simpa using fun x hx => ih x hx handed)
  | fallback _ ih => exact .fallback (halong _ ih handed)
  | optional _ ih => exact .optional (ih handed)
  | repeated _ ih => exact .repeated (ih handed)
  | described description _ ih => exact ih (some description)
  | subword span _ ih => exact .subword span (ih handed)

theorem distributed (h : e.Unlevelled) : e.distributed.Unlevelled := h.distribute none

theorem substitute {replacement : String → Option Expr}
    (hreplacement : ∀ name body, replacement name = some body → body.Unlevelled)
    (h : e.Unlevelled) : (e.substitute replacement).Unlevelled := by
  induction h with
  | literal => exact .literal ..
  | reference name span =>
    rw [Expr.substitute]
    cases hname : replacement name with
    | none => exact .reference name span
    | some body => exact hreplacement name body hname
  | command => exact .command ..
  | sequence _ ih =>
    rw [Expr.substitute, substituteAll_eq_map]
    exact .sequence (by simpa using ih)
  | alternative _ ih =>
    rw [Expr.substitute, substituteAll_eq_map]
    exact .alternative (by simpa using ih)
  | fallback _ ih =>
    rw [Expr.substitute, substituteAll_eq_map]
    exact .fallback (by simpa using ih)
  | optional _ ih => exact .optional ih
  | repeated _ ih => exact .repeated ih
  | described description _ ih => exact .described description ih
  | subword span _ ih => exact .subword span ih

/-- The parts of an expression in which every level is zero are of that kind. -/
theorem of_liesIn {part : Expr} {index outer : ℕ} (h : e.Unlevelled)
    (hpart : part.LiesIn index outer e) : part.Unlevelled := by
  induction hpart with
  | self => exact h
  | sequence he _ ih =>
    cases h with
    | sequence hitems => exact ih (hitems _ he)
  | alternative he _ ih =>
    cases h with
    | alternative hbranches => exact ih (hbranches _ he)
  | fallback he _ ih =>
    cases h with
    | fallback hbranches => exact ih (hbranches _ (List.mem_of_getElem? he))
  | optional _ ih =>
    cases h with
    | optional hitem => exact ih hitem
  | repeated _ ih =>
    cases h with
    | repeated hitem => exact ih hitem
  | described _ ih =>
    cases h with
    | described _ hitem => exact ih hitem
  | subword _ ih =>
    cases h with
    | subword _ hbody => exact ih hbody

end Unlevelled

/-! ### What the assignment of levels does to the parts -/

/-- The branches of a fallback get their own numbers. -/
theorem getElem?_assignLevelsRanked (rank k : ℕ) (es : List Expr) :
    (assignLevelsRanked rank es)[k]? = es[k]?.map (assignLevels (rank + k)) := by
  induction es generalizing rank k with
  | nil => simp [assignLevelsRanked]
  | cons e es ih =>
    cases k with
    | zero => simp [assignLevelsRanked]
    | succ k =>
      rw [assignLevelsRanked, List.getElem?_cons_succ, List.getElem?_cons_succ, ih, Nat.add_assoc,
        Nat.add_comm 1 k]

/-- Each part of an expression gets levels according to the branch in which it lies. -/
theorem LiesIn.assignLevels {part e : Expr} {index outer : ℕ} (h : part.LiesIn index outer e) :
    (part.assignLevels index).LiesIn index outer (e.assignLevels outer) := by
  induction h with
  | self => exact .self
  | sequence he _ ih =>
    rw [Expr.assignLevels, assignLevelsAll_eq_map]
    exact .sequence (List.mem_map_of_mem he) ih
  | alternative he _ ih =>
    rw [Expr.assignLevels, assignLevelsAll_eq_map]
    exact .alternative (List.mem_map_of_mem he) ih
  | @fallback outer rank branches e he _ ih =>
    have hbranch : (assignLevelsRanked 0 branches)[rank]? = some (e.assignLevels rank) := by
      rw [getElem?_assignLevelsRanked, he, Nat.zero_add, Option.map_some]
    exact .fallback hbranch ih
  | optional _ ih => exact .optional ih
  | repeated _ ih => exact .repeated ih
  | described _ ih => exact .described ih
  | subword _ ih => exact .subword ih

/-- What lies in an expression with levels assigned is a part of the expression with levels assigned
according to its branch. -/
theorem exists_of_liesIn_assignLevels {part e : Expr} {index outer : ℕ}
    (h : part.LiesIn index outer (e.assignLevels outer)) :
    ∃ old : Expr, part = old.assignLevels index ∧ old.LiesIn index outer e := by
  induction e generalizing outer with
  | literal | reference | command =>
    cases h
    exact ⟨_, rfl, .self⟩
  | sequence items ih =>
    rw [Expr.assignLevels, assignLevelsAll_eq_map] at h
    cases h with
    | self => exact ⟨.sequence items, by rw [Expr.assignLevels, assignLevelsAll_eq_map], .self⟩
    | sequence hmem h =>
      obtain ⟨e, he, rfl⟩ := List.mem_map.mp hmem
      obtain ⟨old, hold, hpart⟩ := ih e he h
      exact ⟨old, hold, .sequence he hpart⟩
  | alternative branches ih =>
    rw [Expr.assignLevels, assignLevelsAll_eq_map] at h
    cases h with
    | self => exact ⟨.alternative branches, by rw [Expr.assignLevels, assignLevelsAll_eq_map], .self⟩
    | alternative hmem h =>
      obtain ⟨e, he, rfl⟩ := List.mem_map.mp hmem
      obtain ⟨old, hold, hpart⟩ := ih e he h
      exact ⟨old, hold, .alternative he hpart⟩
  | fallback branches ih =>
    rw [Expr.assignLevels] at h
    cases h with
    | self => exact ⟨.fallback branches, rfl, .self⟩
    | @fallback _ rank _ x hx h =>
      rw [getElem?_assignLevelsRanked, Nat.zero_add, Option.map_eq_some_iff] at hx
      obtain ⟨e, he, rfl⟩ := hx
      obtain ⟨old, hold, hpart⟩ := ih e (List.mem_of_getElem? he) h
      exact ⟨old, hold, .fallback he hpart⟩
  | optional item ih =>
    cases h with
    | self => exact ⟨.optional item, rfl, .self⟩
    | optional h =>
      obtain ⟨old, hold, hpart⟩ := ih h
      exact ⟨old, hold, .optional hpart⟩
  | repeated item ih =>
    cases h with
    | self => exact ⟨.repeated item, rfl, .self⟩
    | repeated h =>
      obtain ⟨old, hold, hpart⟩ := ih h
      exact ⟨old, hold, .repeated hpart⟩
  | described item description ih =>
    cases h with
    | self => exact ⟨.described item description, rfl, .self⟩
    | described h =>
      obtain ⟨old, hold, hpart⟩ := ih h
      exact ⟨old, hold, .described hpart⟩
  | subword body level span ih =>
    cases h with
    | self => exact ⟨.subword body level span, rfl, .self⟩
    | subword h =>
      obtain ⟨old, hold, hpart⟩ := ih h
      exact ⟨old, hold, .subword hpart⟩

/-- Assigning levels leaves literals literals and nothing else becomes one. -/
theorem isLiteral_assignLevels (e : Expr) (level : ℕ) :
    (e.assignLevels level).isLiteral = e.isLiteral := by
  cases e <;> rfl

/-- The level of something in a list changes if it does in one of its expressions. -/
theorem changesLevelAny_iff (level : ℕ) (es : List Expr) :
    changesLevelAny level es = true ↔ ∃ e ∈ es, e.changesLevel level = true := by
  induction es with
  | nil => simp [changesLevelAny]
  | cons e es ih => simp [changesLevelAny, ih]

/-- The level of something in the branches of a fallback changes if it does in one of them on its own
level. -/
theorem changesLevelRanked_iff (rank : ℕ) (es : List Expr) :
    changesLevelRanked rank es = true ↔
      ∃ (k : ℕ) (e : Expr), es[k]? = some e ∧ e.changesLevel (rank + k) = true := by
  induction es generalizing rank with
  | nil => simp [changesLevelRanked]
  | cons e es ih =>
    rw [changesLevelRanked, Bool.or_eq_true, ih]
    constructor
    · rintro (h | ⟨k, x, hx, h⟩)
      · exact ⟨0, e, rfl, h⟩
      · exact ⟨k + 1, x, hx, by rwa [Nat.add_assoc, Nat.add_comm 1 k] at h⟩
    · rintro ⟨k, x, hx, h⟩
      cases k with
      | zero =>
        cases hx
        exact .inl h
      | succ k => exact .inr ⟨k, x, hx, by rwa [Nat.add_assoc, Nat.add_comm 1 k]⟩

/-- Where a level changes, there is a literal on another level than the lowest one. -/
theorem Unlevelled.exists_literal_of_changesLevel {e : Expr} (h : e.Unlevelled) {outer : ℕ}
    (hchanges : e.changesLevel outer = true) :
    ∃ (leaf : Expr) (place : ℕ), leaf.LiesIn place outer e ∧ leaf.isLiteral = true ∧ place ≠ 0 := by
  induction h generalizing outer with
  | literal text description span =>
    have houter : 0 ≠ outer := by simpa [changesLevel] using hchanges
    exact ⟨_, outer, .self, rfl, houter.symm⟩
  | reference | command => simp [changesLevel] at hchanges
  | sequence _ ih =>
    rw [changesLevel, changesLevelAny_iff] at hchanges
    obtain ⟨e, he, hchanges⟩ := hchanges
    obtain ⟨leaf, place, hleaf, hrest⟩ := ih e he hchanges
    exact ⟨leaf, place, .sequence he hleaf, hrest⟩
  | alternative _ ih =>
    rw [changesLevel, changesLevelAny_iff] at hchanges
    obtain ⟨e, he, hchanges⟩ := hchanges
    obtain ⟨leaf, place, hleaf, hrest⟩ := ih e he hchanges
    exact ⟨leaf, place, .alternative he hleaf, hrest⟩
  | fallback _ ih =>
    rw [changesLevel, changesLevelRanked_iff] at hchanges
    obtain ⟨rank, e, he, hchanges⟩ := hchanges
    rw [Nat.zero_add] at hchanges
    obtain ⟨leaf, place, hleaf, hrest⟩ := ih e (List.mem_of_getElem? he) hchanges
    exact ⟨leaf, place, .fallback he hleaf, hrest⟩
  | optional _ ih =>
    obtain ⟨leaf, place, hleaf, hrest⟩ := ih hchanges
    exact ⟨leaf, place, .optional hleaf, hrest⟩
  | repeated _ ih =>
    obtain ⟨leaf, place, hleaf, hrest⟩ := ih hchanges
    exact ⟨leaf, place, .repeated hleaf, hrest⟩
  | described _ _ ih =>
    obtain ⟨leaf, place, hleaf, hrest⟩ := ih hchanges
    exact ⟨leaf, place, .described hleaf, hrest⟩
  | subword _ _ ih =>
    obtain ⟨leaf, place, hleaf, hrest⟩ := ih hchanges
    exact ⟨leaf, place, .subword hleaf, hrest⟩

/-- A literal on another level than the lowest one changes its level. -/
theorem Unlevelled.changesLevel_of_liesIn {e leaf : Expr} {outer place : ℕ} (h : e.Unlevelled)
    (hleaf : leaf.LiesIn place outer e) (hliteral : leaf.isLiteral = true) (hplace : place ≠ 0) :
    e.changesLevel outer = true := by
  have hzero := h.of_liesIn hleaf
  induction hleaf with
  | self =>
    cases hzero with
    | literal => simpa [changesLevel] using hplace.symm
    | _ => cases hliteral
  | sequence he _ ih =>
    cases h with
    | sequence hitems =>
      rw [changesLevel, changesLevelAny_iff]
      exact ⟨_, he, ih (hitems _ he)⟩
  | alternative he _ ih =>
    cases h with
    | alternative hbranches =>
      rw [changesLevel, changesLevelAny_iff]
      exact ⟨_, he, ih (hbranches _ he)⟩
  | fallback he _ ih =>
    cases h with
    | fallback hbranches =>
      rw [changesLevel, changesLevelRanked_iff]
      exact ⟨_, _, he, by rw [Nat.zero_add]; exact ih (hbranches _ (List.mem_of_getElem? he))⟩
  | optional _ ih =>
    cases h with
    | optional hitem => exact ih hitem
  | repeated _ ih =>
    cases h with
    | repeated hitem => exact ih hitem
  | described _ ih =>
    cases h with
    | described _ hitem => exact ih hitem
  | subword _ ih =>
    cases h with
    | subword _ hbody => exact ih hbody

/-- If all levels are zero, the ones that change are those of the literals in branches other than the
first. -/
theorem Unlevelled.changesLevel_iff {e : Expr} (h : e.Unlevelled) (outer : ℕ) :
    e.changesLevel outer = true ↔
      ∃ (leaf : Expr) (place : ℕ), leaf.LiesIn place outer e ∧ leaf.isLiteral = true ∧ place ≠ 0 := by
  constructor
  · exact h.exists_literal_of_changesLevel
  · rintro ⟨leaf, place, hleaf, hliteral, hplace⟩
    exact h.changesLevel_of_liesIn hleaf hliteral hplace

/-- Assigning levels does not change in which branches there are literals. -/
theorem exists_literal_assignLevels_iff (e : Expr) (outer : ℕ) :
    (∃ (leaf : Expr) (place : ℕ), leaf.LiesIn place outer (e.assignLevels outer) ∧
        leaf.isLiteral = true ∧ place ≠ 0) ↔
      ∃ (leaf : Expr) (place : ℕ), leaf.LiesIn place outer e ∧ leaf.isLiteral = true ∧ place ≠ 0 := by
  constructor
  · rintro ⟨leaf, place, hleaf, hliteral, hplace⟩
    obtain ⟨old, rfl, hold⟩ := exists_of_liesIn_assignLevels hleaf
    exact ⟨old, place, hold, (isLiteral_assignLevels old place).symm.trans hliteral, hplace⟩
  · rintro ⟨leaf, place, hleaf, hliteral, hplace⟩
    exact ⟨_, place, hleaf.assignLevels, (isLiteral_assignLevels leaf place).trans hliteral, hplace⟩

/-- A part that had the level zero carries the number of its branch exactly if it is reached. -/
theorem Unlevelled.level_assignLevels_iff {e : Expr} (h : e.Unlevelled) (index : ℕ) :
    (∀ level ∈ (e.assignLevels index).level?, level = index) ↔ (e.assignLevels index).Reached index := by
  cases h with
  | subword span hbody =>
    rw [assignLevels, level?, Reached, exists_literal_assignLevels_iff, ← hbody.changesLevel_iff]
    split
    · simp [*]
    · simp [*, eq_comm]
  | _ => simp [assignLevels, level?, Reached, eq_comm]

/-- The levels of an expression that is read with the level zero everywhere are right exactly if all of
its parts are reached. -/
theorem Unlevelled.levelled_assignLevels_iff {e : Expr} (h : e.Unlevelled) :
    (e.assignLevels 0).Levelled ↔
      ∀ (part : Expr) (index : ℕ), part.LiesIn index 0 (e.assignLevels 0) → part.Reached index := by
  refine forall_congr' fun part => forall_congr' fun index => forall_congr' fun hpart => ?_
  obtain ⟨old, rfl, hold⟩ := exists_of_liesIn_assignLevels hpart
  exact (h.of_liesIn hold).level_assignLevels_iff index

end Expr

/-! ### The expression of a valid grammar -/

/-- Every level is zero when an expression is read. -/
theorem Parser.readingKeeps_unlevelled : ReadingKeeps Expr.Unlevelled where
  literal := .literal
  reference := .reference
  command := .command
  sequence _ _ := .sequence
  alternative _ _ := .alternative
  fallback _ _ := .fallback
  optional _ := .optional
  repeated _ := .repeated
  described _ := .described
  subword _ span _ h := .subword span (.sequence (by simpa using fun e he => (h e he).flatten))

namespace Grammar

variable {g : Grammar}

/-- What may follow the command has no levels before they are assigned. -/
theorem unlevelled_body (h : ∀ s ∈ g.statements, s.body.Unlevelled) : g.body.Unlevelled := by
  have hcalls : ∀ c ∈ g.calls, c.2.Unlevelled := fun c hc => h _ (call_mem_statements hc)
  rw [body]
  split
  · next name e hsingle => exact hcalls (name, e) (by simp [hsingle])
  · refine .alternative fun e he => ?_
    obtain ⟨c, hc, rfl⟩ := List.mem_map.mp he
    exact hcalls c hc

/-- The resolved expression comes from one in which every level is zero. -/
theorem exists_unlevelled (h : ∀ s ∈ g.statements, s.body.Unlevelled) {resolved : ResolvedGrammar}
    (hresolve : g.resolve = .ok resolved) :
    ∃ e : Expr, e.Unlevelled ∧ resolved.body = e.assignLevels 0 := by
  obtain ⟨definitions, hunfolding, -, hbody⟩ := resolve_eq_ok hresolve
  refine ⟨_, ?_, hbody⟩
  exact forall_substituted (fun s hs => (h s hs).distributed)
    (fun _ _ hreplacement he => he.substitute hreplacement) hunfolding (unlevelled_body h).distributed _

/-- In the expression of a valid grammar each literal, reference, command and subword carries the number
of the innermost fallback branch around it exactly if no reference or command lies in a branch other
than a first one, and each subword there has a literal that gets a number other than zero. -/
theorem resolved_levelled_iff {text : String} (hparse : Grammar.parse text = .ok g) {shell : Shell}
    {valid : ValidGrammar} (hvalid : g.validate shell = .ok valid) :
    ∃ resolved, g.resolve = .ok resolved ∧ (resolved.body.Levelled ↔
      ∀ (part : Expr) (index : ℕ), part.LiesIn index 0 resolved.body → part.Reached index) := by
  obtain ⟨resolved, hresolve, -⟩ := Result.bind_eq_ok.mp hvalid
  obtain ⟨e, he, hbody⟩ :=
    exists_unlevelled (forall_of_parse Parser.readingKeeps_unlevelled hparse) hresolve
  refine ⟨resolved, hresolve, ?_⟩
  rw [hbody]
  exact he.levelled_assignLevels_iff

/-- The grammar of `cmd <PATH> || x(on || off);`. -/
def ratedWord : Grammar := ⟨[.call "cmd" (.fallback [.reference "PATH" 0 (some ⟨0, 4, 10⟩),
  .subword (.sequence [.literal "x" none 0 (some ⟨0, 14, 15⟩),
    .fallback [.literal "on" none 0 (some ⟨0, 16, 18⟩),
      .literal "off" none 0 (some ⟨0, 22, 25⟩)]]) 0 (some ⟨0, 14, 26⟩)])]⟩

/-- What may follow the command, with levels assigned. -/
def ratedBody : Expr := .fallback [.reference "PATH" 0 (some ⟨0, 4, 10⟩),
  .subword (.sequence [.literal "x" none 1 (some ⟨0, 14, 15⟩),
    .fallback [.literal "on" none 0 (some ⟨0, 16, 18⟩),
      .literal "off" none 1 (some ⟨0, 22, 25⟩)]]) 1 (some ⟨0, 14, 26⟩)]

/-- The pattern of its word. -/
def ratedPattern : Pattern Input := .sequence [.symbol (.literal "x" none 1 (some ⟨0, 14, 15⟩)),
  .fallback [.symbol (.literal "on" none 0 (some ⟨0, 16, 18⟩)),
    .symbol (.literal "off" none 1 (some ⟨0, 22, 25⟩))]]

theorem resolve_ratedWord : ∃ resolved, ratedWord.resolve = .ok resolved ∧
    resolved.body = ratedBody := by
  rw [resolve, command_of_calls rfl]
  exact ⟨_, rfl, rfl⟩

/-- It is valid. -/
theorem exists_valid_ratedWord (hparse : Grammar.parse "cmd <PATH> || x(on || off);" = .ok ratedWord) :
    ∃ valid, ratedWord.validate .bash = .ok valid := by
  obtain ⟨resolved, hresolve, hbody⟩ := resolve_ratedWord
  refine exists_valid_of_compilable (filled_of_parse hparse) hresolve fun body hmem => ?_
  have hsingle : ratedBody.flattenSubwords.subwordBodies =
    [.sequence [.literal "x" none 1 (some ⟨0, 14, 15⟩),
      .fallback [.literal "on" none 0 (some ⟨0, 16, 18⟩),
        .literal "off" none 1 (some ⟨0, 22, 25⟩)]]] := rfl
  rw [hbody, hsingle, List.mem_singleton] at hmem
  rw [hmem]
  exact ⟨ratedPattern, rfl, Positions.checkSubwordFor_eq_ok (by decide +kernel) (by decide +kernel),
    Positions.encard_discovered_le (by decide +kernel)⟩

/-- The reference lies in the first branch, and the word has a literal with the number of its own. -/
theorem reached_of_liesIn_ratedBody {part : Expr} {index : ℕ} (h : part.LiesIn index 0 ratedBody) :
    part.Reached index := by
  cases h with
  | self => trivial
  | @fallback _ rank _ _ he h =>
    match rank with
    | 0 =>
      cases he
      cases h
      rfl
    | 1 =>
      cases he
      cases h with
      | self => exact .inr ⟨_, 1, .sequence (List.mem_cons_self ..) .self, rfl, Nat.one_ne_zero⟩
      | subword h =>
        cases h with
        | self => trivial
        | sequence he h =>
          simp only [List.mem_cons, List.not_mem_nil, or_false] at he
          rcases he with rfl | rfl
          · cases h
            trivial
          · cases h with
            | self => trivial
            | @fallback _ rank _ _ he h =>
              match rank with
              | 0 | 1 =>
                cases he
                cases h
                trivial

/-- All of its leaves are on the levels of their branches. -/
theorem levelled_ratedWord : Grammar.parse "cmd <PATH> || x(on || off);" = .ok ratedWord ∧
    ∃ valid, ratedWord.validate .bash = .ok valid ∧
      ∃ resolved, ratedWord.resolve = .ok resolved ∧ resolved.body.Levelled := by
  have hparse : Grammar.parse "cmd <PATH> || x(on || off);" = .ok ratedWord := by decide +kernel
  obtain ⟨valid, hvalid⟩ := exists_valid_ratedWord hparse
  obtain ⟨resolved, hresolve, hiff⟩ := resolved_levelled_iff hparse hvalid
  obtain ⟨resolved', hresolve', hbody⟩ := resolve_ratedWord
  rw [hresolve] at hresolve'
  cases hresolve'
  refine ⟨hparse, valid, hvalid, resolved, hresolve, hiff.mpr fun part index hpart => ?_⟩
  rw [hbody] at hpart
  exact reached_of_liesIn_ratedBody hpart

/-- The grammar of `cmd foo || {{{ echo bar }}};`. -/
def rescuingCommand : Grammar := ⟨[.call "cmd" (.fallback [.literal "foo" none 0 (some ⟨0, 4, 7⟩),
  .command "echo bar" none 0 (some ⟨0, 11, 27⟩)])]⟩

/-- A command in a second branch keeps the level zero. -/
theorem not_levelled_rescuingCommand :
    Grammar.parse "cmd foo || \x7b\x7b\x7b echo bar \x7d\x7d\x7d;" = .ok rescuingCommand ∧
      ∃ valid resolved, rescuingCommand.validate .bash = .ok valid ∧
        rescuingCommand.resolve = .ok resolved ∧ ¬ resolved.body.Levelled := by
  have hcommand : rescuingCommand.command = .ok "cmd" := command_of_calls rfl
  obtain ⟨resolved, hresolve, hbody⟩ : ∃ resolved, rescuingCommand.resolve = .ok resolved ∧
      resolved.body = rescuingCommand.body := by
    rw [resolve, hcommand]
    exact ⟨_, rfl, rfl⟩
  obtain ⟨valid, hvalid⟩ : ∃ valid, rescuingCommand.validate .bash = .ok valid := by
    rw [validate, resolve, hcommand]
    exact ⟨_, rfl⟩
  refine ⟨by decide +kernel, valid, resolved, hvalid, hresolve, fun hlevelled => ?_⟩
  have hlies : (Expr.command "echo bar" none 0 (some ⟨0, 11, 27⟩)).LiesIn 1 0 resolved.body := by
    have hbranch : [Expr.literal "foo" none 0 (some ⟨0, 4, 7⟩),
      .command "echo bar" none 0 (some ⟨0, 11, 27⟩)][1]? =
        some (.command "echo bar" none 0 (some ⟨0, 11, 27⟩)) := rfl
    rw [hbody]
    exact .fallback hbranch .self
  exact absurd (hlevelled _ 1 hlies 0 rfl) Nat.zero_ne_one

end Grammar

end ShellCompletion
