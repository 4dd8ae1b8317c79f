import ShellCompletion.Proofs.ExpressionWords
import ShellCompletion.Proofs.Expressions
import ShellCompletion.Proofs.Minimization

/-!
# Compilation of the subwords

Apart from its subwords an expression without gaps is compiled without fail. So compiling it fails
with the first of its subwords that cannot be compiled. A subword without another one inside is
compiled by itself: its positions have to pass the check, and there have to be numbers for the states
of its automaton.
-/

namespace ShellCompletion

namespace Result

variable {α β : Type}

/-- Whether a computation succeeds or how it fails. -/
def verdict (x : Result α) : Result Unit := x >>= fun _ => .ok ()

theorem verdict_eq_error {x : Result α} {e : Failure} : x.verdict = .error e ↔ x = .error e := by
  simp [verdict, bind_eq_error]

/-- If the second step fails in the same way for all values, so does the whole computation. -/
theorem verdict_bind {x : Result α} {f : α → Result β} {y : Result Unit}
    (h : ∀ a, (f a).verdict = y) : (x >>= f).verdict = x.verdict >>= fun _ => y := by
  cases x with
  | error e => rfl
  | ok a => exact h a

/-- A second step that succeeds for all values does not change the verdict. -/
theorem verdict_bind_ok {x : Result α} {f : α → Result β} (h : ∀ a, ∃ b, f a = .ok b) :
    (x >>= f).verdict = x.verdict := by
  cases x with
  | error e => rfl
  | ok a =>
    obtain ⟨b, hb⟩ := h a
    rw [ok_bind, hb]
    rfl

end Result

namespace Expr

mutual

/-- The bodies of the subwords of an expression, from left to right. -/
def subwordBodies : Expr → List Expr
  | .literal .. => []
  | .reference .. => []
  | .command .. => []
  | .sequence items => subwordBodiesAll items
  | .alternative branches => subwordBodiesAll branches
  | .fallback branches => subwordBodiesAll branches
  | .optional item => item.subwordBodies
  | .repeated item => item.subwordBodies
  | .described item _ => item.subwordBodies
  | .subword body _ _ => [body]

/-- The bodies of the subwords of the expressions of a list. -/
def subwordBodiesAll : List Expr → List Expr
  | [] => []
  | e :: es => e.subwordBodies ++ subwordBodiesAll es

end

theorem subwordBodiesAll_eq_flatMap (es : List Expr) :
    subwordBodiesAll es = es.flatMap subwordBodies := by
  induction es with
  | nil => rfl
  | cons e es ih => rw [subwordBodiesAll, ih, List.flatMap_cons]

/-- The subwords of a list are those of its expressions. -/
theorem mem_subwordBodiesAll {es : List Expr} {body : Expr} :
    body ∈ subwordBodiesAll es ↔ ∃ e ∈ es, body ∈ e.subwordBodies := by
  rw [subwordBodiesAll_eq_flatMap, List.mem_flatMap]

/-- A flat expression has no subwords. -/
theorem subwordBodies_flatten (e : Expr) : e.flatten.subwordBodies = [] := by
  have hall : ∀ es : List Expr, (∀ e ∈ es, e.flatten.subwordBodies = []) →
      subwordBodiesAll (flattenAll es) = [] := by
    intro es hes
    rw [flattenAll_eq_map, subwordBodiesAll_eq_flatMap, List.flatMap_map]
    exact List.flatMap_eq_nil_iff.mpr hes
  induction e with
  | literal => rfl
  | reference => rfl
  | command => rfl
  | sequence items ih => exact hall items ih
  | alternative branches ih => exact hall branches ih
  | fallback branches ih => exact hall branches ih
  | optional item ih => exact ih
  | repeated item ih => exact ih
  | described item description ih => exact ih
  | subword body level span ih => exact ih

/-- After the subwords are flattened none of them has another one inside. -/
theorem flat_of_mem_flattenSubwords {e body : Expr} (h : body ∈ e.flattenSubwords.subwordBodies) :
    body.subwordBodies = [] := by
  have hall : ∀ es : List Expr,
      (∀ e ∈ es, body ∈ e.flattenSubwords.subwordBodies → body.subwordBodies = []) →
      body ∈ subwordBodiesAll (flattenSubwordsAll es) → body.subwordBodies = [] := by
    intro es hes hbody
    rw [flattenSubwordsAll_eq_map, mem_subwordBodiesAll] at hbody
    obtain ⟨_, hmapped, hbody⟩ := hbody
    obtain ⟨e, he, rfl⟩ := List.mem_map.mp hmapped
    exact hes e he hbody
  induction e with
  | literal => simp [flattenSubwords, subwordBodies] at h
  | reference => simp [flattenSubwords, subwordBodies] at h
  | command => simp [flattenSubwords, subwordBodies] at h
  | sequence items ih => exact hall items ih h
  | alternative branches ih => exact hall branches ih h
  | fallback branches ih => exact hall branches ih h
  | optional item ih => exact ih h
  | repeated item ih => exact ih h
  | described item description ih => exact ih h
  | subword inner level span _ =>
    rw [flattenSubwords, subwordBodies, List.mem_singleton] at h
    rw [h]
    exact inner.subwordBodies_flatten

/-- The subwords of an expression without gaps have no gaps. -/
theorem Filled.of_mem_subwordBodies {described : Prop} {e body : Expr} (h : e.Filled described)
    (hbody : body ∈ e.subwordBodies) : body.Filled described := by
  have hall : ∀ es : List Expr,
      (∀ e ∈ es, body ∈ e.subwordBodies → body.Filled described) →
      body ∈ subwordBodiesAll es → body.Filled described := by
    intro es hes hbody
    obtain ⟨e, he, hbody⟩ := mem_subwordBodiesAll.mp hbody
    exact hes e he hbody
  induction h with
  | literal => simp [subwordBodies] at hbody
  | reference => simp [subwordBodies] at hbody
  | command => simp [subwordBodies] at hbody
  | sequence _ _ ih => exact hall _ ih hbody
  | alternative _ _ ih => exact hall _ ih hbody
  | fallback _ _ ih => exact hall _ ih hbody
  | optional _ ih => exact ih hbody
  | repeated _ ih => exact ih hbody
  | group _ _ _ ih => exact ih hbody
  | subword _ _ hinner _ =>
    rw [subwordBodies, List.mem_singleton] at hbody
    rw [hbody]
    exact hinner

/-- A list is full if all of its expressions are. -/
theorem fullAll_iff {es : List Expr} : FullAll es ↔ ∀ e ∈ es, e.Full := by
  induction es with
  | nil => simp [FullAll]
  | cons e es ih => simp [FullAll, ih]

/-- An expression without gaps is full. -/
theorem Filled.full {described : Prop} {e : Expr} (h : e.Filled described) : e.Full := by
  induction h with
  | literal => trivial
  | reference => trivial
  | command => trivial
  | sequence hne _ ih => exact ⟨hne, fullAll_iff.mpr ih⟩
  | alternative hne _ ih => exact ⟨hne, fullAll_iff.mpr ih⟩
  | fallback hne _ ih => exact ⟨hne, fullAll_iff.mpr ih⟩
  | optional _ ih => exact ih
  | repeated _ ih => exact ih
  | group _ _ _ ih => exact ih
  | subword => trivial

section Compilation

variable {check : Positions Input → Result Unit} {specializations : Specializations}

/-- Expressions without subwords are compiled without taking up automata. -/
theorem exists_toPatterns {es : List Expr} (hes : ∀ e ∈ es, e.subwordBodies = [] →
      ∃ q, ∀ s, e.toPattern check specializations s = .ok (s, q))
    (hflat : subwordBodiesAll es = []) :
    ∃ qs, ∀ s, toPatterns check specializations s es = .ok (s, qs) := by
  induction es with
  | nil => exact ⟨[], fun s => rfl⟩
  | cons e es ih =>
    rw [subwordBodiesAll, List.append_eq_nil_iff] at hflat
    obtain ⟨q, hq⟩ := hes e (by simp) hflat.1
    obtain ⟨qs, hqs⟩ := ih (fun x hx => hes x (by simp [hx])) hflat.2
    refine ⟨q :: qs, fun s => ?_⟩
    rw [toPatterns, hq, Result.ok_bind]
    simp only [hqs, Result.ok_bind]
    rfl

/-- An expression without subwords is compiled without fail, whatever automata are numbered. -/
theorem Filled.exists_toPattern {e : Expr} (h : e.Filled False) (hflat : e.subwordBodies = []) :
    ∃ q, ∀ s, e.toPattern check specializations s = .ok (s, q) := by
  induction h with
  | literal text description level span =>
    exact ⟨.symbol (.literal text description level span), fun s => rfl⟩
  | reference name level span =>
    exact ⟨.symbol (.reference name (specializations.get? name) level span), fun s => rfl⟩
  | command text patterns level span =>
    exact ⟨.symbol (.command text patterns level span), fun s => rfl⟩
  | sequence hne _ ih =>
    obtain ⟨qs, hqs⟩ := exists_toPatterns ih hflat
    refine ⟨.sequence qs, fun s => ?_⟩
    rw [toPattern, if_neg (by simpa using hne), hqs]
    rfl
  | alternative _ _ ih =>
    obtain ⟨qs, hqs⟩ := exists_toPatterns ih hflat
    refine ⟨.alternative qs, fun s => ?_⟩
    rw [toPattern, hqs]
    rfl
  | fallback _ _ ih =>
    obtain ⟨qs, hqs⟩ := exists_toPatterns ih hflat
    refine ⟨.fallback qs, fun s => ?_⟩
    rw [toPattern, hqs]
    rfl
  | optional _ ih =>
    obtain ⟨q, hq⟩ := ih hflat
    refine ⟨.optional q, fun s => ?_⟩
    rw [toPattern, hq]
    rfl
  | repeated _ ih =>
    obtain ⟨q, hq⟩ := ih hflat
    refine ⟨.repeated q, fun s => ?_⟩
    rw [toPattern, hq]
    rfl
  | group _ hallowed => exact hallowed.elim
  | subword => simp [subwordBodies] at hflat

/-- The steps in which the body of a subword is compiled by itself. -/
def compileSubword (check : Positions Input → Result Unit) (specializations : Specializations)
    (body : Expr) : Result Unit := do
  let (_, q) ← body.toPattern check specializations {}
  check q.positions
  q.minimalAutomaton.verdict

/-- A list is compiled if each of its subwords is, and fails with the first one that is not. -/
theorem verdict_toPatterns {es : List Expr}
    (hes : ∀ e ∈ es, (∀ body ∈ e.subwordBodies, body.subwordBodies = []) → ∀ s,
      (e.toPattern check specializations s).verdict =
        forM e.subwordBodies (compileSubword check specializations))
    (hflat : ∀ body ∈ subwordBodiesAll es, body.subwordBodies = []) (s : Interner Input) :
    (toPatterns check specializations s es).verdict =
      forM (subwordBodiesAll es) (compileSubword check specializations) := by
  induction es generalizing s with
  | nil => rfl
  | cons e es ih =>
    have hothers := ih (fun x hx => hes x (by simp [hx])) fun body hbody =>
      hflat body (by simp [subwordBodiesAll, hbody])
    rw [toPatterns, subwordBodiesAll, List.forM_append,
      ← hes e (by simp) (fun body hbody => hflat body (by simp [subwordBodiesAll, hbody])) s]
    apply Result.verdict_bind
    rintro ⟨u, p⟩
    rw [← hothers u]
    exact Result.verdict_bind_ok fun found => ⟨_, rfl⟩

/-- An expression whose subwords have no others inside is compiled if each of its subwords is, and
fails with the failure of the first one that is not. -/
theorem Filled.verdict_toPattern {e : Expr} (h : e.Filled False)
    (hflat : ∀ body ∈ e.subwordBodies, body.subwordBodies = []) (s : Interner Input) :
    (e.toPattern check specializations s).verdict =
      forM e.subwordBodies (compileSubword check specializations) := by
  induction h generalizing s with
  | literal => rfl
  | reference => rfl
  | command => rfl
  | sequence hne _ ih =>
    rw [subwordBodies, ← verdict_toPatterns ih hflat s, toPattern, if_neg (by simpa using hne)]
    exact Result.verdict_bind_ok fun found => ⟨_, rfl⟩
  | alternative _ _ ih =>
    rw [subwordBodies, ← verdict_toPatterns ih hflat s, toPattern]
    exact Result.verdict_bind_ok fun found => ⟨_, rfl⟩
  | fallback _ _ ih =>
    rw [subwordBodies, ← verdict_toPatterns ih hflat s, toPattern]
    exact Result.verdict_bind_ok fun found => ⟨_, rfl⟩
  | optional _ ih =>
    rw [subwordBodies, ← ih hflat s, toPattern]
    exact Result.verdict_bind_ok fun found => ⟨_, rfl⟩
  | repeated _ ih =>
    rw [subwordBodies, ← ih hflat s, toPattern]
    exact Result.verdict_bind_ok fun found => ⟨_, rfl⟩
  | group _ hallowed => exact hallowed.elim
  | @subword body level span hbody _ =>
    obtain ⟨q, hq⟩ : ∃ q, ∀ s, body.toPattern check specializations s = .ok (s, q) :=
      hbody.exists_toPattern (hflat body (by simp [subwordBodies]))
    have hcompile : compileSubword check specializations body =
        (check q.positions >>= fun _ => q.minimalAutomaton.verdict) := by
      rw [compileSubword, hq, Result.ok_bind]
    rw [subwordBodies, List.forM_cons, List.forM_nil, bind_pure_unit, hcompile, toPattern, hq,
      Result.ok_bind]
    dsimp only
    cases check q.positions with
    | error e => rfl
    | ok _ => exact Result.verdict_bind_ok fun a => ⟨_, rfl⟩

/-- If an expression is compiled, each of its subwords has an automaton. -/
theorem Filled.exists_minimalAutomaton {e : Expr} (h : e.Filled False)
    (hflat : ∀ body ∈ e.subwordBodies, body.subwordBodies = []) {s t : Interner Input}
    {p : Pattern Input} (hp : e.toPattern check specializations s = .ok (t, p)) {body : Expr}
    (hbody : body ∈ e.subwordBodies) :
    ∃ q a, body.toPattern check specializations {} = .ok ({}, q) ∧ q.minimalAutomaton = .ok a := by
  have hverdict : (e.toPattern check specializations s).verdict =
      forM e.subwordBodies (compileSubword check specializations) := h.verdict_toPattern hflat s
  rw [hp] at hverdict
  obtain ⟨q, hq⟩ := (h.of_mem_subwordBodies hbody).exists_toPattern (hflat body hbody)
  have hcompile := Result.forM_eq_ok.mp hverdict.symm body hbody
  rw [compileSubword, hq, Result.ok_bind] at hcompile
  obtain ⟨⟨⟩, -, hcompile⟩ := Result.bind_eq_ok.mp hcompile
  obtain ⟨a, ha, -⟩ := Result.bind_eq_ok.mp hcompile
  exact ⟨q, a, hq {}, ha⟩

/-- Whether the body of a subword is compiled: its positions pass the check, and there are numbers for
their sets. -/
def Compilable (check : Positions Input → Result Unit) (specializations : Specializations)
    (body : Expr) : Prop :=
  ∃ q, body.toPattern check specializations {} = .ok ({}, q) ∧ check q.positions = .ok () ∧
    {S | q.positions.Discovered S}.encard ≤ Positions.stateLimit

/-- Whether the positions of the body of a subword pass the check, but have more sets than there are
numbers. -/
def Overflowing (check : Positions Input → Result Unit) (specializations : Specializations)
    (body : Expr) : Prop :=
  ∃ q, body.toPattern check specializations {} = .ok ({}, q) ∧ check q.positions = .ok () ∧
    Positions.stateLimit < {S | q.positions.Discovered S}.encard

/-- Whether the check refuses the positions of the body of a subword for the given reason. -/
def Refused (check : Positions Input → Result Unit) (specializations : Specializations)
    (reason : GrammarError) (body : Expr) : Prop :=
  ∃ q, body.toPattern check specializations {} = .ok ({}, q) ∧ check q.positions = reject reason

section

variable {body : Expr} (h : body.Filled False) (hflat : body.subwordBodies = [])

include h hflat

/-- The ways in which the compilation of a subword ends, after its pattern is found. -/
theorem Filled.compileSubword_cases :
    ∃ q, body.toPattern check specializations {} = .ok ({}, q) ∧
      compileSubword check specializations body =
        (check q.positions >>= fun _ => q.minimalAutomaton.verdict) ∧
      (({S | q.positions.Discovered S}.encard ≤ Positions.stateLimit ∧
          q.minimalAutomaton.verdict = .ok ()) ∨
        (Positions.stateLimit < {S | q.positions.Discovered S}.encard ∧
          q.minimalAutomaton.verdict = giveUp .tooManyStates)) := by
  obtain ⟨q, hq⟩ : ∃ q, ∀ s, body.toPattern check specializations s = .ok (s, q) :=
    h.exists_toPattern hflat
  have hfull : q.Full := full_toPattern (hq {}) h.full
  refine ⟨q, hq {}, by rw [compileSubword, hq, Result.ok_bind], ?_⟩
  obtain ⟨hle, d, number, hd, hrep⟩ | ⟨hlt, hfail⟩ := q.positions.automaton_cases
  · obtain ⟨m, hm, -⟩ := (hrep.trim hfull).exists_minimize
    refine Or.inl ⟨hle, ?_⟩
    rw [Pattern.minimalAutomaton, hd, Result.ok_bind, hm]
    rfl
  · refine Or.inr ⟨hlt, ?_⟩
    rw [Pattern.minimalAutomaton, hfail]
    rfl

/-- The body of a subword is compiled exactly if it can be. -/
theorem Filled.compileSubword_eq_ok_iff :
    compileSubword check specializations body = .ok () ↔ Compilable check specializations body := by
  obtain ⟨q, hq, hcompile, hends⟩ := h.compileSubword_cases hflat
  rw [hcompile, Result.bind_eq_ok]
  constructor
  · rintro ⟨⟨⟩, hcheck, hverdict⟩
    rcases hends with ⟨hle, -⟩ | ⟨-, hfail⟩
    · exact ⟨q, hq, hcheck, hle⟩
    · rw [hfail] at hverdict
      cases hverdict
  · rintro ⟨q', hq', hcheck, hle⟩
    rw [hq] at hq'
    cases hq'
    rcases hends with ⟨-, hverdict⟩ | ⟨hlt, -⟩
    · exact ⟨(), hcheck, hverdict⟩
    · exact absurd hle (not_le_of_gt hlt)

/-- The only fault is to have too many sets of positions. -/
theorem Filled.compileSubword_eq_fault_iff (hcheck : ∀ p, Result.Faultless (check p)) {f : Fault} :
    compileSubword check specializations body = .error (.fault f) ↔
      f = .tooManyStates ∧ Overflowing check specializations body := by
  obtain ⟨q, hq, hcompile, hends⟩ := h.compileSubword_cases hflat
  rw [hcompile, Result.bind_eq_error]
  constructor
  · intro hfault
    rcases hfault with hfault | ⟨⟨⟩, hpasses, hfault⟩
    · exact (hcheck q.positions f hfault).elim
    · rcases hends with ⟨-, hverdict⟩ | ⟨hlt, hverdict⟩
      · rw [hverdict] at hfault
        cases hfault
      · rw [hverdict] at hfault
        cases hfault
        exact ⟨rfl, q, hq, hpasses, hlt⟩
  · rintro ⟨rfl, q', hq', hpasses, hlt⟩
    rw [hq] at hq'
    cases hq'
    rcases hends with ⟨hle, -⟩ | ⟨-, hverdict⟩
    · exact absurd hle (not_le_of_gt hlt)
    · exact Or.inr ⟨(), hpasses, hverdict⟩

/-- The body of a subword is rejected exactly if the check refuses its positions. -/
theorem Filled.compileSubword_eq_reject_iff {reason : GrammarError} :
    compileSubword check specializations body = reject reason ↔
      Refused check specializations reason body := by
  obtain ⟨q, hq, hcompile, hends⟩ := h.compileSubword_cases hflat
  rw [hcompile, reject, Result.bind_eq_error]
  constructor
  · rintro (hrefused | ⟨⟨⟩, -, hfail⟩)
    · exact ⟨q, hq, hrefused⟩
    · rcases hends with ⟨-, hverdict⟩ | ⟨-, hverdict⟩
      · rw [hverdict] at hfail
        cases hfail
      · rw [hverdict] at hfail
        cases hfail
  · rintro ⟨q', hq', hrefused⟩
    rw [hq] at hq'
    cases hq'
    exact Or.inl hrefused

end

/-- Whether the first subword that is not compiled has too many sets of positions. -/
def MeetsOverflow (check : Positions Input → Result Unit) (specializations : Specializations)
    (bodies : List Expr) : Prop :=
  ∃ before body after, bodies = before ++ body :: after ∧
    (∀ b ∈ before, Compilable check specializations b) ∧ Overflowing check specializations body

/-- Whether the first subword that is not compiled is refused for the given reason. -/
def MeetsRefusal (check : Positions Input → Result Unit) (specializations : Specializations)
    (bodies : List Expr) (reason : GrammarError) : Prop :=
  ∃ before body after, bodies = before ++ body :: after ∧
    (∀ b ∈ before, Compilable check specializations b) ∧ Refused check specializations reason body

section

variable {e : Expr} (h : e.Filled False) (hflat : ∀ body ∈ e.subwordBodies, body.subwordBodies = [])

include h hflat

/-- Compiling an expression whose subwords have no others inside fails in a way of the given kind exactly
if the first subword that is not compiled does. -/
theorem Filled.toPattern_eq_error_iff {s : Interner Input} {failure : Failure} {P : Expr → Prop}
    (hP : ∀ body ∈ e.subwordBodies,
      (compileSubword check specializations body = .error failure ↔ P body)) :
    e.toPattern check specializations s = .error failure ↔
      ∃ before body after, e.subwordBodies = before ++ body :: after ∧
        (∀ b ∈ before, Compilable check specializations b) ∧ P body := by
  have hok : ∀ b ∈ e.subwordBodies,
      (compileSubword check specializations b = .ok () ↔ Compilable check specializations b) :=
    fun b hb => (h.of_mem_subwordBodies hb).compileSubword_eq_ok_iff (hflat b hb)
  rw [← Result.verdict_eq_error, h.verdict_toPattern hflat s, Result.forM_eq_error]
  constructor
  · rintro ⟨before, body, after, heq, hbefore, hfail⟩
    refine ⟨before, body, after, heq, fun b hb => ?_, (hP body (by simp [heq])).mp hfail⟩
    exact (hok b (by simp [heq, hb])).mp (hbefore b hb)
  · rintro ⟨before, body, after, heq, hbefore, hbody⟩
    refine ⟨before, body, after, heq, fun b hb => ?_, (hP body (by simp [heq])).mpr hbody⟩
    exact (hok b (by simp [heq, hb])).mpr (hbefore b hb)

/-- Compiling such an expression has a fault exactly if the first subword that is not compiled has too
many sets of positions. -/
theorem Filled.toPattern_eq_fault_iff (hcheck : ∀ p, Result.Faultless (check p)) {s : Interner Input}
    {f : Fault} : e.toPattern check specializations s = .error (.fault f) ↔
      f = .tooManyStates ∧ MeetsOverflow check specializations e.subwordBodies := by
  rw [h.toPattern_eq_error_iff hflat fun body hbody =>
    (h.of_mem_subwordBodies hbody).compileSubword_eq_fault_iff (hflat body hbody) hcheck]
  constructor
  · rintro ⟨before, body, after, heq, hbefore, hf, hover⟩
    exact ⟨hf, before, body, after, heq, hbefore, hover⟩
  · rintro ⟨hf, before, body, after, heq, hbefore, hover⟩
    exact ⟨before, body, after, heq, hbefore, hf, hover⟩

/-- Such an expression is rejected for a reason exactly if the first subword that is not compiled is
refused for it. -/
theorem Filled.toPattern_eq_reject_iff {s : Interner Input} {reason : GrammarError} :
    e.toPattern check specializations s = reject reason ↔
      MeetsRefusal check specializations e.subwordBodies reason :=
  h.toPattern_eq_error_iff hflat fun body hbody =>
    (h.of_mem_subwordBodies hbody).compileSubword_eq_reject_iff (hflat body hbody)

end

/-- The automata of the subwords of an expression: those of its bodies, each compiled by itself. -/
def SubwordAutomaton (check : Positions Input → Result Unit) (specializations : Specializations)
    (bodies : List Expr) (a : Automaton Input) : Prop :=
  ∃ body ∈ bodies, ∃ q, body.toPattern check specializations {} = .ok ({}, q) ∧
    q.minimalAutomaton = .ok a

/-- The automata that are taken up for a list are those of its subwords. -/
theorem mem_automata_toPatterns {a : Automaton Input} {es : List Expr}
    (hes : ∀ e ∈ es, (∀ body ∈ e.subwordBodies, body.subwordBodies = []) →
      ∀ {s t p}, e.toPattern check specializations s = .ok (t, p) →
      (a ∈ t.automata ↔
        a ∈ s.automata ∨ SubwordAutomaton check specializations e.subwordBodies a))
    (hflat : ∀ body ∈ subwordBodiesAll es, body.subwordBodies = []) {s t : Interner Input}
    {ps : List (Pattern Input)} (hps : toPatterns check specializations s es = .ok (t, ps)) :
    a ∈ t.automata ↔
      a ∈ s.automata ∨ SubwordAutomaton check specializations (subwordBodiesAll es) a := by
  induction es generalizing s t ps with
  | nil =>
    cases hps
    simp [SubwordAutomaton, subwordBodiesAll]
  | cons e es ih =>
    obtain ⟨u, p, qs, he, hqs, -⟩ := toPatterns_cons hps
    have hfirst := hes e (by simp) (fun body hbody =>
      hflat body (by simp [subwordBodiesAll, hbody])) he
    have hothers := ih (fun x hx => hes x (by simp [hx])) (fun body hbody =>
      hflat body (by simp [subwordBodiesAll, hbody])) hqs
    rw [hothers, hfirst, or_assoc]
    simp only [SubwordAutomaton, subwordBodiesAll, List.mem_append, or_and_right, exists_or]

/-- Compiling an expression numbers the automata of its subwords and no others. -/
theorem Filled.mem_automata_toPattern {e : Expr} (h : e.Filled False)
    (hflat : ∀ body ∈ e.subwordBodies, body.subwordBodies = []) {s t : Interner Input}
    {p : Pattern Input} (hp : e.toPattern check specializations s = .ok (t, p))
    (a : Automaton Input) : a ∈ t.automata ↔
      a ∈ s.automata ∨ SubwordAutomaton check specializations e.subwordBodies a := by
  induction h generalizing s t p with
  | literal => cases hp; simp [SubwordAutomaton, subwordBodies]
  | reference => cases hp; simp [SubwordAutomaton, subwordBodies]
  | command => cases hp; simp [SubwordAutomaton, subwordBodies]
  | sequence _ _ ih =>
    obtain ⟨-, ps, hps, -⟩ := toPattern_sequence hp
    exact mem_automata_toPatterns ih hflat hps
  | alternative _ _ ih =>
    obtain ⟨ps, hps, -⟩ := toPattern_alternative hp
    exact mem_automata_toPatterns ih hflat hps
  | fallback _ _ ih =>
    obtain ⟨ps, hps, -⟩ := toPattern_fallback hp
    exact mem_automata_toPatterns ih hflat hps
  | optional _ ih =>
    obtain ⟨q, hq, -⟩ := toPattern_optional hp
    exact ih hflat hq
  | repeated _ ih =>
    obtain ⟨q, hq, -⟩ := toPattern_repeated hp
    exact ih hflat hq
  | group _ hallowed => exact hallowed.elim
  | @subword body level span hbody _ =>
    obtain ⟨u, q, b, hq, -, hb, rfl, -⟩ := toPattern_subword hp
    obtain ⟨q', hq'⟩ : ∃ q, ∀ s, body.toPattern check specializations s = .ok (s, q) :=
      hbody.exists_toPattern (hflat body (by simp [subwordBodies]))
    rw [hq'] at hq
    cases hq
    rw [Interner.mem_intern]
    refine or_congr Iff.rfl ?_
    constructor
    · rintro rfl
      exact ⟨body, by simp [subwordBodies], q, hq' {}, hb⟩
    · rintro ⟨body', hbody', own, hown, ha⟩
      rw [subwordBodies, List.mem_singleton] at hbody'
      rw [hbody', hq'] at hown
      cases hown
      rw [hb] at ha
      cases ha
      rfl

end Compilation

end Expr

end ShellCompletion
