import ShellCompletion.Proofs.AmbiguousInputs
import ShellCompletion.Proofs.Rejections

/-!
# Ambiguous inputs inside a word

The check inside a word is meant to reject an ambiguous input that has another input behind it, or later
in a set of positions that may come next. It looks at the positions not visited before. Once it has met
an ambiguous input in a set, it rejects whatever is new behind any position of the set. So it fails the
rule in two ways: it passes by what was visited before, and it blames the ambiguous input for what stands
behind its neighbours.
-/

namespace ShellCompletion

namespace Positions

variable (p : Positions Input) (shell : Shell)

/-- The sets of positions that may come next: the first ones, and those that follow a member. -/
inductive Reached : NatSet → Prop
  | first : Reached p.first
  | follow {S : NatSet} {n : ℕ} : Reached S → n ∈ S → Reached (p.follow n)

/-- Whether the rule is broken: an ambiguous input has another one behind it, or later in its set. -/
def HasNontail : Prop :=
  ∃ S, p.Reached S ∧ ∃ n ∈ S, p.AmbiguousAt shell n ∧
    ∃ m < p.stop, m ∈ p.follow n ∨ m ∈ S ∧ n < m

/-- Whether a position is visited when the walk goes on behind another one of a set, provided that the
walk behind the positions before found nothing new. -/
def VisitedBehind (l : Look) (n m : ℕ) : Prop :=
  m ∈ l.visited ∨ m ∈ l.set ∧ m ≤ n ∧ (p.follow m).isEmpty = false

/-- Whether the check inside a word refuses the positions. -/
def RefusesSubword : Prop :=
  ∃ first second, p.checkSubword shell = reject (.ambiguousInputs first second)

/-- Whether a look meets an ambiguous input with a new one behind it, or later in the set. -/
def SeesNontail : Prop :=
  ∃ l ∈ p.allLooks, ∃ n ∈ l.fresh, p.AmbiguousAt shell n ∧
    ∃ m < p.stop, m ∈ p.follow n ∧ ¬ p.VisitedBehind l n m ∨ m ∈ l.fresh ∧ n < m

/-- Whether a look meets an ambiguous input with a neighbour that has a new input behind it. -/
def BlamesNeighbour : Prop :=
  ∃ l ∈ p.allLooks, ∃ n ∈ l.fresh, p.AmbiguousAt shell n ∧ ∃ n' ∈ l.fresh, n' ≠ n ∧
    ∃ m < p.stop, m ∈ p.follow n' ∧ ¬ p.VisitedBehind l n' m

/-- Whether the walk comes to an ambiguous input with another one behind it or later in the set, and one
of the two was visited before. -/
def SkipsNontail : Prop :=
  ∃ l ∈ p.allLooks, ∃ n ∈ l.set, p.AmbiguousAt shell n ∧
    ∃ m < p.stop, m ∈ p.follow n ∧ (n ∈ l.visited ∨ p.VisitedBehind l n m) ∨
      m ∈ l.set ∧ n < m ∧ (n ∈ l.visited ∨ m ∈ l.visited)

variable {p shell}

instance (n : ℕ) : Decidable (p.AmbiguousAt shell n) :=
  inferInstanceAs (Decidable (∃ a ∈ p.symbols[n]?, _))

instance (l : Look) (n m : ℕ) : Decidable (p.VisitedBehind l n m) :=
  inferInstanceAs (Decidable (_ ∨ _))

instance : Decidable (p.SeesNontail shell) :=
  inferInstanceAs (Decidable (∃ l ∈ p.allLooks, ∃ n ∈ l.fresh, _))

instance : Decidable (p.SkipsNontail shell) :=
  decidable_of_iff (∃ l ∈ p.allLooks, ∃ n ∈ l.set.toList, p.AmbiguousAt shell n ∧
    ∃ m < p.stop, m ∈ p.follow n ∧ (n ∈ l.visited ∨ p.VisitedBehind l n m) ∨
      m ∈ l.set ∧ n < m ∧ (n ∈ l.visited ∨ m ∈ l.visited))
    (by simp only [NatSet.mem_toList, SkipsNontail])

/-! ### The rule and the walk -/

section

variable (hstop : ∀ n, (p.follow n).isEmpty = false → n < p.stop)

/-- Every look is into a set that is reached. -/
theorem reached_of_look {l : Look} (hl : l ∈ p.allLooks) : p.Reached l.set :=
  looks_induction (P := p.Reached) (fun _ hS _ hn _ => .follow hS hn) _ .first _ l hl

include hstop

/-- Every set that is reached is looked into, unless it is empty. -/
theorem exists_look_of_reached {S : NatSet} (hS : p.Reached S) {n : ℕ} (hn : n ∈ S) :
    ∃ l ∈ p.allLooks, l.set = S := by
  induction hS generalizing n with
  | first => exact ⟨_, (allLooks_spec hstop).1, rfl⟩
  | @follow S m hS hm ih =>
    obtain ⟨l, hl, rfl⟩ := ih hm
    exact (allLooks_spec hstop).2 l hl m hm ((NatSet.isEmpty_eq_false_iff _).mpr ⟨n, hn⟩)

variable (shell) in
/-- The rule is broken exactly where a look sees it or the walk skips it. -/
theorem hasNontail_iff : p.HasNontail shell ↔ p.SeesNontail shell ∨ p.SkipsNontail shell := by
  constructor
  · rintro ⟨S, hS, n, hn, hambiguous, m, hm, hnontail⟩
    obtain ⟨l, hl, rfl⟩ := exists_look_of_reached hstop hS hn
    by_cases hvisited : n ∈ l.visited
    · refine Or.inr ⟨l, hl, n, hn, hambiguous, m, hm, ?_⟩
      exact hnontail.imp (fun h => ⟨h, Or.inl hvisited⟩) fun h => ⟨h.1, h.2, Or.inl hvisited⟩
    · have hfresh := Look.mem_fresh.mpr ⟨hn, hvisited⟩
      rcases hnontail with hfollow | ⟨hset, hlt⟩
      · by_cases hbehind : p.VisitedBehind l n m
        · exact Or.inr ⟨l, hl, n, hn, hambiguous, m, hm, Or.inl ⟨hfollow, Or.inr hbehind⟩⟩
        · exact Or.inl ⟨l, hl, n, hfresh, hambiguous, m, hm, Or.inl ⟨hfollow, hbehind⟩⟩
      · by_cases hvisited' : m ∈ l.visited
        · exact Or.inr ⟨l, hl, n, hn, hambiguous, m, hm, Or.inr ⟨hset, hlt, Or.inr hvisited'⟩⟩
        · exact Or.inl ⟨l, hl, n, hfresh, hambiguous, m, hm,
            Or.inr ⟨Look.mem_fresh.mpr ⟨hset, hvisited'⟩, hlt⟩⟩
  · rintro (⟨l, hl, n, hn, hambiguous, m, hm, h⟩ | ⟨l, hl, n, hn, hambiguous, m, hm, h⟩)
    · refine ⟨l.set, reached_of_look hl, n, (Look.mem_fresh.mp hn).1, hambiguous, m, hm, ?_⟩
      exact h.imp And.left fun h => ⟨(Look.mem_fresh.mp h.1).1, h.2⟩
    · exact ⟨l.set, reached_of_look hl, n, hn, hambiguous, m, hm,
        h.imp And.left fun h => ⟨h.1, h.2.1⟩⟩

end

/-! ### One look -/

/-- What a look does: behind an ambiguous input it rejects everything, and else what comes later in the
set than an ambiguous one. -/
def lookInside (p : Positions Input) (shell : Shell) :
    Option Input → List ℕ → Result (Option Input)
  | some input, new =>
    match p.inputsAt new with
    | [] => .ok (some input)
    | other :: _ => reject (.ambiguousInputs input other)
  | none, new => refuseAfterAmbiguous shell (p.inputsAt new)

/-- The check of a subword is a walk with looks inside. -/
theorem checkSubword_eq : p.checkSubword shell = p.walkAll (p.lookInside shell) none := by
  rw [checkSubword]
  congr 1
  funext before new
  cases before with
  | none => rfl
  | some input =>
    rw [lookInside]
    cases p.inputsAt new <;> rfl

theorem Look.pairwise_fresh (l : Look) : l.fresh.Pairwise (· < ·) := NatSet.pairwise_toList _

/-- An ambiguous input stands before the end of the positions. -/
theorem AmbiguousAt.lt_stop {n : ℕ} (h : p.AmbiguousAt shell n) : n < p.stop := by
  obtain ⟨a, ha, -⟩ := h
  exact (Array.getElem?_eq_some_iff.mp ha).1

/-- No input stands at the end of the positions. -/
theorem inputsAt_eq_nil_iff {ns : List ℕ} : p.inputsAt ns = [] ↔ ∀ n ∈ ns, p.stop ≤ n := by
  simp [inputsAt, stop]

/-- Behind an ambiguous input a look passes only if nothing new is there. -/
theorem lookInside_some_eq_ok_iff {input : Input} {new : List ℕ} {handed : Option Input} :
    p.lookInside shell (some input) new = .ok handed ↔
      handed = some input ∧ ∀ n ∈ new, p.stop ≤ n := by
  rw [← inputsAt_eq_nil_iff, lookInside]
  cases p.inputsAt new with
  | nil => simp [eq_comm]
  | cons => simp [reject]

/-- Whether an ambiguous position of a list comes before another one. -/
def EarlyAmbiguous (p : Positions Input) (shell : Shell) (ns : List ℕ) : Prop :=
  ∃ n ∈ ns, p.AmbiguousAt shell n ∧ ∃ m ∈ ns, m < p.stop ∧ n < m

/-- An unambiguous first input does not matter for whether an ambiguous one comes early. -/
theorem earlyAmbiguous_cons_iff {n : ℕ} {ns : List ℕ} (hn : ∀ m ∈ ns, n < m)
    (hambiguous : ¬ p.AmbiguousAt shell n) :
    p.EarlyAmbiguous shell (n :: ns) ↔ p.EarlyAmbiguous shell ns := by
  constructor
  · rintro ⟨k, hk, hambiguous', m, hm, hstop, hlt⟩
    rcases List.mem_cons.mp hk with rfl | hkns
    · exact (hambiguous hambiguous').elim
    · rcases List.mem_cons.mp hm with rfl | hmns
      · exact absurd (hn k hkns) hlt.asymm
      · exact ⟨k, hkns, hambiguous', m, hmns, hstop, hlt⟩
  · rintro ⟨k, hk, hambiguous', m, hm, hstop, hlt⟩
    exact ⟨k, List.mem_cons_of_mem n hk, hambiguous', m, List.mem_cons_of_mem n hm, hstop, hlt⟩

/-- Without an ambiguous input before, a look rejects what comes later in the set than an ambiguous one,
and else it tells whether there is one. -/
theorem lookInside_none_cases (p : Positions Input) (shell : Shell) {new : List ℕ} (hnew : new.Pairwise (· < ·)) :
    (p.lookInside shell none new = .ok none ∧ ∀ n ∈ new, ¬ p.AmbiguousAt shell n) ∨
    ((∃ input, p.lookInside shell none new = .ok (some input)) ∧
      (∃ n ∈ new, p.AmbiguousAt shell n) ∧ ¬ p.EarlyAmbiguous shell new) ∨
    ((∃ e, p.lookInside shell none new = .error e) ∧ p.EarlyAmbiguous shell new) := by
  induction new with
  | nil => exact Or.inl ⟨rfl, by simp⟩
  | cons n ns ih =>
    obtain ⟨hn, hns⟩ := List.pairwise_cons.mp hnew
    by_cases hambiguous : p.AmbiguousAt shell n
    · obtain ⟨a, ha, hshell⟩ := id hambiguous
      have hinputs : p.inputsAt (n :: ns) = a :: p.inputsAt ns := List.filterMap_cons_some ha
      rw [lookInside, hinputs]
      by_cases hnil : p.inputsAt ns = []
      · have hlate := inputsAt_eq_nil_iff.mp hnil
        have hpass : refuseAfterAmbiguous shell [a] = .ok (some a) := if_pos hshell
        rw [hnil, hpass]
        refine Or.inr (Or.inl ⟨⟨a, rfl⟩, ⟨n, by simp, hambiguous⟩, ?_⟩)
        rintro ⟨k, hk, hambiguous', m, hm, hstop, hlt⟩
        rcases List.mem_cons.mp hm with rfl | hm
        · rcases List.mem_cons.mp hk with rfl | hk
          · exact absurd hlt (lt_irrefl _)
          · exact absurd (hn k hk) hlt.asymm
        · exact absurd hstop (not_lt_of_ge (hlate m hm))
      · obtain ⟨m, hm, hstop⟩ : ∃ m ∈ ns, m < p.stop := by
          simpa [inputsAt_eq_nil_iff] using hnil
        obtain ⟨other, inputs, hothers⟩ := List.exists_cons_of_ne_nil hnil
        have hreject : refuseAfterAmbiguous shell (a :: other :: inputs) =
            reject (.ambiguousInputs a other) := if_pos hshell
        rw [hothers, hreject]
        exact Or.inr (Or.inr ⟨⟨_, rfl⟩, n, by simp, hambiguous, m, List.mem_cons_of_mem n hm, hstop,
          hn m hm⟩)
    · have hlook : p.lookInside shell none (n :: ns) = p.lookInside shell none ns := by
        rw [lookInside, lookInside, inputsAt, inputsAt, List.filterMap_cons]
        split
        · rfl
        · next a ha =>
          have hshell : ¬ a.isAmbiguous shell = true := fun hshell => hambiguous ⟨a, ha, hshell⟩
          exact if_neg hshell
      rw [hlook, earlyAmbiguous_cons_iff hn hambiguous]
      simpa [hambiguous] using ih hns

/-! ### The whole check -/

/-- Whether a look passes, together with the looks behind it if it meets an ambiguous input. -/
def PassesInside (p : Positions Input) (shell : Shell) (l : Look) : Prop :=
  ∀ n ∈ l.fresh, p.AmbiguousAt shell n → ¬ p.EarlyAmbiguous shell l.fresh ∧
    ∀ n' ∈ l.fresh, ∀ m ∈ p.follow n', m < p.stop → p.VisitedBehind l n' m

/-- Whether nothing is new in the set of a look but the end. -/
def Stale (p : Positions Input) (l : Look) : Prop := ∀ m ∈ l.set, m < p.stop → m ∈ l.visited

/-- A look is stale if nothing is new in it but the end. -/
theorem stale_iff {l : Look} : p.Stale l ↔ ∀ m ∈ l.fresh, p.stop ≤ m := by
  simp only [Stale, Look.mem_fresh, and_imp]
  exact forall₂_congr fun m _ => by rw [← not_lt, not_imp_not]

/-- Nothing is looked into behind positions that nothing follows. -/
theorem looksBehind_of_dead {looks : NatSet → NatSet → List Look × NatSet} {ns : List ℕ}
    (h : ∀ n ∈ ns, (p.follow n).isEmpty = true) (visited : NatSet) :
    p.looksBehind looks ns visited = ([], visited) := by
  induction ns with
  | nil => rfl
  | cons n ns ih =>
    rw [looksBehind, if_pos (h n (by simp)), ih fun m hm => h m (by simp [hm])]

section

variable (hstop : ∀ n, (p.follow n).isEmpty = false → n < p.stop)

include hstop

/-- If nothing is new in a set but the end, a walk comes no further. -/
theorem looks_of_stale {set visited : NatSet} (h : p.Stale ⟨set, visited⟩) (depth : ℕ) :
    p.looks (depth + 1) set visited = ([⟨set, visited⟩], visited) := by
  have hdead : ∀ m ∈ (set.diff visited).toList, (p.follow m).isEmpty = true := by
    intro m hm
    by_contra hlive
    have hlt := hstop m (Bool.eq_false_of_not_eq_true hlive)
    exact absurd hlt (not_lt_of_ge (stale_iff.mp h m hm))
  rw [looks, looksBehind_of_dead hdead]

/-- Nothing is new behind positions exactly if nothing is new behind the first one, nor behind the others
once the first one is visited. -/
theorem forall_stale_cons_iff {n : ℕ} (hlive : (p.follow n).isEmpty = false) (depth : ℕ)
    (ns : List ℕ) (visited : NatSet) :
    (∀ l ∈ (p.looksBehind (p.looks (depth + 1)) (n :: ns) visited).1, p.Stale l) ↔
      p.Stale ⟨p.follow n, visited.insert n⟩ ∧
        ∀ l ∈ (p.looksBehind (p.looks (depth + 1)) ns (visited.insert n)).1, p.Stale l := by
  have hlive' : ¬ (p.follow n).isEmpty = true := by simp [hlive]
  by_cases hstale : p.Stale ⟨p.follow n, visited.insert n⟩
  · rw [looksBehind, if_neg hlive', looks_of_stale hstop hstale]
    simp [hstale]
  · refine iff_of_false (fun h => hstale (h _ ?_)) fun h => hstale h.1
    rw [looksBehind, if_neg hlive', looks]
    simp

/-- Nothing is new behind positions in order exactly if each one has only positions behind it that are
visited, or do not come later. -/
theorem forall_stale_iff {depth : ℕ} {ns : List ℕ} (hns : ns.Pairwise (· < ·))
    (hdepth : ∀ n ∈ ns, (p.follow n).isEmpty = false → 0 < depth) (visited : NatSet) :
    (∀ l ∈ (p.looksBehind (p.looks depth) ns visited).1, p.Stale l) ↔
      ∀ n ∈ ns, ∀ m ∈ p.follow n, m < p.stop →
        m ∈ visited ∨ m ∈ ns ∧ m ≤ n ∧ (p.follow m).isEmpty = false := by
  induction ns generalizing visited with
  | nil => simp [looksBehind]
  | cons n ns ih =>
    obtain ⟨hn, hns⟩ := List.pairwise_cons.mp hns
    replace ih := ih hns fun m hm => hdepth m (List.mem_cons_of_mem n hm)
    by_cases hdead : (p.follow n).isEmpty = true
    · rw [looksBehind, if_pos hdead, ih visited]
      constructor
      · intro h k hk m hm hlt
        rcases List.mem_cons.mp hk with rfl | hk
        · exact absurd hm ((NatSet.isEmpty_iff_forall _).mp hdead m)
        · exact (h k hk m hm hlt).imp_right (And.imp_left (List.mem_cons_of_mem n))
      · intro h k hk m hm hlt
        refine (h k (List.mem_cons_of_mem n hk) m hm hlt).imp_right ?_
        rintro ⟨hmem, hle, hlive⟩
        rcases List.mem_cons.mp hmem with rfl | hmem
        · rw [hdead] at hlive
          cases hlive
        · exact ⟨hmem, hle, hlive⟩
    · have hlive := Bool.eq_false_of_not_eq_true hdead
      obtain ⟨depth, rfl⟩ := Nat.exists_eq_succ_of_ne_zero (hdepth n (by simp) hlive).ne'
      rw [forall_stale_cons_iff hstop hlive, ih (visited.insert n)]
      simp only [Stale, NatSet.mem_insert]
      constructor
      · rintro ⟨hhere, hothers⟩ k hk m hm hlt
        rcases List.mem_cons.mp hk with rfl | hk'
        · refine (hhere m hm hlt).imp_right ?_
          rintro rfl
          exact ⟨by simp, le_rfl, hlive⟩
        · rcases hothers k hk' m hm hlt with (hvisited | rfl) | ⟨hmem, hle, hlive'⟩
          · exact Or.inl hvisited
          · exact Or.inr ⟨by simp, (hn k hk').le, hlive⟩
          · exact Or.inr ⟨List.mem_cons_of_mem n hmem, hle, hlive'⟩
      · intro h
        refine ⟨fun m hm hlt => ?_, fun k hk m hm hlt => ?_⟩
        · refine (h n (by simp) m hm hlt).imp_right ?_
          rintro ⟨hmem, hle, -⟩
          rcases List.mem_cons.mp hmem with rfl | hmem
          · rfl
          · exact absurd (hn m hmem) (not_lt_of_ge hle)
        · rcases h k (List.mem_cons_of_mem n hk) m hm hlt with hvisited | ⟨hmem, hle, hlive'⟩
          · exact Or.inl (Or.inl hvisited)
          · rcases List.mem_cons.mp hmem with rfl | hmem
            · exact Or.inl (Or.inr rfl)
            · exact Or.inr ⟨hmem, hle, hlive'⟩

omit hstop in
/-- A stale look passes. -/
theorem Stale.passesInside {l : Look} (h : p.Stale l) : p.PassesInside shell l := by
  intro n hn hambiguous
  exact absurd hambiguous.lt_stop (not_lt_of_ge (stale_iff.mp h n hn))

omit hstop in
/-- Behind an ambiguous input, a walk passes exactly if it comes to nothing new. -/
theorem walk_some_eq_ok_iff (input : Input) (depth : ℕ) (set visited final : NatSet) :
    p.walk (p.lookInside shell) depth (some input) set visited = .ok final ↔
      (∀ l ∈ (p.looks depth set visited).1, p.Stale l) ∧
        final = (p.looks depth set visited).2 := by
  rw [walk_eq_ok_iff rfl fun _ _ h => (lookInside_some_eq_ok_iff.mp h).1]
  simp only [lookInside_some_eq_ok_iff, true_and, stale_iff]

/-- A look with an ambiguous input that comes last passes exactly if there is nothing new behind it. -/
theorem passesInside_iff {depth : ℕ} {l : Look} {n : ℕ} (hn : n ∈ l.fresh)
    (hambiguous : p.AmbiguousAt shell n) (hlate : ¬ p.EarlyAmbiguous shell l.fresh)
    (hdepth : ∀ n ∈ l.fresh, (p.follow n).isEmpty = false → 0 < depth) :
    p.PassesInside shell l ↔
      ∀ l' ∈ (p.looksBehind (p.looks depth) l.fresh l.visited).1, p.Stale l' := by
  rw [forall_stale_iff hstop l.pairwise_fresh hdepth]
  constructor
  · intro h n' hn' m hm hlt
    rcases (h n hn hambiguous).2 n' hn' m hm hlt with hvisited | ⟨hset, hle, hlive⟩
    · exact Or.inl hvisited
    · by_cases hvisited : m ∈ l.visited
      · exact Or.inl hvisited
      · exact Or.inr ⟨Look.mem_fresh.mpr ⟨hset, hvisited⟩, hle, hlive⟩
  · intro h _ _ _
    refine ⟨hlate, fun n' hn' m hm hlt => (h n' hn' m hm hlt).imp_right ?_⟩
    exact And.imp_left fun hfresh => (Look.mem_fresh.mp hfresh).1

/-- If nothing ambiguous comes before, a walk passes exactly if each look passes together with the looks
behind it. -/
theorem walk_none_eq_ok_iff {depth : ℕ} (set : NatSet) {visited : NatSet}
    (hdepth : p.unvisited visited < depth) (final : NatSet) :
    p.walk (p.lookInside shell) depth none set visited = .ok final ↔
      (∀ l ∈ (p.looks depth set visited).1, p.PassesInside shell l) ∧
        final = (p.looks depth set visited).2 := by
  induction depth generalizing set visited final with
  | zero => omega
  | succ depth ih =>
    have hfewer : ∀ n ∈ (⟨set, visited⟩ : Look).fresh, (p.follow n).isEmpty = false →
        ∀ current : NatSet, (∀ m ∈ visited, m ∈ current) → p.unvisited (current.insert n) < depth := by
      intro n hn hlive current hcurrent
      have hlt := unvisited_insert_lt hcurrent (hstop n hlive) (Look.mem_fresh.mp hn).2
      exact hlt.trans_le (Nat.le_of_lt_succ hdepth)
    have hnil : p.lookInside shell none [] = .ok none := rfl
    rw [walk_succ hnil, looks]
    simp only [List.mem_cons, forall_eq_or_imp]
    rcases p.lookInside_none_cases shell (Look.pairwise_fresh ⟨set, visited⟩) with
      ⟨hlook, hclear⟩ | ⟨⟨input, hlook⟩, ⟨n, hn, hambiguous⟩, hlate⟩ | ⟨⟨e, hlook⟩, hearly⟩
    · have hpass : p.PassesInside shell ⟨set, visited⟩ := fun n hn h => absurd h (hclear n hn)
      rw [hlook, Result.ok_bind, and_iff_right hpass]
      refine foldlM_looksBehind (K := fun current => ∀ m ∈ visited, m ∈ current) ?_
        (fun _ hm => hm) final
      intro n hn hlive current hcurrent
      have hdeep := hfewer n hn hlive current hcurrent
      refine ⟨fun m hm => (covers_looks hstop _ hdeep).2.kept m ?_, ih _ hdeep⟩
      exact (NatSet.mem_insert _ _ _).mpr (Or.inl (hcurrent m hm))
    · have hpass := passesInside_iff hstop hn hambiguous hlate fun n hn hlive =>
        Nat.zero_lt_of_lt (hfewer n hn hlive visited fun _ hm => hm)
      rw [hlook, Result.ok_bind, hpass]
      refine (foldlM_looksBehind (K := fun _ => True) (fun _ _ _ _ _ =>
        ⟨trivial, walk_some_eq_ok_iff input depth _ _⟩) trivial final).trans (and_congr_left' ?_)
      exact (and_iff_left_of_imp fun h l hl => (h l hl).passesInside).symm
    · refine iff_of_false (fun h => ?_) fun h => ?_
      · rw [hlook] at h
        cases h
      · obtain ⟨n, hn, hambiguous, -⟩ := id hearly
        exact (h.1.1 n hn hambiguous).1 hearly

/-- The check passes exactly if each look passes together with the looks behind it. -/
theorem checkSubword_eq_ok_iff : p.checkSubword shell = .ok () ↔
    ∀ l ∈ p.allLooks, p.PassesInside shell l := by
  have hwalk : ∀ final, p.walk (p.lookInside shell) (p.stop + 1) none p.first
      (.singleton p.stop) = .ok final ↔ (∀ l ∈ p.allLooks, p.PassesInside shell l) ∧ final = _ :=
    walk_none_eq_ok_iff hstop _ (p.unvisited_lt _)
  rw [checkSubword_eq, walkAll, Result.bind_eq_ok]
  constructor
  · rintro ⟨final, hpass, -⟩
    exact ((hwalk final).mp hpass).1
  · intro hall
    exact ⟨_, (hwalk _).mpr ⟨hall, rfl⟩, rfl⟩

omit hstop in
/-- A look that does not pass sees the rule broken, or blames a neighbour. -/
theorem exists_not_passesInside_iff : (∃ l ∈ p.allLooks, ¬ p.PassesInside shell l) ↔
    p.SeesNontail shell ∨ p.BlamesNeighbour shell := by
  constructor
  · rintro ⟨l, hl, hfail⟩
    simp only [PassesInside, not_forall] at hfail
    obtain ⟨n, hn, hambiguous, hfail⟩ := hfail
    by_cases hearly : p.EarlyAmbiguous shell l.fresh
    · obtain ⟨k, hk, hambiguous, m, hm, hlt, hkm⟩ := hearly
      exact Or.inl ⟨l, hl, k, hk, hambiguous, m, hlt, Or.inr ⟨hm, hkm⟩⟩
    · simp only [hearly, not_false_eq_true, true_and, not_forall] at hfail
      obtain ⟨n', hn', m, hm, hlt, hbehind⟩ := hfail
      by_cases hsame : n' = n
      · subst hsame
        exact Or.inl ⟨l, hl, n', hn, hambiguous, m, hlt, Or.inl ⟨hm, hbehind⟩⟩
      · exact Or.inr ⟨l, hl, n, hn, hambiguous, n', hn', hsame, m, hlt, hm, hbehind⟩
  · rintro (⟨l, hl, n, hn, hambiguous, m, hlt, ⟨hm, hbehind⟩ | ⟨hm, hnm⟩⟩ |
      ⟨l, hl, n, hn, hambiguous, n', hn', -, m, hlt, hm, hbehind⟩)
    · exact ⟨l, hl, fun h => hbehind ((h n hn hambiguous).2 n hn m hm hlt)⟩
    · exact ⟨l, hl, fun h => (h n hn hambiguous).1 ⟨n, hn, hambiguous, m, hm, hlt, hnm⟩⟩
    · exact ⟨l, hl, fun h => hbehind ((h n hn hambiguous).2 n' hn' m hm hlt)⟩

variable (shell) in
/-- The check refuses positions exactly if it sees the rule broken or blames a neighbour. -/
theorem refusesSubword_iff : p.RefusesSubword shell ↔
    p.SeesNontail shell ∨ p.BlamesNeighbour shell := by
  rw [← exists_not_passesInside_iff]
  have hpass : p.checkSubword shell = .ok () ↔ _ := checkSubword_eq_ok_iff hstop
  cases hcheck : p.checkSubword shell with
  | ok =>
    refine iff_of_false ?_ ?_
    · rintro ⟨first, second, hreject⟩
      rw [hcheck] at hreject
      cases hreject
    · rintro ⟨l, hl, hfail⟩
      exact hfail (hpass.mp hcheck l hl)
  | error e =>
    obtain ⟨first, second, rfl⟩ := failsWithin_checkSubword shell p e hcheck
    refine iff_of_true ⟨first, second, hcheck⟩ ?_
    by_contra hall
    have hok := hpass.mpr fun l hl => by_contra fun hfail => hall ⟨l, hl, hfail⟩
    rw [hcheck] at hok
    cases hok

end

end Positions

/-- The check inside a word refuses the positions of a pattern exactly if it sees an ambiguous input with
another one behind it or later in its set, or blames one for what stands behind a neighbour. There is
such an input exactly if the check sees or skips it. So the check decides whether there is one exactly
if it skips only where it refuses, and blames only where it sees or skips. If it does not refuse, it
passes. -/
theorem Pattern.checkSubword_decides_iff (q : Pattern Input) (shell : Shell) :
    (q.positions.RefusesSubword shell ↔
        q.positions.SeesNontail shell ∨ q.positions.BlamesNeighbour shell) ∧
      (q.positions.HasNontail shell ↔
        q.positions.SeesNontail shell ∨ q.positions.SkipsNontail shell) ∧
      ((q.positions.RefusesSubword shell ↔ q.positions.HasNontail shell) ↔
        (q.positions.SkipsNontail shell →
          q.positions.SeesNontail shell ∨ q.positions.BlamesNeighbour shell) ∧
        (q.positions.BlamesNeighbour shell →
          q.positions.SeesNontail shell ∨ q.positions.SkipsNontail shell)) ∧
      (q.positions.RefusesSubword shell ∨ q.positions.checkSubword shell = .ok ()) := by
  have hrefuses := Positions.refusesSubword_iff shell q.lt_stop_of_follow
  have hnontail := Positions.hasNontail_iff shell q.lt_stop_of_follow
  refine ⟨hrefuses, hnontail, ?_, ?_⟩
  · rw [hrefuses, hnontail]
    constructor
    · intro h
      exact ⟨fun hskips => h.mpr (Or.inr hskips), fun hblames => h.mp (Or.inr hblames)⟩
    · rintro ⟨hskips, hblames⟩
      exact ⟨fun h => h.elim Or.inl hblames, fun h => h.elim Or.inl hskips⟩
  · cases hcheck : q.positions.checkSubword shell with
    | ok => exact Or.inr rfl
    | error e =>
      obtain ⟨first, second, rfl⟩ := Positions.failsWithin_checkSubword shell _ e hcheck
      exact Or.inl ⟨first, second, hcheck⟩

namespace Expr

/-- A command that is repeated: `{{{ c }}}...`. -/
def repeatedCommand : Expr := .repeated (.command "c" none 0 none)

/-- The pattern of that expression. -/
def repeatedCommandPattern : Pattern Input := .repeated (.symbol (.command "c" none 0 none))

/-- A command beside a sequence of literals: `(x y | {{{ c }}})`. -/
def siblingCommand : Expr :=
  .alternative [.sequence [.literal "x" none 0 none, .literal "y" none 0 none],
    .command "c" none 0 none]

/-- The pattern of that expression. -/
def siblingPattern : Pattern Input :=
  .alternative [.sequence [.symbol (.literal "x" none 0 none), .symbol (.literal "y" none 0 none)],
    .symbol (.command "c" none 0 none)]

/-- Behind a repeated command stands the command itself, which is visited. Behind a literal beside a
command stands a new one, for which the command is blamed. -/
theorem checkSubword_repeated_sibling :
    (repeatedCommand.toPattern (fun _ => .ok ()) .empty {} = .ok ({}, repeatedCommandPattern) ∧
      repeatedCommandPattern.positions.HasNontail .bash ∧
      repeatedCommandPattern.positions.checkSubword .bash = .ok ()) ∧
    (siblingCommand.toPattern (fun _ => .ok ()) .empty {} = .ok ({}, siblingPattern) ∧
      ¬ siblingPattern.positions.HasNontail .bash ∧
      siblingPattern.positions.checkSubword .bash = reject (.ambiguousInputs
        (.command "c" none 0 none) (.literal "y" none 0 none))) := by
  refine ⟨⟨rfl, ?_, by decide +kernel⟩, rfl, ?_, by decide +kernel⟩
  · rw [Positions.hasNontail_iff _ repeatedCommandPattern.lt_stop_of_follow]
    decide +kernel
  · rw [Positions.hasNontail_iff _ siblingPattern.lt_stop_of_follow]
    decide +kernel

end Expr

end ShellCompletion
