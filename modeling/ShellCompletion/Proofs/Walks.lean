import Mathlib.Data.Finset.Card
import Mathlib.Data.Finset.Filter
import Mathlib.Data.Finset.Range
import ShellCompletion.Pattern.Checks
import ShellCompletion.Proofs.Collections
import ShellCompletion.Proofs.PatternAutomaton
import ShellCompletion.Proofs.Results

/-!
# Walks over positions

A walk is a list of looks: each is at those positions of a set that were not visited before. If the walk
hands nothing new on, it passes exactly if every look does. The walk comes to the first positions
and, behind every position that it comes to, to the positions that follow it. So it comes to all
positions that a discovered set can have, but what it had visited before it does not see again.
-/

namespace ShellCompletion.Positions

variable {α : Type}

/-- One look of a walk: the set of positions that it comes to and the positions visited before. -/
structure Look where
  /-- The set of positions. -/
  set : NatSet
  /-- The positions visited before. -/
  visited : NatSet

/-- The positions of the set that were not visited before. -/
def Look.fresh (l : Look) : List ℕ := (l.set.diff l.visited).toList

/-- What is fresh in a look was not visited before it. -/
theorem Look.mem_fresh {l : Look} {n : ℕ} : n ∈ l.fresh ↔ n ∈ l.set ∧ ¬ n ∈ l.visited := by
  rw [fresh, NatSet.mem_toList, NatSet.mem_diff]

/-- The looks behind each of a list of positions, and the positions visited in the end. -/
def looksBehind (p : Positions α) (looks : NatSet → NatSet → List Look × NatSet) :
    List ℕ → NatSet → List Look × NatSet
  | [], visited => ([], visited)
  | n :: ns, visited =>
    if (p.follow n).isEmpty then p.looksBehind looks ns visited
    else
      let here := looks (p.follow n) (visited.insert n)
      let others := p.looksBehind looks ns here.2
      (here.1 ++ others.1, others.2)

/-- The looks of a walk, in order, and the positions visited in the end. -/
def looks (p : Positions α) : ℕ → NatSet → NatSet → List Look × NatSet
  | 0, _, visited => ([], visited)
  | depth + 1, set, visited =>
    let behind := p.looksBehind (p.looks depth) (set.diff visited).toList visited
    (⟨set, visited⟩ :: behind.1, behind.2)

/-- The looks of a walk over all positions that can be reached. -/
def allLooks (p : Positions α) : List Look :=
  (p.looks (p.stop + 1) p.first (.singleton p.stop)).1

/-! ### Walks that pass -/

section

variable {p : Positions Input}

/-- A walk looks at what is new in its set, and goes on behind it. -/
theorem walk_succ {σ : Type} {look : σ → List ℕ → Result σ} {handed handed' : σ}
    (hnil : look handed [] = .ok handed') (depth : ℕ) (set visited : NatSet) :
    p.walk look (depth + 1) handed set visited =
      look handed (⟨set, visited⟩ : Look).fresh >>= fun handed =>
        (⟨set, visited⟩ : Look).fresh.foldlM (fun visited n =>
          if (p.follow n).isEmpty then .ok visited
          else p.walk look depth handed (p.follow n) (visited.insert n)) visited := by
  have hfresh : (⟨set, visited⟩ : Look).fresh = (set.diff visited).toList := rfl
  rw [walk, hfresh]
  split
  · next hempty =>
    rw [List.isEmpty_iff.mp hempty, hnil]
    rfl
  · rfl

/-- If the walk behind each of a list of positions passes exactly if all of its looks do, so does the
walk behind all of them. This may depend on what is visited, as far as each part of the walk keeps it. -/
theorem foldlM_looksBehind {walk : NatSet → NatSet → Result NatSet}
    {looks : NatSet → NatSet → List Look × NatSet} {P : Look → Prop} {K : NatSet → Prop}
    {ns : List ℕ} (hwalk : ∀ n ∈ ns, (p.follow n).isEmpty = false → ∀ current, K current →
      K (looks (p.follow n) (current.insert n)).2 ∧
      ∀ final, walk (p.follow n) (current.insert n) = .ok final ↔
        (∀ l ∈ (looks (p.follow n) (current.insert n)).1, P l) ∧
          final = (looks (p.follow n) (current.insert n)).2)
    {current : NatSet} (hcurrent : K current) (final : NatSet) :
    ns.foldlM (fun visited n =>
        if (p.follow n).isEmpty then .ok visited else walk (p.follow n) (visited.insert n)) current =
        .ok final ↔
      (∀ l ∈ (p.looksBehind looks ns current).1, P l) ∧
        final = (p.looksBehind looks ns current).2 := by
  induction ns generalizing current with
  | nil =>
    rw [List.foldlM_nil, Result.pure_eq_ok, looksBehind]
    simp only [Except.ok.injEq, List.not_mem_nil, false_implies, implies_true, true_and]
    exact eq_comm
  | cons n ns ih =>
    replace ih := @ih fun m hm => hwalk m (List.mem_cons_of_mem n hm)
    rw [List.foldlM_cons, Result.bind_eq_ok, looksBehind]
    split
    · simp only [Except.ok.injEq, exists_eq_left', ih hcurrent]
    · next hlive =>
      obtain ⟨hkept, hhere⟩ := hwalk n (by simp) (Bool.eq_false_of_not_eq_true hlive) current hcurrent
      simp only [hhere, List.mem_append]
      constructor
      · rintro ⟨middle, ⟨hhere, rfl⟩, hrest⟩
        obtain ⟨hothers, rfl⟩ := (ih hkept).mp hrest
        exact ⟨fun l hl => hl.elim (hhere l) (hothers l), rfl⟩
      · rintro ⟨hall, rfl⟩
        exact ⟨_, ⟨fun l hl => hall l (Or.inl hl), rfl⟩,
          (ih hkept).mpr ⟨fun l hl => hall l (Or.inr hl), rfl⟩⟩

/-- If a value is handed on unchanged, a walk passes exactly if all of its looks do. -/
theorem walk_eq_ok_iff {σ : Type} {look : σ → List ℕ → Result σ} {handed : σ}
    (hnil : look handed [] = .ok handed)
    (hsame : ∀ new handed', look handed new = .ok handed' → handed' = handed)
    (depth : ℕ) (set visited final : NatSet) :
    p.walk look depth handed set visited = .ok final ↔
      (∀ l ∈ (p.looks depth set visited).1, look handed l.fresh = .ok handed) ∧
        final = (p.looks depth set visited).2 := by
  induction depth generalizing set visited final with
  | zero => simp [walk, looks, eq_comm]
  | succ depth ih =>
    have hbehind : ∀ ns, ns.foldlM (fun visited n => if (p.follow n).isEmpty then .ok visited
        else p.walk look depth handed (p.follow n) (visited.insert n)) visited = .ok final ↔
          (∀ l ∈ (p.looksBehind (p.looks depth) ns visited).1, look handed l.fresh = .ok handed) ∧
            final = (p.looksBehind (p.looks depth) ns visited).2 := fun ns =>
      foldlM_looksBehind (K := fun _ => True) (fun _ _ _ _ _ => ⟨trivial, ih _ _⟩) trivial final
    rw [walk_succ hnil, looks, Result.bind_eq_ok]
    simp only [List.mem_cons, forall_eq_or_imp]
    constructor
    · rintro ⟨handed', hlook, hwalk⟩
      obtain rfl := hsame _ _ hlook
      obtain ⟨hall, rfl⟩ := (hbehind _).mp hwalk
      exact ⟨⟨hlook, hall⟩, rfl⟩
    · rintro ⟨⟨hlook, hall⟩, rfl⟩
      exact ⟨handed, hlook, (hbehind _).mpr ⟨hall, rfl⟩⟩

/-- A walk over all positions that hands nothing on passes exactly if all of its looks do. -/
theorem walkAll_eq_ok_iff {check : List ℕ → Result Unit} (hnil : check [] = .ok ()) :
    p.walkAll (fun _ new => check new) () = .ok () ↔
      ∀ l ∈ p.allLooks, check l.fresh = .ok () := by
  have hwalk : ∀ final, p.walk (fun _ new => check new) (p.stop + 1) () p.first
      (.singleton p.stop) = .ok final ↔ (∀ l ∈ p.allLooks, check l.fresh = .ok ()) ∧ final = _ :=
    walk_eq_ok_iff hnil (fun _ _ _ => rfl) _ _ _
  rw [walkAll, Result.bind_eq_ok]
  constructor
  · rintro ⟨final, hpass, -⟩
    exact ((hwalk final).mp hpass).1
  · intro hall
    exact ⟨_, (hwalk _).mpr ⟨hall, rfl⟩, rfl⟩

end

/-! ### What a walk comes to -/

variable {p : Positions α}

/-- What holds of the first set of a walk and of what follows the members of each set holds of all sets
that the walk comes to. -/
theorem looks_induction {P : NatSet → Prop}
    (hstep : ∀ S, P S → ∀ n ∈ S, (p.follow n).isEmpty = false → P (p.follow n)) (depth : ℕ)
    {set : NatSet} (hset : P set) (visited : NatSet) :
    ∀ l ∈ (p.looks depth set visited).1, P l.set := by
  induction depth generalizing set visited with
  | zero => simp [looks]
  | succ depth ih =>
    have hbehind : ∀ ns visited, (∀ n ∈ ns, n ∈ set) →
        ∀ l ∈ (p.looksBehind (p.looks depth) ns visited).1, P l.set := by
      intro ns
      induction ns with
      | nil => simp [looksBehind]
      | cons n ns ihns =>
        intro visited hns
        have hn : n ∈ set := hns n (by simp)
        have hothers : ∀ m ∈ ns, m ∈ set := fun m hm => hns m (by simp [hm])
        rw [looksBehind]
        split
        · exact ihns visited hothers
        · next hlive =>
          intro l hl
          rcases List.mem_append.mp hl with hl | hl
          · exact ih (hstep set hset n hn (Bool.eq_false_of_not_eq_true hlive)) _ l hl
          · exact ihns _ hothers l hl
    rw [looks]
    intro l hl
    rcases List.mem_cons.mp hl with rfl | hl
    · exact hset
    · refine hbehind _ _ (fun n hn => ?_) l hl
      rw [NatSet.mem_toList, NatSet.mem_diff] at hn
      exact hn.1

/-- What a part of a walk has done: it comes to what follows each position that it visits, and it visits
all members of the sets that it comes to, as far as something follows them. -/
structure Covers (p : Positions α) (start : NatSet) (ls : List Look) (final : NatSet) : Prop where
  kept : ∀ n ∈ start, n ∈ final
  looked : ∀ n ∈ final, n ∈ start ∨ ∃ l ∈ ls, l.set = p.follow n
  covered : ∀ l ∈ ls, ∀ n ∈ l.set, (p.follow n).isEmpty = false → n ∈ final

theorem Covers.refl (visited : NatSet) : p.Covers visited [] visited :=
  ⟨fun _ hn => hn, fun _ hn => Or.inl hn, by simp⟩

/-- Two parts of a walk, one after the other. -/
theorem Covers.append {start middle final : NatSet} {ls ls' : List Look}
    (h : p.Covers start ls middle) (h' : p.Covers middle ls' final) :
    p.Covers start (ls ++ ls') final where
  kept := fun n hn => h'.kept n (h.kept n hn)
  looked := by
    intro n hn
    rcases h'.looked n hn with hn | ⟨l, hl, hset⟩
    · rcases h.looked n hn with hn | ⟨l, hl, hset⟩
      · exact Or.inl hn
      · exact Or.inr ⟨l, List.mem_append_left _ hl, hset⟩
    · exact Or.inr ⟨l, List.mem_append_right _ hl, hset⟩
  covered := by
    intro l hl n hn hlive
    rcases List.mem_append.mp hl with hl | hl
    · exact h'.kept n (h.covered l hl n hn hlive)
    · exact h'.covered l hl n hn hlive

/-- The number of positions that are not visited. -/
def unvisited (p : Positions α) (visited : NatSet) : ℕ :=
  ((Finset.range p.stop).filter fun n => ¬ n ∈ visited).card

/-- There are no more unvisited positions than positions. -/
theorem unvisited_lt (p : Positions α) (visited : NatSet) : p.unvisited visited < p.stop + 1 := by
  have hle := Finset.card_filter_le (Finset.range p.stop) fun n => ¬ n ∈ visited
  rw [Finset.card_range] at hle
  exact Nat.lt_succ_of_le hle

/-- Visiting a fresh position leaves fewer unvisited ones. -/
theorem unvisited_insert_lt {visited current : NatSet} {n : ℕ} (hcurrent : ∀ m ∈ visited, m ∈ current)
    (hn : n < p.stop) (hfresh : ¬ n ∈ visited) :
    p.unvisited (current.insert n) < p.unvisited visited := by
  apply Finset.card_lt_card
  rw [Finset.ssubset_iff_of_subset]
  · exact ⟨n, by simp [hn, hfresh], by simp⟩
  · intro m hm
    simp only [Finset.mem_filter, NatSet.mem_insert, not_or] at hm ⊢
    exact ⟨hm.1, fun hvisited => hm.2.1 (hcurrent m hvisited)⟩

/-- A part of a walk that begins with the visit of a position comes to what follows it. -/
theorem Covers.of_visit {start final : NatSet} {ls : List Look} {n : ℕ}
    (h : p.Covers (start.insert n) ls final) {l : Look} (hl : l ∈ ls) (hset : l.set = p.follow n) :
    p.Covers start ls final where
  kept := fun m hm => h.kept m ((NatSet.mem_insert _ _ _).mpr (Or.inl hm))
  looked := by
    intro m hm
    rcases h.looked m hm with hm | hlook
    · rcases (NatSet.mem_insert _ _ _).mp hm with hm | rfl
      · exact Or.inl hm
      · exact Or.inr ⟨l, hl, hset⟩
    · exact Or.inr hlook
  covered := h.covered

/-- If the walk behind each of a list of new positions covers what it comes to and visits the position,
so does the walk behind all of them. -/
theorem covers_looksBehind {looks : NatSet → NatSet → List Look × NatSet} {visited : NatSet}
    (hlooks : ∀ n current, (∀ m ∈ visited, m ∈ current) → ¬ n ∈ visited →
      (p.follow n).isEmpty = false →
      p.Covers current (looks (p.follow n) (current.insert n)).1
          (looks (p.follow n) (current.insert n)).2 ∧
        n ∈ (looks (p.follow n) (current.insert n)).2)
    (ns : List ℕ) (current : NatSet) (hcurrent : ∀ m ∈ visited, m ∈ current)
    (hns : ∀ n ∈ ns, ¬ n ∈ visited) :
    p.Covers current (p.looksBehind looks ns current).1 (p.looksBehind looks ns current).2 ∧
      ∀ n ∈ ns, (p.follow n).isEmpty = false → n ∈ (p.looksBehind looks ns current).2 := by
  induction ns generalizing current with
  | nil => exact ⟨.refl current, by simp⟩
  | cons n ns ih =>
    have hothers : ∀ m ∈ ns, ¬ m ∈ visited := fun m hm => hns m (by simp [hm])
    rw [looksBehind]
    split
    · next hdead =>
      obtain ⟨hcovers, hall⟩ := ih current hcurrent hothers
      refine ⟨hcovers, fun m hm hlive => ?_⟩
      rcases List.mem_cons.mp hm with rfl | hm
      · rw [hdead] at hlive
        cases hlive
      · exact hall m hm hlive
    · next hlive =>
      obtain ⟨hhere, hvisit⟩ := hlooks n current hcurrent (hns n (by simp))
        (Bool.eq_false_of_not_eq_true hlive)
      obtain ⟨hrest, hall⟩ := ih _ (fun m hm => hhere.kept m (hcurrent m hm)) hothers
      refine ⟨hhere.append hrest, fun m hm hlive' => ?_⟩
      rcases List.mem_cons.mp hm with rfl | hm
      · exact hrest.kept m hvisit
      · exact hall m hm hlive'

section

variable (hstop : ∀ n, (p.follow n).isEmpty = false → n < p.stop)

include hstop

/-- A walk that is deep enough covers what it comes to. It is deep enough if there are fewer positions to
be visited, as each level of it visits a new one. -/
theorem covers_looks {depth : ℕ} (set : NatSet) {visited : NatSet}
    (hdepth : p.unvisited visited < depth) :
    ⟨set, visited⟩ ∈ (p.looks depth set visited).1 ∧
      p.Covers visited (p.looks depth set visited).1 (p.looks depth set visited).2 := by
  induction depth generalizing set visited with
  | zero => omega
  | succ depth ih =>
    have hlooks : ∀ n current, (∀ m ∈ visited, m ∈ current) → ¬ n ∈ visited →
        (p.follow n).isEmpty = false →
        p.Covers current (p.looks depth (p.follow n) (current.insert n)).1
            (p.looks depth (p.follow n) (current.insert n)).2 ∧
          n ∈ (p.looks depth (p.follow n) (current.insert n)).2 := by
      intro n current hcurrent hn hlive
      have hfewer : p.unvisited (current.insert n) < depth :=
        (unvisited_insert_lt hcurrent (hstop n hlive) hn).trans_le (Nat.le_of_lt_succ hdepth)
      obtain ⟨hhere, hbelow⟩ := ih (p.follow n) hfewer
      exact ⟨hbelow.of_visit hhere rfl,
        hbelow.kept n ((NatSet.mem_insert _ _ _).mpr (Or.inr rfl))⟩
    obtain ⟨hcovers, hall⟩ := covers_looksBehind hlooks (set.diff visited).toList visited
      (fun _ hm => hm) (by simp)
    rw [looks]
    refine ⟨by simp, hcovers.kept, fun n hn => ?_, fun l hl n hn hlive => ?_⟩
    · exact (hcovers.looked n hn).imp_right fun ⟨l, hl, hset⟩ => ⟨l, List.mem_cons_of_mem _ hl, hset⟩
    · rcases List.mem_cons.mp hl with rfl | hl
      · by_cases hvisited : n ∈ visited
        · exact hcovers.kept n hvisited
        · refine hall n ?_ hlive
          rw [NatSet.mem_toList, NatSet.mem_diff]
          exact ⟨hn, hvisited⟩
      · exact hcovers.covered l hl n hn hlive

/-- The walk over all positions begins with the first ones, of which only the end counts as visited, and
comes to what follows each member of a set that it comes to. -/
theorem allLooks_spec : ⟨p.first, .singleton p.stop⟩ ∈ p.allLooks ∧
    ∀ l ∈ p.allLooks, ∀ n ∈ l.set, (p.follow n).isEmpty = false →
      ∃ l' ∈ p.allLooks, l'.set = p.follow n := by
  obtain ⟨hfirst, hcovers⟩ := covers_looks hstop p.first (p.unvisited_lt _)
  refine ⟨hfirst, fun l hl n hn hlive => ?_⟩
  rcases hcovers.looked n (hcovers.covered l hl n hn hlive) with hend | hlook
  · rw [NatSet.mem_singleton] at hend
    exact absurd (hstop n hlive) (by omega)
  · exact hlook

variable [DecidableEq α]

/-- The walk comes to what follows each member of a discovered set. -/
theorem exists_look {S : NatSet} (hS : p.Discovered S) {n : ℕ} (hn : n ∈ S)
    (hlive : (p.follow n).isEmpty = false) : ∃ l ∈ p.allLooks, l.set = p.follow n := by
  obtain ⟨hfirst, hclosed⟩ := allLooks_spec hstop
  suffices hmet : ∀ n ∈ S, ∃ l ∈ p.allLooks, n ∈ l.set by
    obtain ⟨l, hl, hn⟩ := hmet n hn
    exact hclosed l hl n hn hlive
  clear hn hlive n
  induction hS with
  | first => exact fun n hn => ⟨_, hfirst, hn⟩
  | after a _ _ ih =>
    intro n hn
    obtain ⟨m, hm, -, hn⟩ := (p.mem_after _ a n).mp hn
    obtain ⟨l, hl, hm⟩ := ih m ((NatSet.mem_toList _ m).mp hm)
    obtain ⟨l', hl', hset⟩ := hclosed l hl m hm ((NatSet.isEmpty_eq_false_iff _).mpr ⟨n, hn⟩)
    exact ⟨l', hl', hset ▸ hn⟩

/-- What the walk comes to is part of a discovered set. -/
theorem exists_discovered {l : Look} (hl : l ∈ p.allLooks) :
    ∃ S, p.Discovered S ∧ ∀ n ∈ l.set, n ∈ S := by
  refine looks_induction (P := fun set => ∃ S, p.Discovered S ∧ ∀ n ∈ set, n ∈ S) ?_ _
    ⟨p.first, .first, fun _ hn => hn⟩ _ l hl
  rintro set ⟨S, hS, hset⟩ n hn hlive
  obtain ⟨a, hsymbol⟩ : ∃ a, p.symbols[n]? = some a := ⟨_, Array.getElem?_eq_getElem (hstop n hlive)⟩
  have hafter : ∀ m ∈ p.follow n, m ∈ p.after S.toList a := fun m hm =>
    (p.mem_after _ _ m).mpr ⟨n, (NatSet.mem_toList S n).mpr (hset n hn), hsymbol, hm⟩
  obtain ⟨m, hm⟩ := (NatSet.isEmpty_eq_false_iff _).mp hlive
  exact ⟨_, .after _ hS ((NatSet.isEmpty_eq_false_iff _).mpr ⟨m, hafter m hm⟩), hafter⟩

end

end ShellCompletion.Positions

namespace ShellCompletion.Pattern

/-- Only positions before the end have others behind them. -/
theorem lt_stop_of_follow {α : Type} (p : Pattern α) (n : ℕ)
    (h : (p.positions.follow n).isEmpty = false) : n < p.positions.stop := by
  obtain ⟨m, hm⟩ := (NatSet.isEmpty_eq_false_iff _).mp h
  rw [stop_positions]
  exact ((p.mem_follow_positions n m).mp hm).1

end ShellCompletion.Pattern
