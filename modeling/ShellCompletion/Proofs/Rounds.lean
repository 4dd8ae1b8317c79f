import ShellCompletion.Proofs.Partitions
import ShellCompletion.Proofs.Sources

/-!
# Rounds of refinement

What refinement does, whatever the automaton. It comes to an end, each block is a part of the blocks that
were there before, and what the cuts of a round keep true of all blocks is true in the end. If no round
ends early, it ends with blocks of which each symbol leads all states into the same blocks or none.
-/

namespace ShellCompletion.Automaton

open Refinement

variable {α : Type} [DecidableEq α]

section Folds

variable {f : Refinement → NatSet → Refinement}

/-- Going through a list of sets is a series of cuts by them. -/
theorem cuts_foldl (hf : ∀ r X, Cuts (· = X) r (f r X)) (Xs : List NatSet) (r : Refinement) :
    Cuts (· ∈ Xs) r (Xs.foldl f r) := by
  induction Xs generalizing r with
  | nil => exact .refl
  | cons X Xs ih =>
    rw [List.foldl_cons]
    exact ((hf r X).mono fun Y hY => by simp [hY]).trans ((ih _).mono fun Y hY => by simp [hY])

/-- What one of the sets no longer crosses, it does not cross in the end. -/
theorem respects_foldl (hf : ∀ r X, Cuts (· = X) r (f r X)) {Xs : List NatSet}
    (hrespects : ∀ r, ∀ X ∈ Xs, Respects X (f r X)) (r : Refinement) :
    ∀ X ∈ Xs, Respects X (Xs.foldl f r) := by
  induction Xs generalizing r with
  | nil => simp
  | cons X Xs ih =>
    intro Y hY
    rw [List.foldl_cons]
    rcases List.mem_cons.mp hY with rfl | hY
    · exact (cuts_foldl hf Xs _).respects (hrespects r Y (by simp))
    · exact ih (fun r Z hZ => hrespects r Z (by simp [hZ])) _ Y hY

end Folds

variable (a : Automaton α)

/-- The states that neither accept nor are dead. -/
def others : NatSet :=
  (a.states.diff a.accepting).diff (.singleton deadState)

/-- The initial blocks as a refinement in which all of them are pending. -/
def initial : Refinement :=
  ⟨.ofList a.initialBlocks, .ofList a.initialBlocks⟩

/-- The number of rounds that refinement may take. -/
def roundLimit : ℕ := 3 + 2 * NatSet.totalSize a.initialBlocks

/-- Refinement as it takes place before states are merged. -/
def refinement : Result Refinement := run a.image a.roundLimit a.initial

/-- A round that never ends early: each set of sources into the group cuts all blocks that it
crosses. -/
def wholeRound (group : NatSet) (r : Refinement) : Result Refinement :=
  .ok ((a.sourceSets group).foldl splitWhole r)

/-- Refinement in whole rounds. -/
def wholeRefinement : Result Refinement := runWith a.wholeRound a.roundLimit a.initial

/-- Rounds by pending groups until nothing is pending. A round goes through the sets of sources into its
group and cuts blocks by them in the given way. -/
inductive Rounds (way : NatSet → Refinement → NatSet → Refinement) : Refinement → Refinement → Prop
  | done {r : Refinement} : r.pending.toList = [] → Rounds way r r
  | round {r r' : Refinement} {group : NatSet} {rest : List NatSet} :
    r.pending.toList = group :: rest →
    Rounds way ((a.sourceSets group).foldl (way group) { r with pending := r.pending.erase group }) r' →
    Rounds way r r'

variable {a}

omit [DecidableEq α] in
/-- The other states neither accept nor are dead. -/
theorem mem_others (s : ℕ) :
    s ∈ a.others ↔ s ∈ a.states ∧ ¬ s ∈ a.accepting ∧ s ≠ deadState := by
  simp only [others, NatSet.mem_diff, NatSet.mem_singleton, and_assoc, ne_eq]

omit [DecidableEq α] in
/-- The blocks in the beginning. -/
theorem mem_blocks_initial {B : NatSet} : B ∈ a.initial.blocks.toList ↔
    B = .singleton deadState ∨ B = a.accepting ∨ B = a.others := by
  simp [initial, initialBlocks, others]

section Rounds

variable {way : NatSet → Refinement → NatSet → Refinement} {r r' : Refinement}

/-- What every round keeps true is true in the end, when nothing is pending. -/
theorem Rounds.preserve {I : Refinement → Prop} (h : a.Rounds way r r')
    (hround : ∀ r group, I r → group ∈ r.pending.toList →
      I ((a.sourceSets group).foldl (way group) { r with pending := r.pending.erase group }))
    (hr : I r) : I r' ∧ r'.pending.toList = [] := by
  induction h with
  | done hpending => exact ⟨hr, hpending⟩
  | @round r _ group _ hgroup _ ih => exact ih (hround r group hr (by simp [hgroup]))

variable (hway : ∀ group r X, Cuts (· = X) r (way group r X))

include hway

/-- Each block of the end is a part of an earlier one. -/
theorem Rounds.exists_block (h : a.Rounds way r r') :
    ∀ C ∈ r'.blocks.toList, ∃ B ∈ r.blocks.toList, ∀ n, n ∈ C → n ∈ B := by
  induction h with
  | done => exact fun C hC => ⟨C, hC, fun _ hn => hn⟩
  | @round r _ group _ _ _ ih =>
    intro C hC
    obtain ⟨D, hD, hCD⟩ := ih C hC
    have hcuts := cuts_foldl (hway group) (a.sourceSets group)
      { r with pending := r.pending.erase group }
    obtain ⟨B, hB, hDB⟩ := hcuts.exists_block D hD
    exact ⟨B, hB, fun n hn => hDB n (hCD n hn)⟩

/-- If the blocks of the end do not cross each other, no earlier block crosses one of them. -/
theorem Rounds.respects (h : a.Rounds way r r') (hend : ∀ B ∈ r'.blocks.toList, Respects B r') :
    ∀ B ∈ r.blocks.toList, Respects B r' := by
  induction h with
  | done => exact hend
  | @round r _ group _ _ _ ih =>
    have hcuts := cuts_foldl (hway group) (a.sourceSets group)
      { r with pending := r.pending.erase group }
    exact hcuts.respects_of_parts (ih hend)

/-- What cuts by the sources of earlier blocks keep true of blocks is true of all blocks in the end. -/
theorem Rounds.forall_blocks {P : NatSet → Prop} (h : a.Rounds way r r') (hr : Populated r)
    (hblocks : ∀ B ∈ r.blocks.toList, P B)
    (hcut : ∀ s, a.Rounds way s r' → ∀ G ∈ s.blocks.toList, P G → ∀ X ∈ a.sourceSets G, ∀ B, P B →
      Crosses X B → P (B.inter X) ∧ P (B.diff (B.inter X))) :
    ∀ B ∈ r'.blocks.toList, P B := by
  induction h with
  | done => exact hblocks
  | @round r r' group rest hgroup hrest ih =>
    have hmem := hr.pending_mem group (by simp [hgroup])
    have hcuts := cuts_foldl (hway group) (a.sourceSets group)
      { r with pending := r.pending.erase group }
    refine ih (hcuts.populated (hr.take group)) ?_ hcut
    refine hcuts.preserve (I := fun s => ∀ B ∈ s.blocks.toList, P B) ?_ hblocks
    intro s B X hs hX hB hcross C hC
    obtain ⟨hin, hout⟩ := hcut r (.round hgroup hrest) group hmem (hblocks group hmem) X hX B
      (hs B hB) hcross
    rcases (mem_blocks_cut s B X C).mp hC with ⟨-, hC⟩ | rfl | rfl
    · exact hs C hC
    · exact hin
    · exact hout

/-- The amount of work that is left suffices as fuel for rounds until nothing is pending. -/
theorem exists_rounds {round : NatSet → Refinement → Result Refinement}
    (hround : ∀ group, (∃ n, n ∈ group) → ∀ r,
      round group r = .ok ((a.sourceSets group).foldl (way group) r))
    (hr : Populated r) {fuel : ℕ} (hfuel : r.workLeft ≤ fuel) :
    ∃ r', runWith round fuel r = .ok r' ∧ a.Rounds way r r' := by
  induction fuel generalizing r with
  | zero =>
    have hpending : r.pending.toList = [] := by
      rw [← List.length_eq_zero_iff]
      simp only [workLeft, OrderedSet.size] at hfuel
      omega
    refine ⟨r, ?_, .done hpending⟩
    rw [runWith, hpending]
  | succ fuel ih =>
    cases hpending : r.pending.toList with
    | nil =>
      refine ⟨r, ?_, .done hpending⟩
      rw [runWith, hpending]
    | cons group rest =>
      have hgroup : group ∈ r.pending.toList := by simp [hpending]
      have hcuts := cuts_foldl (hway group) (a.sourceSets group)
        { r with pending := r.pending.erase group }
      have hwork := hcuts.workLeft_le
      have hless := workLeft_take_lt hgroup
      obtain ⟨r', hrun, hrounds⟩ := ih (hcuts.populated (hr.take group)) (by omega)
      refine ⟨r', ?_, .round hpending hrounds⟩
      rw [runWith, hpending]
      simp only [hround group (hr.nonempty group (hr.pending_mem group hgroup)), Result.ok_bind]
      exact hrun

end Rounds

omit [DecidableEq α] in
/-- The initial blocks allow the number of rounds. -/
theorem workLeft_initial_le (a : Automaton α) : a.initial.workLeft ≤ a.roundLimit := by
  have hsize := sum_ofList_le (fun _ => 1) a.initialBlocks
  have hcuts := sum_ofList_le (fun B => B.size - 1) a.initialBlocks
  simp only [List.map_const', List.sum_replicate_nat, mul_one] at hsize
  simp only [initialBlocks, List.map_cons, List.map_nil, List.sum_cons, List.sum_nil,
    List.length_cons, List.length_nil] at hsize hcuts
  simp only [workLeft, initial, OrderedSet.size, roundLimit, initialBlocks, NatSet.totalSize]
  omega

/-- Refinement comes to an end if some state accepts and some state neither accepts nor is dead. -/
theorem exists_refinement_rounds (h : Populated a.initial) :
    ∃ r, a.refinement = .ok r ∧ a.Rounds splitBySources a.initial r := by
  rw [refinement, run_eq_runWith]
  refine exists_rounds (fun group r X => cuts_splitBySources group r X) ?_ h a.workLeft_initial_le
  rintro group ⟨n, hn⟩ r
  exact splitByGroup_eq hn r

/-- The refinement without breaks comes to an end, round by round. -/
theorem exists_wholeRefinement_rounds (h : Populated a.initial) :
    ∃ r, a.wholeRefinement = .ok r ∧ a.Rounds (fun _ => splitWhole) a.initial r :=
  exists_rounds (fun _ r X => (splitWhole_spec r X).1) (fun _ _ _ => rfl) h a.workLeft_initial_le

variable (a)

/-- Whether a state has a row and a symbol leads it into a set. -/
def Enters (c : α) (B : NatSet) (s : ℕ) : Prop := s ∈ a.rows.keys ∧ a.step s c ∈ B

/-- Whether a symbol leads exactly one of two states into a set. -/
def Parts (c : α) (B : NatSet) (s t : ℕ) : Prop := ¬ (a.Enters c B s ↔ a.Enters c B t)

/-- Two states of a block that a symbol leads apart are watched: the symbol leads exactly one of them into
a pending group, or the exception holds. -/
def Watched (T : ℕ → ℕ → α → Prop) (r : Refinement) : Prop :=
  ∀ B ∈ r.blocks.toList, ∀ s t, s ∈ B → t ∈ B → ∀ c ∈ a.symbols.toList,
    ∀ C ∈ r.blocks.toList, a.Parts c C s t → (∃ D ∈ r.pending.toList, a.Parts c D s t) ∨ T s t c

variable {a}

/-- To enter a part of a block is to enter the block in that part. -/
theorem enters_inter (c : α) (B X : NatSet) (s : ℕ) :
    a.Enters c (B.inter X) s ↔ a.Enters c B s ∧ a.step s c ∈ X := by
  rw [Enters, NatSet.mem_inter, Enters, and_assoc]

/-- To enter the rest of a block is to enter the block outside of the part. -/
theorem enters_outside (c : α) (B X : NatSet) (s : ℕ) :
    a.Enters c (B.diff (B.inter X)) s ↔ a.Enters c B s ∧ ¬ a.step s c ∈ X := by
  rw [Enters, mem_outside, Enters, and_assoc]

/-- If a symbol leads exactly one of two states into a block that is cut, it leads it into one of the
parts. -/
theorem Parts.of_cut {c : α} {B : NatSet} {s t : ℕ} (h : a.Parts c B s t) (X : NatSet) :
    a.Parts c (B.inter X) s t ∨ a.Parts c (B.diff (B.inter X)) s t := by
  simp only [Parts, enters_inter, enters_outside] at h ⊢
  grind

/-- If a symbol leads exactly one of two states into a part of a block, it does so for the block or for
both parts. -/
theorem parts_block_or_both {c : α} {B C X : NatSet} {s t : ℕ}
    (hC : C = B.inter X ∨ C = B.diff (B.inter X)) (h : a.Parts c C s t) :
    a.Parts c B s t ∨ a.Parts c (B.inter X) s t ∧ a.Parts c (B.diff (B.inter X)) s t := by
  simp only [Parts, enters_inter, enters_outside] at h ⊢
  rcases hC with rfl | rfl
  · rw [enters_inter, enters_inter] at h
    grind
  · rw [enters_outside, enters_outside] at h
    grind

namespace Watched

variable {T : ℕ → ℕ → α → Prop} {r r' : Refinement}

/-- A cut keeps the watch: if it parts two targets, one of the parts becomes pending, and if it cuts a
pending block, both parts are pending. -/
theorem cut (h : a.Watched T r) {B X : NatSet} (hB : B ∈ r.blocks.toList) :
    a.Watched T (r.cut B X) := by
  intro E hE s t hs ht c hc C hC hparts
  obtain ⟨E', hE', hsE, htE⟩ : ∃ E' ∈ r.blocks.toList, s ∈ E' ∧ t ∈ E' := by
    rcases (mem_blocks_cut r B X E).mp hE with ⟨-, hE⟩ | rfl | rfl
    · exact ⟨E, hE, hs, ht⟩
    · exact ⟨B, hB, ((NatSet.mem_inter B X s).mp hs).1, ((NatSet.mem_inter B X t).mp ht).1⟩
    · exact ⟨B, hB, ((mem_outside B X s).mp hs).1, ((mem_outside B X t).mp ht).1⟩
  have hold : ∀ D ∈ r.blocks.toList, a.Parts c D s t →
      (∃ D ∈ (r.cut B X).pending.toList, a.Parts c D s t) ∨ T s t c := by
    intro D hD hparts
    rcases h E' hE' s t hsE htE c hc D hD hparts with ⟨G, hG, hparts⟩ | hT
    · by_cases hGB : G = B
      · subst hGB
        obtain ⟨hin, hout⟩ := parts_mem_pending (X := X) hG
        rcases hparts.of_cut X with hparts | hparts
        · exact .inl ⟨_, hin, hparts⟩
        · exact .inl ⟨_, hout, hparts⟩
      · exact .inl ⟨G, mem_pending_cut_of_ne hGB hG, hparts⟩
    · exact .inr hT
  rcases (mem_blocks_cut r B X C).mp hC with ⟨-, hC⟩ | hpart
  · exact hold C hC hparts
  · rcases parts_block_or_both hpart hparts with hparts | ⟨hin, hout⟩
    · exact hold B hB hparts
    · rcases part_mem_pending r B X with hpending | hpending
      · exact .inl ⟨_, hpending, hin⟩
      · exact .inl ⟨_, hpending, hout⟩

/-- Cuts keep what is watched. -/
theorem cuts {P : NatSet → Prop} (h : a.Watched T r) (hcuts : Cuts P r r') : a.Watched T r' :=
  hcuts.preserve (I := a.Watched T) (fun hr _ hB _ => hr.cut hB) h

end Watched

/-- Two states of which a symbol leads exactly one into a group, while the symbol's set of sources is
still among the given ones. -/
def Awaits (a : Automaton α) (group : NatSet) (Xs : List NatSet) (s t : ℕ) (c : α) : Prop :=
  a.Parts c group s t ∧ ∃ X ∈ Xs, a.LeadsInto c group X

/-- When a group is taken up, the states that were watched for its sake await their turn. -/
theorem Watched.take (ha : a.ReadsSymbols) {r : Refinement} (group : NatSet)
    (h : a.Watched (fun _ _ _ => False) r) :
    a.Watched (a.Awaits group (a.sourceSets group)) { r with pending := r.pending.erase group } := by
  intro B hB s t hs ht c hc C hC hparts
  rcases h B hB s t hs ht c hc C hC hparts with ⟨D, hD, hparts⟩ | hT
  · by_cases hDG : D = group
    · subst hDG
      have hsource : ∃ X ∈ a.sourceSets D, a.LeadsInto c D X := by
        by_cases hsD : a.Enters c D s
        · exact exists_sourceSet ha hc hsD.1 hsD.2
        · have htD : a.Enters c D t := by
            by_contra htD
            exact hparts (iff_of_false hsD htD)
          exact exists_sourceSet ha hc htD.1 htD.2
      exact .inr ⟨hparts, hsource⟩
    · exact .inl ⟨D, (OrderedSet.mem_erase _ _ _).mpr ⟨hDG, hD⟩, hparts⟩
  · exact hT.elim

/-- Once a symbol's set of sources crosses no block, nothing awaits the turn of the symbol. -/
theorem Watched.foldl {group : NatSet} {Xs : List NatSet} {r : Refinement}
    (h : a.Watched (a.Awaits group Xs) r) :
    a.Watched (fun _ _ _ => False) (Xs.foldl splitWhole r) := by
  induction Xs generalizing r with
  | nil =>
    intro B hB s t hs ht c hc C hC hparts
    rcases h B hB s t hs ht c hc C hC hparts with hpending | ⟨-, X, hX, -⟩
    · exact .inl hpending
    · simp at hX
  | cons X Xs ih =>
    obtain ⟨hcuts, hrespects⟩ := splitWhole_spec r X
    rw [List.foldl_cons]
    refine ih fun B hB s t hs ht c hc C hC hparts => ?_
    rcases h.cuts hcuts B hB s t hs ht c hc C hC hparts with hpending | ⟨hgroup, Y, hY, hinto⟩
    · exact .inl hpending
    refine .inr ⟨hgroup, ?_⟩
    rcases List.mem_cons.mp hY with rfl | hY
    · -- The set crosses no block any more, so it has both states or none.
      refine (hgroup ((hinto.mem_iff s).symm.trans (Iff.trans ?_ (hinto.mem_iff t)))).elim
      constructor
      · intro hsY
        by_contra htY
        exact hrespects B hB ⟨⟨s, hs, hsY⟩, t, ht, htY⟩
      · intro htY
        by_contra hsY
        exact hrespects B hB ⟨⟨t, ht, htY⟩, s, hs, hsY⟩
    · exact ⟨Y, hY, hinto⟩

/-- Refinement in whole rounds ends with blocks of which each symbol leads all states into the same blocks
or none. -/
theorem Rounds.enters_iff (ha : a.ReadsSymbols) {r : Refinement}
    (h : a.Rounds (fun _ => splitWhole) a.initial r) {B : NatSet} (hB : B ∈ r.blocks.toList) {s t : ℕ}
    (hs : s ∈ B) (ht : t ∈ B) {c : α} (hc : c ∈ a.symbols.toList) {C : NatSet}
    (hC : C ∈ r.blocks.toList) : a.Enters c C s ↔ a.Enters c C t := by
  have hinitial : a.Watched (fun _ _ _ => False) a.initial :=
    fun _ _ _ _ _ _ _ _ C hC hparts => .inl ⟨C, hC, hparts⟩
  obtain ⟨hwatched, hpending⟩ := h.preserve (I := a.Watched fun _ _ _ => False)
    (fun r group hr _ => (hr.take ha group).foldl) hinitial
  by_contra hparts
  rcases hwatched B hB s t hs ht c hc C hC hparts with ⟨D, hD, -⟩ | hfalse
  · simp [hpending] at hD
  · exact hfalse

end ShellCompletion.Automaton
