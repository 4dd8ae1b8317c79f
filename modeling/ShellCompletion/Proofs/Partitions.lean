import Mathlib.Algebra.BigOperators.Group.List.Basic
import Mathlib.Algebra.GroupWithZero.Nat
import Mathlib.Logic.Relation
import ShellCompletion.Automaton.Minimization
import ShellCompletion.Proofs.Collections
import ShellCompletion.Proofs.Results

/-!
# Cutting blocks in two

Refinement cuts blocks in two, one after the other. A cut keeps the blocks a partition, only ever makes
blocks smaller, and leaves the sum of pending groups and possible further cuts unchanged, which bounds
the number of rounds. A round that ends early cuts only the first ones of the blocks that a whole round
would cut.
-/

namespace ShellCompletion.Automaton.Refinement

/-- Whether a block has members inside of a set and others outside. -/
def Crosses (X B : NatSet) : Prop := (∃ n, n ∈ B ∧ n ∈ X) ∧ ∃ n, n ∈ B ∧ ¬ n ∈ X

/-- A block with a single member is not crossed. -/
theorem Crosses.ne_singleton {X B : NatSet} (h : Crosses X B) (n : ℕ) : B ≠ .singleton n := by
  rintro rfl
  obtain ⟨⟨m, hm, hin⟩, k, hk, hout⟩ := h
  rw [NatSet.mem_singleton] at hm hk
  exact hout (hk ▸ hm ▸ hin)

/-- Cut a block in its part inside of a set and its part outside. -/
def cut (r : Refinement) (B X : NatSet) : Refinement :=
  r.split B (B.inter X) (B.diff (B.inter X))

/-- The members of the part outside. -/
theorem mem_outside (B X : NatSet) (n : ℕ) : n ∈ B.diff (B.inter X) ↔ n ∈ B ∧ ¬ n ∈ X := by
  rw [NatSet.mem_diff, NatSet.mem_inter]
  tauto

/-- Cutting a block puts its two parts in its place. -/
theorem mem_blocks_cut (r : Refinement) (B X C : NatSet) :
    C ∈ (r.cut B X).blocks.toList ↔
      (C ≠ B ∧ C ∈ r.blocks.toList) ∨ C = B.inter X ∨ C = B.diff (B.inter X) := by
  simp only [cut, split, OrderedSet.mem_insert, OrderedSet.mem_erase, or_assoc]

/-- A pending group of a cut was pending before, or is one of the parts. -/
theorem mem_pending_cut {r : Refinement} {B X C : NatSet} (h : C ∈ (r.cut B X).pending.toList) :
    (C ≠ B ∧ C ∈ r.pending.toList) ∨ C = B.inter X ∨ C = B.diff (B.inter X) := by
  simp only [cut, split] at h
  split at h
  · simpa only [OrderedSet.mem_insert, OrderedSet.mem_erase, or_assoc] using h
  · next hB =>
    rw [OrderedSet.contains_iff] at hB
    have hne : C ∈ r.pending.toList → C ≠ B := fun hC heq => hB (heq ▸ hC)
    split at h
    · rcases (OrderedSet.mem_insert _ _ _).mp h with h | h
      · exact .inl ⟨hne h, h⟩
      · exact .inr (.inl h)
    · rcases (OrderedSet.mem_insert _ _ _).mp h with h | h
      · exact .inl ⟨hne h, h⟩
      · exact .inr (.inr h)

/-- Groups other than the block that is cut stay pending. -/
theorem mem_pending_cut_of_ne {r : Refinement} {B X C : NatSet} (hne : C ≠ B)
    (hC : C ∈ r.pending.toList) : C ∈ (r.cut B X).pending.toList := by
  simp only [cut, split]
  split
  · simp [hne, hC]
  · split <;> simp [hC]

/-- Both parts of a pending block are pending. -/
theorem parts_mem_pending {r : Refinement} {B X : NatSet} (hB : B ∈ r.pending.toList) :
    B.inter X ∈ (r.cut B X).pending.toList ∧ B.diff (B.inter X) ∈ (r.cut B X).pending.toList := by
  simp only [cut, split, (OrderedSet.contains_iff _ _).mpr hB, if_true, OrderedSet.mem_insert]
  tauto

/-- One of the two parts is pending in any case. -/
theorem part_mem_pending (r : Refinement) (B X : NatSet) :
    B.inter X ∈ (r.cut B X).pending.toList ∨ B.diff (B.inter X) ∈ (r.cut B X).pending.toList := by
  simp only [cut, split]
  split
  · simp
  · split <;> simp

/-- No block is empty, and the pending groups are among the blocks. -/
structure Populated (r : Refinement) : Prop where
  nonempty : ∀ B ∈ r.blocks.toList, ∃ n, n ∈ B
  pending_mem : ∀ G ∈ r.pending.toList, G ∈ r.blocks.toList

/-- Whether a state is in at most one block. -/
def AtMostOnce (r : Refinement) (n : ℕ) : Prop :=
  ∀ B ∈ r.blocks.toList, ∀ C ∈ r.blocks.toList, n ∈ B → n ∈ C → B = C

/-- The blocks of a refinement divide a set of states, and the pending groups are among them. -/
structure Partition (S : NatSet) (r : Refinement) : Prop extends Populated r where
  disjoint : ∀ B ∈ r.blocks.toList, ∀ C ∈ r.blocks.toList, ∀ n, n ∈ B → n ∈ C → B = C
  cover : ∀ n, n ∈ S ↔ ∃ B ∈ r.blocks.toList, n ∈ B

section Cut

variable {S : NatSet} {r : Refinement} {B X : NatSet}

/-- A cut of a block that is crossed leaves no block empty, and no group pending that is no block. -/
theorem Populated.cut (h : Populated r) (hX : Crosses X B) : Populated (r.cut B X) := by
  constructor
  · intro C hC
    rcases (mem_blocks_cut r B X C).mp hC with ⟨-, hC⟩ | rfl | rfl
    · exact h.nonempty C hC
    · obtain ⟨⟨n, hn, hin⟩, -⟩ := hX
      exact ⟨n, (NatSet.mem_inter B X n).mpr ⟨hn, hin⟩⟩
    · obtain ⟨-, n, hn, hout⟩ := hX
      exact ⟨n, (mem_outside B X n).mpr ⟨hn, hout⟩⟩
  · intro G hG
    rw [mem_blocks_cut]
    rcases mem_pending_cut hG with ⟨hne, hG⟩ | hG
    · exact .inl ⟨hne, h.pending_mem G hG⟩
    · exact .inr hG

/-- A member of a block after a cut was in the same block, or is in a part of the block that was cut. -/
theorem mem_block_of_cut {C : NatSet} {n : ℕ} (hC : C ∈ (r.cut B X).blocks.toList) (hn : n ∈ C) :
    (C ≠ B ∧ C ∈ r.blocks.toList) ∨
      (n ∈ B ∧ (C = B.inter X ∧ n ∈ X ∨ C = B.diff (B.inter X) ∧ ¬ n ∈ X)) := by
  rcases (mem_blocks_cut r B X C).mp hC with hC | rfl | rfl
  · exact .inl hC
  · rw [NatSet.mem_inter] at hn
    exact .inr ⟨hn.1, .inl ⟨rfl, hn.2⟩⟩
  · rw [mem_outside] at hn
    exact .inr ⟨hn.1, .inr ⟨rfl, hn.2⟩⟩

/-- A cut does not bring a state into a second block. -/
theorem AtMostOnce.cut {n : ℕ} (h : AtMostOnce r n) (hB : B ∈ r.blocks.toList) :
    AtMostOnce (r.cut B X) n := by
  intro C hC D hD hnC hnD
  rcases mem_block_of_cut hC hnC with ⟨hCB, hC⟩ | ⟨hnB, hC⟩ <;>
    rcases mem_block_of_cut hD hnD with ⟨hDB, hD⟩ | ⟨hnB', hD⟩
  · exact h C hC D hD hnC hnD
  · exact (hCB (h C hC B hB hnC hnB')).elim
  · exact (hDB (h D hD B hB hnD hnB)).elim
  · rcases hC with ⟨rfl, hin⟩ | ⟨rfl, hout⟩ <;> rcases hD with ⟨rfl, hin'⟩ | ⟨rfl, hout'⟩
    · rfl
    · exact (hout' hin).elim
    · exact (hout hin').elim
    · rfl

/-- A cut does not change which states are in blocks. -/
theorem exists_block_cut_iff (hB : B ∈ r.blocks.toList) (n : ℕ) :
    (∃ C ∈ (r.cut B X).blocks.toList, n ∈ C) ↔ ∃ C ∈ r.blocks.toList, n ∈ C := by
  constructor
  · rintro ⟨C, hC, hn⟩
    rcases mem_block_of_cut hC hn with ⟨-, hC⟩ | ⟨hnB, -⟩
    · exact ⟨C, hC, hn⟩
    · exact ⟨B, hB, hnB⟩
  · rintro ⟨C, hC, hn⟩
    by_cases hCB : C = B
    · subst hCB
      by_cases hin : n ∈ X
      · exact ⟨_, (mem_blocks_cut r C X _).mpr (.inr (.inl rfl)),
          (NatSet.mem_inter C X n).mpr ⟨hn, hin⟩⟩
      · exact ⟨_, (mem_blocks_cut r C X _).mpr (.inr (.inr rfl)),
          (mem_outside C X n).mpr ⟨hn, hin⟩⟩
    · exact ⟨C, (mem_blocks_cut r B X C).mpr (.inl ⟨hCB, hC⟩), hn⟩

/-- A cut of a partition is a partition. -/
theorem Partition.cut (h : Partition S r) (hB : B ∈ r.blocks.toList) (hX : Crosses X B) :
    Partition S (r.cut B X) := by
  refine ⟨h.toPopulated.cut hX, ?_, ?_⟩
  · intro C hC D hD n
    have honce : AtMostOnce r n := fun C hC D hD => h.disjoint C hC D hD n
    exact honce.cut hB C hC D hD
  · intro n
    rw [h.cover, exists_block_cut_iff hB]

/-- The number of pending groups and of cuts that blocks still allow. -/
def workLeft (r : Refinement) : ℕ :=
  r.pending.size + (r.blocks.toList.map fun B => B.size - 1).sum

/-- An insertion adds at most one term to a sum over the members. -/
theorem sum_insert_le (f : NatSet → ℕ) (s : OrderedSet NatSet) (C : NatSet) :
    ((s.insert C).toList.map f).sum ≤ (s.toList.map f).sum + f C := by
  by_cases h : C ∈ s.toList
  · rw [OrderedSet.insert, dif_pos h]
    omega
  · rw [OrderedSet.toList_insert_of_not_mem h, List.map_append, List.sum_append, List.map_singleton,
      List.sum_singleton]

/-- A sum over different sets is at most the sum with repetitions. -/
theorem sum_ofList_le (f : NatSet → ℕ) (Bs : List NatSet) :
    ((OrderedSet.ofList Bs).toList.map f).sum ≤ (Bs.map f).sum := by
  have general : ∀ s : OrderedSet NatSet,
      ((Bs.foldl OrderedSet.insert s).toList.map f).sum ≤ (s.toList.map f).sum + (Bs.map f).sum := by
    induction Bs with
    | nil => simp
    | cons B Bs ih =>
      intro s
      have hrest := ih (s.insert B)
      have hfirst := sum_insert_le f s B
      rw [List.foldl_cons, List.map_cons, List.sum_cons]
      omega
  simpa [OrderedSet.ofList, OrderedSet.empty] using general .empty

/-- Inserting a block adds at most one. -/
theorem size_insert_le (s : OrderedSet NatSet) (C : NatSet) : (s.insert C).size ≤ s.size + 1 := by
  simpa [OrderedSet.size] using sum_insert_le (fun _ => 1) s C

/-- A cut uses up one of the cuts that the blocks allow, and makes at most one more group pending. -/
theorem workLeft_cut_le (hB : B ∈ r.blocks.toList) (hX : Crosses X B) :
    (r.cut B X).workLeft ≤ r.workLeft := by
  have hsize := NatSet.size_split B X
  have hin : 0 < (B.inter X).size := by
    obtain ⟨⟨n, hn, hin⟩, -⟩ := hX
    exact NatSet.size_pos ((NatSet.mem_inter B X n).mpr ⟨hn, hin⟩)
  have hout : 0 < (B.diff (B.inter X)).size := by
    obtain ⟨-, n, hn, hout⟩ := hX
    exact NatSet.size_pos ((mem_outside B X n).mpr ⟨hn, hout⟩)
  have hblocks : ((r.cut B X).blocks.toList.map fun B => B.size - 1).sum + 1 ≤
      (r.blocks.toList.map fun B => B.size - 1).sum := by
    have hsum := List.sum_map_erase (fun B : NatSet => B.size - 1) hB
    have hfirst := sum_insert_le (fun B : NatSet => B.size - 1) (r.blocks.erase B)
      (B.inter X)
    have hsecond := sum_insert_le (fun B : NatSet => B.size - 1)
      ((r.blocks.erase B).insert (B.inter X)) (B.diff (B.inter X))
    rw [OrderedSet.toList_erase] at hfirst
    simp only [Refinement.cut, split]
    omega
  have hpending : (r.cut B X).pending.size ≤ r.pending.size + 1 := by
    simp only [Refinement.cut, split]
    split
    · next hB' =>
      rw [OrderedSet.contains_iff] at hB'
      have hlength := List.length_erase_add_one hB'
      have herase : (r.pending.erase B).size + 1 = r.pending.size := hlength
      have hfirst := size_insert_le (r.pending.erase B) (B.inter X)
      have hsecond := size_insert_le ((r.pending.erase B).insert (B.inter X))
        (B.diff (B.inter X))
      omega
    · split <;> exact size_insert_le ..
  simp only [workLeft]
  omega

end Cut

/-- One cut by a set with a given property. -/
inductive Cut (P : NatSet → Prop) (r : Refinement) : Refinement → Prop
  | cut {B X : NatSet} : P X → B ∈ r.blocks.toList → Crosses X B → Cut P r (r.cut B X)

/-- Any number of cuts by sets with a given property. -/
abbrev Cuts (P : NatSet → Prop) : Refinement → Refinement → Prop := Relation.ReflTransGen (Cut P)

/-- What every cut by certain sets preserves is preserved by any number of them. -/
theorem Cuts.preserve {P : NatSet → Prop} {I : Refinement → Prop} {r r' : Refinement}
    (h : Cuts P r r') (hcut : ∀ {r B X}, I r → P X → B ∈ r.blocks.toList → Crosses X B →
      I (r.cut B X)) (hr : I r) : I r' := by
  induction h with
  | refl => exact hr
  | tail _ hstep ih =>
    cases hstep with
    | cut hX hB hcross => exact hcut ih hX hB hcross

/-- Cuts by sets of a kind are cuts by sets of a wider one. -/
theorem Cuts.mono {P Q : NatSet → Prop} {r r' : Refinement} (h : Cuts P r r')
    (hPQ : ∀ X, P X → Q X) : Cuts Q r r' :=
  h.preserve (I := Cuts Q r) (fun hr hX hB hcross => hr.tail (.cut (hPQ _ hX) hB hcross)) .refl

/-- Cuts leave no block empty. -/
theorem Cuts.populated {P : NatSet → Prop} {r r' : Refinement} (h : Cuts P r r')
    (hr : Populated r) : Populated r' :=
  h.preserve (I := Populated) (fun hr _ _ hX => hr.cut hX) hr

/-- Cuts keep a partition. -/
theorem Cuts.partition {P : NatSet → Prop} {S : NatSet} {r r' : Refinement} (h : Cuts P r r')
    (hr : Partition S r) : Partition S r' :=
  h.preserve (I := Partition S) (fun hr _ hB hX => hr.cut hB hX) hr

/-- Cuts do not add to the work that is left. -/
theorem Cuts.workLeft_le {P : NatSet → Prop} {r r' : Refinement} (h : Cuts P r r') :
    r'.workLeft ≤ r.workLeft :=
  h.preserve (I := fun r' => r'.workLeft ≤ r.workLeft)
    (fun hr _ hB hX => (workLeft_cut_le hB hX).trans hr) le_rfl

/-- After cuts every block is a part of a block that was there before. -/
theorem Cuts.exists_block {P : NatSet → Prop} {r r' : Refinement} (h : Cuts P r r') :
    ∀ C ∈ r'.blocks.toList, ∃ B ∈ r.blocks.toList, ∀ n, n ∈ C → n ∈ B := by
  refine h.preserve (I := fun r' => ∀ C ∈ r'.blocks.toList, ∃ B ∈ r.blocks.toList,
    ∀ n, n ∈ C → n ∈ B) ?_ fun C hC => ⟨C, hC, fun _ hn => hn⟩
  intro r' B X ih _ hB _ C hC
  obtain ⟨D, hD, hsub⟩ := ih B hB
  rcases (mem_blocks_cut r' B X C).mp hC with ⟨-, hC⟩ | rfl | rfl
  · exact ih C hC
  · exact ⟨D, hD, fun n hn => hsub n ((NatSet.mem_inter B X n).mp hn).1⟩
  · exact ⟨D, hD, fun n hn => hsub n ((mem_outside B X n).mp hn).1⟩

/-- Whether no block has members on both sides of a set. -/
def Respects (X : NatSet) (r : Refinement) : Prop := ∀ B ∈ r.blocks.toList, ¬ Crosses X B

/-- What crosses a part of a block crosses the block. -/
theorem Crosses.of_subset {X B C : NatSet} (h : Crosses X C) (hsub : ∀ n, n ∈ C → n ∈ B) :
    Crosses X B := by
  obtain ⟨⟨n, hn, hin⟩, m, hm, hout⟩ := h
  exact ⟨⟨n, hsub n hn, hin⟩, m, hsub m hm, hout⟩

/-- Further cuts do not bring members on both sides of a set together. -/
theorem Cuts.respects {P : NatSet → Prop} {X : NatSet} {r r' : Refinement} (h : Cuts P r r')
    (hr : Respects X r) : Respects X r' := by
  intro C hC hX
  obtain ⟨B, hB, hsub⟩ := h.exists_block C hC
  exact hr B hB (hX.of_subset hsub)

/-- If all blocks respect those of another refinement after cuts, they did so before. -/
theorem Cuts.respects_of_parts {P : NatSet → Prop} {r r' r'' : Refinement} (h : Cuts P r r')
    (hparts : ∀ B ∈ r'.blocks.toList, Respects B r'') : ∀ B ∈ r.blocks.toList, Respects B r'' := by
  induction h with
  | refl => exact hparts
  | @tail s _ _ hstep ih =>
    cases hstep with
    | @cut B X _ hB _ =>
      refine ih fun C hC D hD hcross => ?_
      by_cases hCB : C = B
      · subst hCB
        -- A member of the block that is cut is in one of the parts, and the part crosses as well.
        obtain ⟨⟨n, hn, hin⟩, m, hm, hout⟩ := hcross
        by_cases hnX : n ∈ X
        · exact hparts _ ((mem_blocks_cut s C X _).mpr (.inr (.inl rfl))) D hD
            ⟨⟨n, hn, (NatSet.mem_inter C X n).mpr ⟨hin, hnX⟩⟩, m, hm,
              fun h => hout ((NatSet.mem_inter C X m).mp h).1⟩
        · exact hparts _ ((mem_blocks_cut s C X _).mpr (.inr (.inr rfl))) D hD
            ⟨⟨n, hn, (mem_outside C X n).mpr ⟨hin, hnX⟩⟩, m, hm,
              fun h => hout ((mem_outside C X m).mp h).1⟩
      · exact hparts C ((mem_blocks_cut s B X C).mpr (.inl ⟨hCB, hC⟩)) D hD hcross

/-- Cut each of the given blocks that is crossed. -/
def splitEach (X : NatSet) (r : Refinement) : List NatSet → Refinement
  | [] => r
  | B :: blocks =>
    if (B.diff (B.inter X)).isEmpty then splitEach X r blocks else splitEach X (r.cut B X) blocks

/-- Cut all blocks that a set crosses. -/
def splitWhole (r : Refinement) (X : NatSet) : Refinement :=
  splitEach X r (r.blocks.toList.filter fun B => !(B.inter X).isEmpty)

/-- Something is left outside exactly if the block has other states. -/
theorem isEmpty_outside (B X : NatSet) :
    (B.diff (B.inter X)).isEmpty = false ↔ ∃ n, n ∈ B ∧ ¬ n ∈ X := by
  simp only [NatSet.isEmpty_eq_false_iff, mem_outside]

/-- The blocks that have members in a set. -/
theorem mem_touched (r : Refinement) (B X : NatSet) :
    B ∈ r.blocks.toList.filter (fun B => !(B.inter X).isEmpty) ↔
      B ∈ r.blocks.toList ∧ ∃ n, n ∈ B ∧ n ∈ X := by
  simp only [List.mem_filter, Bool.not_eq_true', NatSet.isEmpty_eq_false_iff, NatSet.mem_inter]

/-- Cutting each of several blocks is a series of cuts. -/
theorem cuts_splitEach (X : NatSet) {blocks : List NatSet} {r : Refinement} (hnodup : blocks.Nodup)
    (hblocks : ∀ B ∈ blocks, B ∈ r.blocks.toList ∧ ∃ n, n ∈ B ∧ n ∈ X) :
    Cuts (· = X) r (splitEach X r blocks) := by
  induction blocks generalizing r with
  | nil => exact .refl
  | cons B blocks ih =>
    obtain ⟨hB, htouch⟩ := hblocks B (by simp)
    rw [List.nodup_cons] at hnodup
    rw [splitEach]
    split
    · exact ih hnodup.2 fun C hC => hblocks C (by simp [hC])
    · next hout =>
      have hcross : Crosses X B := ⟨htouch, (isEmpty_outside B X).mp (by simpa using hout)⟩
      refine .head (.cut rfl hB hcross) (ih hnodup.2 fun C hC => ?_)
      obtain ⟨hC', htouch'⟩ := hblocks C (by simp [hC])
      exact ⟨(mem_blocks_cut r B X C).mpr (.inl ⟨fun heq => hnodup.1 (heq ▸ hC), hC'⟩), htouch'⟩

/-- Once each of several blocks is cut, a set crosses at most other blocks. -/
theorem crosses_splitEach {X : NatSet} {blocks : List NatSet} {r : Refinement} {C : NatSet}
    (hC : C ∈ (splitEach X r blocks).blocks.toList) (hX : Crosses X C) :
    C ∈ r.blocks.toList ∧ C ∉ blocks := by
  induction blocks generalizing r with
  | nil => exact ⟨hC, List.not_mem_nil⟩
  | cons B blocks ih =>
    rw [splitEach] at hC
    split at hC
    · next hout =>
      obtain ⟨hmem, hnot⟩ := ih hC
      refine ⟨hmem, fun hin => ?_⟩
      rcases List.mem_cons.mp hin with rfl | hin
      · rw [(isEmpty_outside C X).mpr hX.2] at hout
        cases hout
      · exact hnot hin
    · obtain ⟨hmem, hnot⟩ := ih hC
      rcases (mem_blocks_cut r B X C).mp hmem with ⟨hne, hmem⟩ | rfl | rfl
      · exact ⟨hmem, fun hin => (List.mem_cons.mp hin).elim hne hnot⟩
      · obtain ⟨-, n, hn, hout⟩ := hX
        exact (hout ((NatSet.mem_inter B X n).mp hn).2).elim
      · obtain ⟨⟨n, hn, hin⟩, -⟩ := hX
        exact (((mem_outside B X n).mp hn).2 hin).elim

/-- Cutting all blocks that a set crosses is a series of cuts, after which it crosses none. -/
theorem splitWhole_spec (r : Refinement) (X : NatSet) :
    Cuts (· = X) r (r.splitWhole X) ∧ Respects X (r.splitWhole X) := by
  constructor
  · exact cuts_splitEach X (r.blocks.nodup.filter _) fun B hB => (mem_touched r B X).mp hB
  · intro C hC hX
    obtain ⟨hmem, hnot⟩ := crosses_splitEach hC hX
    exact hnot ((mem_touched r C X).mpr ⟨hmem, hX.1⟩)

/-- A round that ends when its group is cut treats the first ones of the blocks: all of them, unless
the group is crossed. -/
theorem splitAll_eq (group X : NatSet) (r : Refinement) (blocks : List NatSet) :
    ∃ front back, blocks = front ++ back ∧ splitAll group X r blocks = splitEach X r front ∧
      (back = [] ∨ group ∈ front ∧ ∃ n, n ∈ group ∧ ¬ n ∈ X) := by
  induction blocks generalizing r with
  | nil => exact ⟨[], [], rfl, rfl, .inl rfl⟩
  | cons B blocks ih =>
    rw [splitAll]
    dsimp only
    split
    · next hout =>
      obtain ⟨front, back, rfl, heq, hback⟩ := ih r
      refine ⟨B :: front, back, rfl, ?_, hback.imp_right fun h => ⟨by simp [h.1], h.2⟩⟩
      rw [splitEach, if_pos hout, heq]
    · next hout =>
      split
      · next hgroup =>
        refine ⟨[B], blocks, rfl, ?_, .inr ?_⟩
        · rw [splitEach, if_neg hout]
          rfl
        · exact hgroup ▸ ⟨by simp, (isEmpty_outside B X).mp (by simpa using hout)⟩
      · obtain ⟨front, back, rfl, heq, hback⟩ := ih (r.cut B X)
        refine ⟨B :: front, back, rfl, ?_, hback.imp_right fun h => ⟨by simp [h.1], h.2⟩⟩
        rw [splitEach, if_neg hout]
        exact heq

/-- Splitting by a set of sources is a series of cuts. -/
theorem cuts_splitBySources (group : NatSet) (r : Refinement) (X : NatSet) :
    Cuts (· = X) r (r.splitBySources group X) := by
  rw [splitBySources]
  obtain ⟨front, back, hblocks, heq, -⟩ := splitAll_eq group X r
    (r.blocks.toList.filter fun B => !(B.inter X).isEmpty)
  rw [heq]
  have hnodup := r.blocks.nodup.filter fun B => !(B.inter X).isEmpty
  rw [hblocks] at hnodup
  refine cuts_splitEach X hnodup.of_append_left fun B hB => (mem_touched r B X).mp ?_
  rw [hblocks]
  exact List.mem_append_left back hB

/-- A round does not end early if the sources do not cross its group. -/
theorem splitBySources_eq_splitWhole {group X : NatSet} (h : ¬ Crosses X group) (r : Refinement) :
    r.splitBySources group X = r.splitWhole X := by
  rw [splitBySources, splitWhole]
  obtain ⟨front, back, hblocks, heq, rfl | ⟨hgroup, hout⟩⟩ := splitAll_eq group X r
    (r.blocks.toList.filter fun B => !(B.inter X).isEmpty)
  · rw [heq, hblocks, List.append_nil]
  · have hmem := hblocks ▸ List.mem_append_left back hgroup
    exact (h ⟨((mem_touched r group X).mp hmem).2, hout⟩).elim

/-- Take up pending groups in rounds of the given kind until there are none. -/
def runWith (round : NatSet → Refinement → Result Refinement) : ℕ → Refinement → Result Refinement
  | fuel, r =>
    match r.pending.toList with
    | [] => .ok r
    | group :: _ =>
      match fuel with
      | 0 => giveUp .endlessRefinement
      | fuel + 1 => do
        runWith round fuel (← round group { r with pending := r.pending.erase group })

/-- The refinement is a run with the rounds of groups. -/
theorem run_eq_runWith {α : Type} [DecidableEq α] (image : Array (Transition α)) (fuel : ℕ)
    (r : Refinement) : run image fuel r = runWith (splitByGroup image) fuel r := by
  induction fuel generalizing r with
  | zero =>
    unfold run runWith
    cases r.pending.toList <;> rfl
  | succ fuel ih =>
    unfold run runWith
    cases r.pending.toList with
    | nil => rfl
    | cons group rest => simp only [ih]

/-- Taking up a pending group uses up some of the work that is left. -/
theorem workLeft_take_lt {r : Refinement} {group : NatSet} (hgroup : group ∈ r.pending.toList) :
    Refinement.workLeft { r with pending := r.pending.erase group } < r.workLeft := by
  have hlength := List.length_erase_add_one hgroup
  simp only [workLeft, OrderedSet.size, OrderedSet.toList_erase]
  omega

/-- Taking up a group leaves no block empty. -/
theorem Populated.take {r : Refinement} (h : Populated r) (group : NatSet) :
    Populated { r with pending := r.pending.erase group } :=
  ⟨h.nonempty, fun G hG => h.pending_mem G ((OrderedSet.mem_erase _ _ _).mp hG).2⟩

/-- Taking up a pending group keeps a partition. -/
theorem Partition.take {S : NatSet} {r : Refinement} (h : Partition S r) (group : NatSet) :
    Partition S { r with pending := r.pending.erase group } :=
  ⟨h.toPopulated.take group, h.disjoint, h.cover⟩

end ShellCompletion.Automaton.Refinement
