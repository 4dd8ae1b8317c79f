import Mathlib.Data.List.Sort
import ShellCompletion.Data.NatSet
import ShellCompletion.Data.OrderedMap

/-!
# Facts about sets and ordered maps

Sets of numbers list their members in ascending order, so that their least and greatest members and
their sizes can be told from the list. Maps and sets that keep the order of insertion are made from
lists without change if nothing in the list is repeated.
-/

namespace ShellCompletion

namespace NatSet

theorem contains_iff (s : NatSet) (n : ℕ) : s.contains n = true ↔ n ∈ s := Iff.rfl

/-- A set is empty exactly if no number is a member. -/
theorem isEmpty_iff_forall (s : NatSet) : s.isEmpty = true ↔ ∀ n, ¬ n ∈ s := by
  rw [isEmpty_iff]
  constructor
  · rintro rfl n
    exact not_mem_empty n
  · intro h
    apply ext
    intro n
    simp [h n]

/-- A set is not empty exactly if some number is a member. -/
theorem isEmpty_eq_false_iff (s : NatSet) : s.isEmpty = false ↔ ∃ n, n ∈ s := by
  rw [← Bool.not_eq_true, isEmpty_iff_forall, not_forall_not]

/-- The members are listed in ascending order. -/
theorem pairwise_toList (s : NatSet) : s.toList.Pairwise (· < ·) :=
  List.pairwise_lt_range.filter _

/-- An ascending list of the members is the list of the members. -/
theorem toList_eq {s : NatSet} {ns : List ℕ} (hns : ns.Pairwise (· < ·))
    (hmem : ∀ n, n ∈ ns ↔ n ∈ s) : s.toList = ns :=
  s.pairwise_toList.eq_of_mem_iff hns fun n => by rw [mem_toList, hmem]

/-- A set with a member has a least one. -/
theorem exists_min? {s : NatSet} {n : ℕ} (hn : n ∈ s) :
    ∃ m, s.min? = some m ∧ m ∈ s ∧ ∀ k ∈ s, m ≤ k := by
  cases hs : s.toList with
  | nil =>
    rw [← mem_toList, hs] at hn
    simp at hn
  | cons m ms =>
    have hsorted := s.pairwise_toList
    rw [hs, List.pairwise_cons] at hsorted
    refine ⟨m, by rw [min?, hs]; rfl, (mem_toList s m).mp (by simp [hs]), ?_⟩
    intro k hk
    rw [← mem_toList, hs, List.mem_cons] at hk
    rcases hk with rfl | hk
    · exact le_rfl
    · exact (hsorted.1 k hk).le

/-- A set with a member has a greatest one. -/
theorem exists_max? {s : NatSet} {n : ℕ} (hn : n ∈ s) :
    ∃ m, s.max? = some m ∧ m ∈ s ∧ ∀ k ∈ s, k ≤ m := by
  rw [← mem_toList] at hn
  have hne : s.toList ≠ [] := List.ne_nil_of_mem hn
  refine ⟨s.toList.getLast hne, List.getLast?_eq_getLast_of_ne_nil hne,
    (mem_toList s _).mp (List.getLast_mem hne), ?_⟩
  intro k hk
  rw [← mem_toList] at hk
  have hsorted := s.pairwise_toList
  rw [← List.dropLast_append_getLast hne] at hk hsorted
  rw [List.pairwise_append] at hsorted
  rw [List.mem_append, List.mem_singleton] at hk
  rcases hk with hk | hk
  · exact (hsorted.2.2 k hk _ (by simp)).le
  · exact hk.le

/-- A set with a member has a positive size. -/
theorem size_pos {s : NatSet} {n : ℕ} (hn : n ∈ s) : 0 < s.size :=
  List.length_pos_of_mem ((mem_toList s n).mpr hn)

/-- The two parts into which a set is split have together its size. -/
theorem size_split (s t : NatSet) : (s.inter t).size + (s.diff (s.inter t)).size = s.size := by
  have hinter : (s.inter t).toList = s.toList.filter t.contains :=
    toList_eq (s.pairwise_toList.filter _) fun n => by
      rw [List.mem_filter, mem_toList, mem_inter, contains_iff]
  have hdiff : (s.diff (s.inter t)).toList = s.toList.filter fun n => !t.contains n :=
    toList_eq (s.pairwise_toList.filter _) fun n => by
      rw [List.mem_filter, mem_toList, mem_diff, mem_inter, Bool.not_eq_true', ← Bool.not_eq_true,
        contains_iff]
      tauto
  rw [size, size, size, hinter, hdiff, ← List.length_eq_length_filter_add]

end NatSet

namespace OrderedMap

variable {κ ν : Type} [DecidableEq κ]

theorem put_of_not_mem {k : κ} {v : ν} {es : List (κ × ν)} (h : k ∉ es.map Prod.fst) :
    put k v es = es ++ [(k, v)] := by
  induction es with
  | nil => rfl
  | cons e es ih =>
    rw [List.map_cons, List.mem_cons, not_or] at h
    rw [put, if_neg (Ne.symm h.1), ih h.2, List.cons_append]

/-- A list without repeated keys is made into a map with the same entries. -/
theorem entries_ofList {es : List (κ × ν)} (h : (es.map Prod.fst).Nodup) :
    (ofList es).entries = es := by
  have general : ∀ (es : List (κ × ν)) (m : OrderedMap κ ν),
      ((m.entries ++ es).map Prod.fst).Nodup →
      (es.foldl (fun m e => m.insert e.1 e.2) m).entries = m.entries ++ es := by
    intro es
    induction es with
    | nil => simp
    | cons e es ih =>
      intro m hm
      have hput : (m.insert e.1 e.2).entries = m.entries ++ [e] := by
        apply put_of_not_mem
        rw [List.map_append, List.nodup_append] at hm
        intro he
        exact hm.2.2 e.1 he e.1 (by simp) rfl
      rw [List.foldl_cons, ih, hput, List.append_assoc, List.singleton_append]
      rw [hput, List.append_assoc, List.singleton_append]
      exact hm
  rw [ofList, general es empty (by simpa [empty] using h)]
  simp [empty]

/-- The keys of a map are those with a value. -/
theorem mem_keys_iff (m : OrderedMap κ ν) (k : κ) : k ∈ m.keys ↔ ∃ v, m.get? k = some v := by
  simp only [keys, List.mem_map, Prod.exists, exists_and_right, exists_eq_right, mem_entries_iff]

theorem contains_iff (m : OrderedMap κ ν) (k : κ) : m.contains k = true ↔ k ∈ m.keys := by
  rw [mem_keys_iff, contains, Option.isSome_iff_exists]

/-- Entries that are inserted for keys without a value: each key keeps the value it has, and else gets its
first one. -/
theorem get?_foldl_insertNew [BEq κ] [LawfulBEq κ] (es : List (κ × ν)) (m : OrderedMap κ ν) (k : κ) :
    (es.foldl (fun m e => m.insertNew e.1 e.2) m).get? k = (m.get? k).or (es.lookup k) := by
  induction es generalizing m with
  | nil => simp
  | cons e es ih =>
    rw [List.foldl_cons, ih, List.lookup_cons, insertNew]
    by_cases hk : k = e.1
    · cases hvalue : m.get? e.1 <;> simp [contains, hk, hvalue, get?_insert]
    · rw [beq_eq_false_iff_ne.mpr hk]
      split
      · rfl
      · rw [get?_insert, if_neg hk]

/-- Altering a value changes that one only. -/
theorem get?_alter (m : OrderedMap κ ν) (k j : κ) (missing : ν) (f : ν → ν) :
    (m.alter k missing f).get? j = if j = k then some (f ((m.get? k).getD missing)) else m.get? j :=
  get?_insert m k j _

end OrderedMap

namespace OrderedSet

variable {κ : Type} [DecidableEq κ]

theorem contains_iff (s : OrderedSet κ) (k : κ) : s.contains k = true ↔ k ∈ s.toList := by
  rw [contains, decide_eq_true_eq]

theorem toList_insert_of_not_mem {s : OrderedSet κ} {k : κ} (h : k ∉ s.toList) :
    (s.insert k).toList = s.toList ++ [k] := by
  rw [insert, dif_neg h]

theorem toList_erase (s : OrderedSet κ) (k : κ) : (s.erase k).toList = s.toList.erase k := rfl

/-- A list without repetition is made into a set with the same members in the same order. -/
theorem toList_ofList {ks : List κ} (h : ks.Nodup) : (ofList ks).toList = ks := by
  have general : ∀ (ks : List κ) (s : OrderedSet κ), (s.toList ++ ks).Nodup →
      (ks.foldl insert s).toList = s.toList ++ ks := by
    intro ks
    induction ks with
    | nil => simp
    | cons k ks ih =>
      intro s hs
      have hk : k ∉ s.toList := by
        rw [List.nodup_append] at hs
        intro hk
        exact hs.2.2 k hk k (by simp) rfl
      rw [List.foldl_cons, ih, toList_insert_of_not_mem hk, List.append_assoc,
        List.singleton_append]
      rw [toList_insert_of_not_mem hk, List.append_assoc, List.singleton_append]
      exact hs
  rw [ofList, general ks empty (by simpa [empty] using h)]
  simp [empty]

/-- Every member has a place, and only one member has it. -/
theorem exists_indexOf? {s : OrderedSet κ} {k : κ} (h : k ∈ s.toList) :
    ∃ i, s.indexOf? k = some i ∧ s.toList[i]? = some k := by
  obtain ⟨i, hi⟩ : ∃ i, s.toList.findIdx? (· = k) = some i := by
    rw [← Option.isSome_iff_exists, List.findIdx?_isSome, List.any_eq_true]
    exact ⟨k, h, by simp⟩
  refine ⟨i, hi, ?_⟩
  obtain ⟨hlt, heq, -⟩ := List.findIdx?_eq_some_iff_getElem.mp hi
  rw [List.getElem?_eq_getElem hlt]
  simpa using heq

end OrderedSet

end ShellCompletion
