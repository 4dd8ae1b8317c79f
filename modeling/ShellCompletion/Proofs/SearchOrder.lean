import ShellCompletion.Proofs.PositionSets

/-!
# The order in which a search finds values

A search that takes up values first in, first out finds them in the order in which they are met, and meets
each one before it is taken up. Seen from the steps that the search takes, one after the other: before a
step from a value, or to a value that is found later, the value has been met. For numbers in ascending
order the converse is true as well.
-/

namespace ShellCompletion

namespace OrderedSet

variable {κ : Type} [DecidableEq κ]

/-- A value that is there already is not added. -/
theorem insert_of_mem {s : OrderedSet κ} {k : κ} (h : k ∈ s.toList) : s.insert k = s := by
  rw [insert, dif_pos h]

/-- Insertions only add members at the end. -/
theorem toList_foldl_insert (s : OrderedSet κ) (ks : List κ) :
    s.toList <+: (ks.foldl insert s).toList := by
  induction ks generalizing s with
  | nil => exact List.prefix_rfl
  | cons k ks ih =>
    rw [List.foldl_cons]
    refine List.IsPrefix.trans ?_ (ih (s.insert k))
    by_cases hk : k ∈ s.toList
    · rw [insert_of_mem hk]
    · rw [toList_insert_of_not_mem hk]
      exact List.prefix_append ..

/-- A set is made of a list value by value. -/
theorem ofList_append (ks js : List κ) : ofList (ks ++ js) = js.foldl insert (ofList ks) :=
  List.foldl_append

/-- A value that is new stands behind all that come before it. -/
theorem ofList_append_cons {front : List κ} {k : κ} (hk : k ∉ front) (back : List κ) :
    ∃ rest, (ofList (front ++ k :: back)).toList = (ofList front).toList ++ k :: rest := by
  have hnew : k ∉ (ofList front).toList := by simpa using hk
  obtain ⟨rest, hrest⟩ := toList_foldl_insert ((ofList front).insert k) back
  rw [toList_insert_of_not_mem hnew, List.append_assoc, List.singleton_append] at hrest
  exact ⟨rest, by rw [ofList_append, List.foldl_cons, hrest]⟩

end OrderedSet

/-- Whether a value comes before each occurrence of another one in a list. -/
def Precedes {β : Type} (xs : List β) (x y : β) : Prop :=
  ∀ front back, xs = front ++ y :: back → x ∈ front

namespace Precedes

variable {β : Type} [DecidableEq β] {xs : List β} {x y : β}

omit [DecidableEq β] in
/-- In a list without repetition a value comes before another one if its place does. -/
theorem iff_lt (hnodup : xs.Nodup) {i j : ℕ} (hi : xs[i]? = some x) (hj : xs[j]? = some y) :
    Precedes xs x y ↔ i < j := by
  constructor
  · intro h
    obtain ⟨hlt, rfl⟩ := List.getElem?_eq_some_iff.mp hj
    have hbefore := h (xs.take j) (xs.drop (j + 1)) (by simp)
    obtain ⟨k, hk, hki⟩ := List.mem_take_iff_getElem.mp hbefore
    have hsame : i = k := by
      refine (List.getElem?_inj (List.getElem?_eq_some_iff.mp hi).1 hnodup).mp ?_
      rw [hi, ← hki, List.getElem?_eq_getElem]
    omega
  · rintro hlt front back rfl
    have hplace : (front ++ y :: back)[front.length]? = some y := by simp
    have hsame : j = front.length :=
      (List.getElem?_inj (List.getElem?_eq_some_iff.mp hj).1 hnodup).mp (hj.trans hplace.symm)
    rw [List.getElem?_append_left (by omega)] at hi
    exact List.mem_of_getElem? hi

/-- Numbers in ascending order come before greater ones. -/
theorem range {n j k : ℕ} (h : j < k) : Precedes (List.range n) j k := by
  by_cases hk : k < n
  · refine (iff_lt List.nodup_range (i := j) (j := k) ?_ ?_).mpr h
    · simp [h.trans hk]
    · simp [hk]
  · intro front back heq
    have hmem : k ∈ List.range n := by simp [heq]
    exact (hk (List.mem_range.mp hmem)).elim

/-- Values keep their order when repetitions are left out. -/
theorem ofList (h : Precedes xs x y) : Precedes (OrderedSet.ofList xs).toList x y := by
  intro front back heq
  have hy : y ∈ xs := by
    rw [← OrderedSet.mem_ofList, heq]
    simp
  obtain ⟨first, rest, rfl, hnew⟩ := List.eq_append_cons_of_mem hy
  obtain ⟨tail, htail⟩ := OrderedSet.ofList_append_cons hnew rest
  have hnodup := (OrderedSet.ofList (first ++ y :: rest)).nodup
  rw [htail] at heq
  rw [htail] at hnodup
  have hnew' : y ∉ (OrderedSet.ofList first).toList := by simpa using hnew
  have htail' : y ∉ tail := (List.nodup_cons.mp (List.nodup_append.mp hnodup).2.1).1
  have hsame := (List.append_cons_inj_of_notMem hnew' htail').mp heq
  rw [← hsame.1, OrderedSet.mem_ofList]
  exact h first rest rfl

/-- Conversely, the order without repetitions is that of first occurrences. -/
theorem of_ofList (h : Precedes (OrderedSet.ofList xs).toList x y) : Precedes xs x y := by
  have hfirst : ∀ front back, xs = front ++ y :: back → y ∉ front → x ∈ front := by
    rintro front back rfl hnew
    obtain ⟨rest, hrest⟩ := OrderedSet.ofList_append_cons hnew back
    simpa using h _ rest hrest
  rintro front back rfl
  by_cases hy : y ∈ front
  · obtain ⟨first, rest, rfl, hnew⟩ := List.eq_append_cons_of_mem hy
    have hx := hfirst first (rest ++ y :: back) (by simp) hnew
    exact List.mem_append_left _ hx
  · exact hfirst front back rfl hy

end Precedes

/-- Numbers whose order of first occurrence is ascending and that are those below a bound, without
repetition, are the numbers below the bound in order. -/
theorem toList_ofList_eq_range {ns : List ℕ} {n : ℕ} (hmem : ∀ k, k ∈ ns ↔ k < n)
    (hprecedes : ∀ k ∈ ns, ∀ j < k, Precedes ns j k) :
    (OrderedSet.ofList ns).toList = List.range n := by
  have hnodup := (OrderedSet.ofList ns).nodup
  have hsorted : (OrderedSet.ofList ns).toList.Pairwise (· < ·) := by
    rw [List.pairwise_iff_getElem]
    intro i j hi hj hij
    set l := (OrderedSet.ofList ns).toList
    have hmem : l[i] ∈ ns := (OrderedSet.mem_ofList ns _).mp (List.getElem_mem hi)
    rcases lt_trichotomy l[i] l[j] with hlt | heq | hgt
    · exact hlt
    · have hsame := hnodup.getElem_inj_iff.mp heq
      omega
    · -- The later one would have to come before the earlier one.
      have hbefore := (hprecedes _ hmem _ hgt).ofList
      rw [Precedes.iff_lt hnodup (List.getElem?_eq_getElem hj) (List.getElem?_eq_getElem hi)] at hbefore
      omega
  refine hsorted.eq_of_mem_iff List.pairwise_lt_range fun k => ?_
  rw [OrderedSet.mem_ofList, hmem, List.mem_range]

namespace Positions

section Order

variable {β : Type} [DecidableEq β] (next : β → List β) (first : β)

/-- What a search has met when it has taken up the given values, in the order in which it met it. -/
def met (found : List β) : OrderedSet β := .ofList (first :: found.flatMap next)

/-- The order in which a search finds values: each one that it takes up is the next one that was met, and
in the end all that was met has been taken up. -/
structure SearchOrder (values : List β) : Prop where
  taken : ∀ found b, found ++ [b] <+: values → found ++ [b] <+: (met next first found).toList
  complete : (met next first values).toList = values

variable {next first}

/-- Queueing what has not been met yet is adding it to what has been met. -/
theorem queue_eq {found pending : List β} {b : β} {s : OrderedSet β}
    (h : found ++ b :: pending = s.toList) (cs : List β) :
    (found ++ [b]) ++ cs.foldl
      (fun waiting c => if c ∈ found ∨ c = b ∨ c ∈ waiting then waiting else waiting ++ [c]) pending =
      (cs.foldl OrderedSet.insert s).toList := by
  induction cs generalizing pending s with
  | nil => simpa using h
  | cons c cs ih =>
    have hmet : c ∈ s.toList ↔ c ∈ found ∨ c = b ∨ c ∈ pending := by simp [← h]
    rw [List.foldl_cons, List.foldl_cons]
    by_cases hc : c ∈ s.toList
    · rw [if_pos (hmet.mp hc), OrderedSet.insert_of_mem hc]
      exact ih h
    · rw [if_neg (mt hmet.mpr hc)]
      refine ih ?_
      rw [OrderedSet.toList_insert_of_not_mem hc, ← h]
      simp

/-- Taking up one more value meets its successors. -/
theorem met_append (found : List β) (b : β) :
    met next first (found ++ [b]) = (next b).foldl OrderedSet.insert (met next first found) := by
  rw [met, List.flatMap_append, List.flatMap_singleton, ← List.cons_append, OrderedSet.ofList_append, met]

/-- A search finds values in the order in which it meets them. -/
theorem searchOrder_of_reachable {limit : ℕ} {found pending values : List β}
    (hmet : found ++ pending = (met next first found).toList)
    (htaken : ∀ front b, front ++ [b] <+: found → front ++ [b] <+: (met next first front).toList)
    (h : reachable next limit found pending = some values) : SearchOrder next first values := by
  induction limit generalizing found pending with
  | zero =>
    cases pending with
    | nil =>
      cases h
      exact ⟨htaken, by rw [← hmet, List.append_nil]⟩
    | cons => cases h
  | succ limit ih =>
    cases pending with
    | nil =>
      cases h
      exact ⟨htaken, by rw [← hmet, List.append_nil]⟩
    | cons b pending =>
      rw [reachable] at h
      refine ih ?_ ?_ h
      · rw [queue_eq hmet, met_append]
      · intro front c hfront
        rcases List.prefix_concat_iff.mp hfront with heq | hfront
        · obtain ⟨rfl, rfl⟩ := List.append_singleton_inj.mp heq
          rw [← hmet]
          exact ⟨pending, by simp⟩
        · exact htaken front c hfront

/-- A search that follows such an order finds the values in it. -/
theorem reachable_of_searchOrder {values : List β} (h : SearchOrder next first values) {limit : ℕ}
    {found pending : List β} (hfound : found <+: values)
    (hmet : found ++ pending = (met next first found).toList)
    (hlimit : values.length ≤ found.length + limit) :
    reachable next limit found pending = some values := by
  induction limit generalizing found pending with
  | zero =>
    obtain rfl := hfound.eq_of_length_le (by omega)
    have hpending : pending = [] := by
      rw [h.complete] at hmet
      simpa using hmet
    rw [hpending]
    rfl
  | succ limit ih =>
    obtain ⟨rest, hrest⟩ := hfound
    cases rest with
    | nil =>
      rw [List.append_nil] at hrest
      subst hrest
      have hpending : pending = [] := by
        rw [h.complete] at hmet
        simpa using hmet
      rw [hpending]
      rfl
    | cons b rest =>
      have hnext : found ++ [b] <+: values := ⟨rest, by simpa using hrest⟩
      obtain ⟨others, hothers⟩ := h.taken found b hnext
      have hpending : pending = b :: others := by
        rw [← hothers, List.append_assoc] at hmet
        simpa using hmet
      subst hpending
      rw [reachable]
      refine ih hnext ?_ ?_
      · rw [queue_eq hmet, met_append]
      · rw [List.length_append, List.length_singleton]
        omega

/-- A search from one value finds values in a given order exactly if they are met in this order. -/
theorem reachable_eq_some_iff {limit : ℕ} {values : List β} (hlimit : values.length ≤ limit) :
    reachable next limit [] [first] = some values ↔ SearchOrder next first values := by
  constructor
  · intro h
    have hmet : [] ++ [first] = (met next first []).toList := rfl
    exact searchOrder_of_reachable hmet (by simp) h
  · intro h
    exact reachable_of_searchOrder h (List.nil_prefix) rfl (by simpa using hlimit)

/-- The steps of a search, one after the other. -/
def steps (next : β → List β) (values : List β) : List (β × β) :=
  values.flatMap fun b => (next b).map (b, ·)

omit [DecidableEq β] in
/-- The steps of a search lead to the successors. -/
theorem map_snd_steps (values : List β) : (steps next values).map Prod.snd = values.flatMap next := by
  rw [steps, List.map_flatMap]
  simp [Function.comp_def]

namespace SearchOrder

variable {values : List β}

/-- Before a step from a value, or to one that is found later, the value has been met. -/
theorem mem_of_steps (h : SearchOrder next first values) {before after : List (β × β)} {b c x : β}
    (hsplit : steps next values = before ++ (b, c) :: after)
    (hx : x = b ∨ Precedes values x c) : x ∈ first :: before.map Prod.snd := by
  rcases hx with rfl | hx
  · have hmem : (x, c) ∈ steps next values := by simp [hsplit]
    obtain ⟨y, hy, hstep⟩ := List.mem_flatMap.mp hmem
    obtain ⟨z, -, hz⟩ := List.mem_map.mp hstep
    cases hz
    obtain ⟨front, back, rfl, hnew⟩ := List.eq_append_cons_of_mem hy
    -- The steps from values that are taken up earlier come before all steps from this one.
    have hfront : steps next front <+: before := by
      have hsteps : steps next (front ++ x :: back) = steps next front ++ steps next (x :: back) :=
        List.flatMap_append
      rw [hsteps] at hsplit
      rcases List.append_eq_append_iff.mp hsplit with ⟨rest, hrest, -⟩ | ⟨rest, hrest, hcons⟩
      · exact ⟨rest, hrest.symm⟩
      · cases rest with
        | nil => exact ⟨[], by simpa using hrest⟩
        | cons step rest =>
          rw [List.cons_append, List.cons.injEq] at hcons
          have hin : (x, c) ∈ steps next front := by simp [hrest, ← hcons.1]
          obtain ⟨y, hyfront, hstep⟩ := List.mem_flatMap.mp hin
          obtain ⟨z, -, hz⟩ := List.mem_map.mp hstep
          cases hz
          exact (hnew hyfront).elim
    have hmet := (h.taken front x ⟨back, by simp⟩).subset
      (List.mem_append_right front (List.mem_singleton_self x))
    rw [met, OrderedSet.mem_ofList, ← map_snd_steps] at hmet
    rcases List.mem_cons.mp hmet with rfl | hmet
    · exact List.mem_cons_self ..
    · exact List.mem_cons_of_mem _ ((hfront.map Prod.snd).subset hmet)
  · rw [← h.complete] at hx
    refine hx.of_ofList (first :: before.map Prod.snd) (after.map Prod.snd) ?_
    rw [← map_snd_steps, hsplit]
    simp

end SearchOrder

end Order

section Numbers

variable {next : ℕ → List ℕ} {n : ℕ}

/-- What is found among the targets of steps is the target of a first such step. -/
theorem exists_first_step {β : Type} {next : β → List β} {values front back : List β} {c : β}
    (h : values.flatMap next = front ++ c :: back) :
    ∃ before after b, steps next values = before ++ (b, c) :: after ∧ before.map Prod.snd = front := by
  rw [← map_snd_steps, List.map_eq_append_iff] at h
  obtain ⟨before, rest, hsplit, hfront, hrest⟩ := h
  rw [List.map_eq_cons_iff] at hrest
  obtain ⟨⟨b, d⟩, after, rfl, rfl, -⟩ := hrest
  exact ⟨before, after, b, hsplit, hfront⟩

/-- Before a step from a number, or to a greater one, the number has been met. -/
def MeetsInOrder (next : ℕ → List ℕ) (n : ℕ) : Prop :=
  ∀ before after b c, steps next (List.range n) = before ++ (b, c) :: after →
    ∀ x < n, x = b ∨ x < c → x ∈ 0 :: before.map Prod.snd

/-- The first step to a number comes from a smaller one. -/
theorem MeetsInOrder.mem_flatMap (h : MeetsInOrder next n)
    (hmem : ∀ k, k < n ↔ k = 0 ∨ k ∈ (List.range n).flatMap next) {k : ℕ} (hk : k < n) :
    k ∈ 0 :: (List.range k).flatMap next := by
  rcases (hmem k).mp hk with rfl | hstep
  · exact List.mem_cons_self ..
  by_cases hzero : k = 0
  · simp [hzero]
  obtain ⟨front, back, hsplit, hnew⟩ := List.eq_append_cons_of_mem hstep
  obtain ⟨before, after, b, hsteps, rfl⟩ := exists_first_step hsplit
  have hb : (b, k) ∈ steps next (List.range n) := by simp [hsteps]
  obtain ⟨b', hb', hnext⟩ := List.mem_flatMap.mp hb
  obtain ⟨k', hk', heq⟩ := List.mem_map.mp hnext
  cases heq
  rw [List.mem_range] at hb'
  refine List.mem_cons_of_mem _ (List.mem_flatMap.mpr ⟨b, List.mem_range.mpr ?_, hk'⟩)
  have hmet := h before after b k hsteps b hb' (.inl rfl)
  rcases lt_trichotomy b k with hlt | rfl | hgt
  · exact hlt
  · exact (hnew ((List.mem_cons.mp hmet).resolve_left hzero)).elim
  · -- A greater number would be met before this one.
    have hmet := (List.mem_cons.mp hmet).resolve_left (by omega)
    obtain ⟨⟨b', c⟩, hin, rfl⟩ := List.mem_map.mp hmet
    obtain ⟨early, late, rfl⟩ := List.append_of_mem hin
    have hearly := h early (late ++ (c, k) :: after) b' c (by rw [hsteps]; simp) k hk (.inr hgt)
    have hin := (List.mem_cons.mp hearly).resolve_left hzero
    exact (hnew (by simp [hin])).elim

/-- If each number is met before steps from it and to greater numbers, the search finds the numbers in
ascending order. -/
theorem MeetsInOrder.searchOrder (h : MeetsInOrder next n)
    (hmem : ∀ k, k < n ↔ k = 0 ∨ k ∈ (List.range n).flatMap next) :
    SearchOrder next 0 (List.range n) := by
  have hcomplete : (met next 0 (List.range n)).toList = List.range n := by
    refine toList_ofList_eq_range (fun k => by rw [List.mem_cons, ← hmem]) ?_
    intro k hk j hj front back hsplit
    cases front with
    | nil =>
      have hzero : 0 = k := (List.cons.inj hsplit).1
      omega
    | cons first front =>
      rw [List.cons_append, List.cons.injEq] at hsplit
      obtain ⟨rfl, hsplit⟩ := hsplit
      obtain ⟨before, after, b, hsteps, rfl⟩ := exists_first_step hsplit
      rw [List.mem_cons, ← hmem] at hk
      exact h before after b k hsteps j (hj.trans hk) (.inr hj)
  refine ⟨fun found b hfound => ?_, hcomplete⟩
  have hlength := hfound.length_le
  rw [List.length_append, List.length_singleton, List.length_range] at hlength
  have hrange : found ++ [b] = List.range (found.length + 1) := by
    rw [List.prefix_iff_eq_take.mp hfound, List.length_append, List.length_singleton,
      List.take_range, Nat.min_eq_left hlength]
  rw [List.range_succ] at hrange
  obtain ⟨hfound', rfl⟩ := List.append_singleton_inj.mp hrange
  generalize found.length = k at *
  subst hfound'
  have hmet : (met next 0 (List.range k)).toList <+: List.range n := by
    obtain ⟨rest, hrest⟩ : List.range k <+: List.range n :=
      (List.prefix_append _ _).trans hfound
    rw [← hcomplete, ← hrest, met, met, List.flatMap_append, ← List.cons_append,
      OrderedSet.ofList_append]
    exact OrderedSet.toList_foldl_insert ..
  have hin : k ∈ (met next 0 (List.range k)).toList := by
    rw [met, OrderedSet.mem_ofList]
    exact h.mem_flatMap hmem (by omega)
  refine List.prefix_of_prefix_length_le hfound hmet ?_
  obtain ⟨j, hj⟩ : ∃ j, (met next 0 (List.range k)).toList = List.range j :=
    ⟨_, (List.prefix_iff_eq_take.mp hmet).trans List.take_range⟩
  rw [hj, List.mem_range] at hin
  rw [hj, List.length_append, List.length_range, List.length_range, List.length_singleton]
  omega

end Numbers

end Positions

end ShellCompletion
