/-!
# Maps and sets that keep their order of insertion

Every listing in a report or a script follows the order in which entries were first made, so maps and
sets are lists without repeated keys. Replacing a value leaves its entry in place.
-/

namespace ShellCompletion

/-- A map whose entries stand in the order in which their keys were first inserted. -/
structure OrderedMap (κ : Type) (ν : Type) where
  /-- The entries, in order. -/
  entries : List (κ × ν)
  /-- No key has two entries. -/
  nodup : (entries.map Prod.fst).Nodup
deriving DecidableEq

namespace OrderedMap

variable {κ ν μ : Type}

/-- The map without entries. -/
def empty : OrderedMap κ ν := ⟨[], by simp⟩

instance : Inhabited (OrderedMap κ ν) := ⟨empty⟩

/-- The keys, in order. -/
def keys (m : OrderedMap κ ν) : List κ := m.entries.map Prod.fst

/-- The number of entries. -/
def size (m : OrderedMap κ ν) : Nat := m.entries.length

variable [DecidableEq κ]

/-- The value of a key. -/
def get? (m : OrderedMap κ ν) (k : κ) : Option ν := (m.entries.find? (·.1 = k)).map Prod.snd

/-- Whether a key has an entry. -/
def contains (m : OrderedMap κ ν) (k : κ) : Bool := (m.get? k).isSome

/-- Put a value into a list of entries: in place of the value of its key, or as a last entry. -/
def put (k : κ) (v : ν) : List (κ × ν) → List (κ × ν)
  | [] => [(k, v)]
  | e :: es => if e.1 = k then (k, v) :: es else e :: put k v es

/-- A key that is put in comes last unless it is there already. -/
theorem keys_put (k : κ) (v : ν) (es : List (κ × ν)) :
    (put k v es).map Prod.fst =
      if k ∈ es.map Prod.fst then es.map Prod.fst else es.map Prod.fst ++ [k] := by
  induction es with
  | nil => simp [put]
  | cons e es ih =>
    by_cases h : e.1 = k
    · simp [put, h]
    · have h' : ¬ k = e.1 := fun hk => h hk.symm
      by_cases hm : k ∈ es.map Prod.fst
      · simp_all [put]
      · simp_all [put]

/-- No key is put in twice. -/
theorem nodup_put (k : κ) (v : ν) (es : List (κ × ν)) (h : (es.map Prod.fst).Nodup) :
    ((put k v es).map Prod.fst).Nodup := by
  rw [keys_put]
  split
  · exact h
  · next hk =>
    rw [List.nodup_append]
    refine ⟨h, by simp, ?_⟩
    intro a ha b hb
    rw [List.mem_singleton] at hb
    rintro rfl
    exact hk (hb ▸ ha)

/-- Set the value of a key. -/
def insert (m : OrderedMap κ ν) (k : κ) (v : ν) : OrderedMap κ ν :=
  ⟨put k v m.entries, nodup_put k v m.entries m.nodup⟩

/-- A new key is the last one, and the other keys stay in place. -/
theorem keys_insert (m : OrderedMap κ ν) (k : κ) (v : ν) :
    (m.insert k v).keys = if k ∈ m.keys then m.keys else m.keys ++ [k] :=
  keys_put k v m.entries

@[simp] theorem get?_empty (k : κ) : (empty : OrderedMap κ ν).get? k = none := rfl

/-- After an insertion its key has the new value, and the other keys have their old ones. -/
theorem get?_insert (m : OrderedMap κ ν) (k j : κ) (v : ν) :
    (m.insert k v).get? j = if j = k then some v else m.get? j := by
  have general : ∀ es : List (κ × ν), ((put k v es).find? (·.1 = j)).map Prod.snd =
      if j = k then some v else (es.find? (·.1 = j)).map Prod.snd := by
    intro es
    induction es with
    | nil => by_cases h : k = j <;> simp [put, h, eq_comm]
    | cons e es ih =>
      by_cases he : e.1 = k
      · by_cases hj : k = j
        · simp [put, he, hj]
        · have hj' : ¬ j = k := fun h => hj h.symm
          simp [put, he, hj, hj']
      · by_cases hj : e.1 = j
        · have hk : ¬ j = k := fun h => he (hj.trans h)
          simp [put, hj, hk]
        · simpa [put, he, hj] using ih
  exact general m.entries

/-- The entries are the keys with their values. -/
theorem mem_entries_iff (m : OrderedMap κ ν) (k : κ) (v : ν) :
    (k, v) ∈ m.entries ↔ m.get? k = some v := by
  have general : ∀ es : List (κ × ν), (es.map Prod.fst).Nodup →
      ((k, v) ∈ es ↔ (es.find? (·.1 = k)).map Prod.snd = some v) := by
    intro es
    induction es with
    | nil => simp
    | cons e es ih =>
      intro hes
      rw [List.map_cons, List.nodup_cons] at hes
      by_cases he : e.1 = k
      · have hnot : ∀ u, (k, u) ∉ es := fun u hu =>
          hes.1 (List.mem_map.2 ⟨(k, u), hu, he.symm⟩)
        simp [he, hnot, Prod.ext_iff, eq_comm]
      · have hne : (k, v) ≠ e := fun h => he (h ▸ rfl)
        simpa [he, hne] using ih hes.2
  exact general m.entries m.nodup

/-- Set the value of a key that has none. -/
def insertNew (m : OrderedMap κ ν) (k : κ) (v : ν) : OrderedMap κ ν :=
  if m.contains k then m else m.insert k v

/-- The map that arises when entries are inserted one after the other. -/
def ofList (es : List (κ × ν)) : OrderedMap κ ν :=
  es.foldl (fun m e => m.insert e.1 e.2) empty

/-- Change the value of a key, or make one from the value given for a missing key. -/
def alter (m : OrderedMap κ ν) (k : κ) (missing : ν) (f : ν → ν) : OrderedMap κ ν :=
  m.insert k (f ((m.get? k).getD missing))

/-- Whether two maps give the same value to each key, by the given comparison of values. -/
def sameBy (same : ν → ν → Bool) (m n : OrderedMap κ ν) : Bool :=
  m.size == n.size && m.entries.all fun e =>
    match n.get? e.1 with
    | some v => same e.2 v
    | none => false

end OrderedMap

/-- A set whose members stand in the order of their insertion. -/
structure OrderedSet (κ : Type) where
  /-- The members, in order. -/
  toList : List κ
  /-- No member is repeated. -/
  nodup : toList.Nodup
deriving DecidableEq

namespace OrderedSet

variable {κ : Type}

/-- The set without members. -/
def empty : OrderedSet κ := ⟨[], by simp⟩

instance : Inhabited (OrderedSet κ) := ⟨empty⟩

/-- The number of members. -/
def size (s : OrderedSet κ) : Nat := s.toList.length

variable [DecidableEq κ]

/-- Whether a value is a member. -/
def contains (s : OrderedSet κ) (k : κ) : Bool := decide (k ∈ s.toList)

/-- Add a member at the end, unless it is there already. -/
def insert (s : OrderedSet κ) (k : κ) : OrderedSet κ :=
  if h : k ∈ s.toList then s
  else ⟨s.toList ++ [k], by
    rw [List.nodup_append]
    refine ⟨s.nodup, by simp, ?_⟩
    intro a ha b hb
    rw [List.mem_singleton] at hb
    rintro rfl
    exact h (hb ▸ ha)⟩

/-- After an insertion the members are the old ones and the new one. -/
@[simp] theorem mem_insert (s : OrderedSet κ) (k j : κ) :
    j ∈ (s.insert k).toList ↔ j ∈ s.toList ∨ j = k := by
  unfold insert
  split
  · next h =>
    constructor
    · exact Or.inl
    · rintro (hj | rfl)
      · exact hj
      · exact h
  · simp

/-- Remove a member. -/
def erase (s : OrderedSet κ) (k : κ) : OrderedSet κ :=
  ⟨s.toList.erase k, s.nodup.erase k⟩

/-- After a removal the members are the other ones. -/
@[simp] theorem mem_erase (s : OrderedSet κ) (k j : κ) :
    j ∈ (s.erase k).toList ↔ j ≠ k ∧ j ∈ s.toList :=
  s.nodup.mem_erase_iff

/-- The set that arises when members are inserted one after the other. -/
def ofList (ks : List κ) : OrderedSet κ := ks.foldl insert empty

/-- The members of the set of a list are those of the list. -/
@[simp] theorem mem_ofList (ks : List κ) (j : κ) : j ∈ (ofList ks).toList ↔ j ∈ ks := by
  have general : ∀ s : OrderedSet κ, j ∈ (ks.foldl insert s).toList ↔ j ∈ s.toList ∨ j ∈ ks := by
    induction ks with
    | nil => simp
    | cons k ks ih =>
      intro s
      rw [List.foldl_cons, ih, mem_insert, List.mem_cons, or_assoc]
  rw [ofList, general]
  simp [empty]

/-- The place of a member, counted from zero. -/
def indexOf? (s : OrderedSet κ) (k : κ) : Option Nat := s.toList.findIdx? (· = k)

/-- Whether two sets have the same members. -/
def same (s t : OrderedSet κ) : Bool :=
  s.size == t.size && s.toList.all t.contains

end OrderedSet

end ShellCompletion
