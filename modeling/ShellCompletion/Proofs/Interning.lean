import Mathlib.Data.List.Basic
import Mathlib.Data.Nat.Notation
import ShellCompletion.Automaton.Interner
import ShellCompletion.Proofs.Collections

/-!
# Numbering of automata

Of automata that are the same, the hash function tells those apart that differ in the order of rows,
transitions or symbols. So an automaton is found by its hash exactly if it is equal to one that was met
before, the order included. A number that was given once stays valid, and it gives back its automaton.
-/

namespace ShellCompletion

/-- Maps with the same entries in the same order are equal. -/
theorem OrderedMap.ext {κ ν : Type} {m n : OrderedMap κ ν} (h : m.entries = n.entries) : m = n := by
  cases m
  cases n
  cases h
  rfl

/-- Sets with the same members in the same order are equal. -/
theorem OrderedSet.ext {κ : Type} {s t : OrderedSet κ} (h : s.toList = t.toList) : s = t := by
  cases s
  cases t
  cases h
  rfl

/-- A map agrees with itself. -/
theorem OrderedMap.sameBy_self {κ ν : Type} [DecidableEq κ] {same : ν → ν → Bool}
    (hsame : ∀ v, same v v = true) (m : OrderedMap κ ν) : m.sameBy same m = true := by
  rw [OrderedMap.sameBy, Bool.and_eq_true, beq_self_eq_true, List.all_eq_true]
  refine ⟨rfl, fun e he => ?_⟩
  rw [(OrderedMap.mem_entries_iff m e.1 e.2).mp he]
  exact hsame e.2

namespace Automaton

variable {α : Type}

/-! ### What is given determines the order -/

/-- Transitions can be told from what follows them, unless it begins with a symbol. -/
theorem fedEntries_append_inj {es es' : List (α × ℕ)} {rest rest' : List (Fed α)}
    (hrest : ∀ c, rest.head? ≠ some (.symbol c)) (hrest' : ∀ c, rest'.head? ≠ some (.symbol c))
    (h : fedEntries es ++ rest = fedEntries es' ++ rest') : es = es' ∧ rest = rest' := by
  induction es generalizing es' with
  | nil =>
    cases es' with
    | nil => exact ⟨rfl, h⟩
    | cons e' es' =>
      have hhead := congrArg List.head? h
      exact (hrest e'.1 hhead).elim
  | cons e es ih =>
    cases es' with
    | nil =>
      have hhead := congrArg List.head? h
      exact (hrest' e.1 hhead.symm).elim
    | cons e' es' =>
      simp only [fedEntries, List.flatMap_cons, List.cons_append, List.nil_append, List.cons.injEq,
        Fed.symbol.injEq, Fed.number.injEq] at h
      obtain ⟨hsymbol, htarget, htail⟩ := h
      obtain ⟨rfl, hrest⟩ := ih htail
      exact ⟨by rw [Prod.ext hsymbol htarget], hrest⟩

/-- Rows begin with the number of a state. -/
theorem head?_fedRows_ne (rows : List (ℕ × OrderedMap α ℕ)) (c : α) :
    (fedRows rows).head? ≠ some (.symbol c) := by
  cases rows with
  | nil => simp [fedRows]
  | cons r rows => simp [fedRows]

/-- Rows can be told from what the hash function is given of them. -/
theorem fedRows_inj {rows rows' : List (ℕ × OrderedMap α ℕ)} (h : fedRows rows = fedRows rows') :
    rows = rows' := by
  induction rows generalizing rows' with
  | nil =>
    cases rows' with
    | nil => rfl
    | cons r' rows' => simp [fedRows] at h
  | cons r rows ih =>
    cases rows' with
    | nil => simp [fedRows] at h
    | cons r' rows' =>
      rw [fedRows, fedRows, List.flatMap_cons, List.flatMap_cons, List.cons_append, List.cons_append,
        List.cons.injEq, Fed.number.injEq] at h
      obtain ⟨hentries, hrows⟩ :=
        fedEntries_append_inj (head?_fedRows_ne rows) (head?_fedRows_ne rows') h.2
      have hrow : r = r' := Prod.ext h.1 (OrderedMap.ext hentries)
      rw [hrow, ih hrows]

variable [DecidableEq α] {a b : Automaton α}

/-- An automaton is the same as itself. -/
theorem same_self (a : Automaton α) : a.same a = true := by
  have hrows := OrderedMap.sameBy_self (OrderedMap.sameBy_self fun n => beq_self_eq_true n) a.rows
  have hsymbols : a.symbols.same a.symbols = true := by
    simp [OrderedSet.same, OrderedSet.contains]
  rw [same, hrows, hsymbols]
  simp

/-- Automata that are the same give the hash function the same values exactly if they are equal, the
order of rows, transitions and symbols included. -/
theorem fed_eq_iff_of_same (h : a.same b = true) : a.fed = b.fed ↔ a = b := by
  refine ⟨fun hfed => ?_, fun heq => heq ▸ rfl⟩
  simp only [same, OrderedSet.same, Bool.and_eq_true, beq_iff_eq] at h
  obtain ⟨⟨⟨hstart, -⟩, haccepting⟩, hsize, -⟩ := h
  have htail := (List.cons.inj hfed).2
  rw [haccepting] at htail
  obtain ⟨hrows, hrest⟩ := List.append_inj' htail (by simpa [OrderedSet.size] using hsize)
  have hsymbols := List.append_cancel_left hrest
  have hinjective : Function.Injective (Fed.symbol : α → Fed α) := fun _ _ => Fed.symbol.inj
  have hentries := fedRows_inj hrows
  cases a
  cases b
  congr
  · exact OrderedMap.ext hentries
  · exact OrderedSet.ext (hinjective.list_map hsymbols)

/-- An automaton is found by its hash exactly if it is equal to one that was met before. -/
theorem same_and_fed_eq_iff : a.same b = true ∧ a.fed = b.fed ↔ a = b := by
  constructor
  · rintro ⟨hsame, hfed⟩
    exact (fed_eq_iff_of_same hsame).mp hfed
  · rintro rfl
    exact ⟨a.same_self, rfl⟩

end Automaton

namespace Interner

variable {α : Type}

/-- A later stage of numbering: the earlier automata keep their numbers. -/
def Extends (t s : Interner α) : Prop := s.automata.toList <+: t.automata.toList

/-- A numbering extends itself. -/
theorem Extends.refl (s : Interner α) : s.Extends s := List.prefix_refl _

/-- Numberings extend each other one after the other. -/
theorem Extends.trans {s t u : Interner α} (h : u.Extends t) (h' : t.Extends s) : u.Extends s :=
  List.IsPrefix.trans h' h

/-- A number gives back its automaton ever after. -/
theorem Extends.get?_eq_some {s t : Interner α} (h : t.Extends s) {id : ℕ} {a : Automaton α}
    (ha : s.get? id = some a) : t.get? id = some a := by
  obtain ⟨others, hothers⟩ := h
  rw [get?, ← Array.getElem?_toList] at ha ⊢
  rw [← hothers]
  rw [List.getElem?_append_left (List.getElem?_eq_some_iff.mp ha).1]
  exact ha

variable [DecidableEq α]

/-- Looking for an automaton by its hash is looking for an equal one. -/
theorem findIdx?_same_and_fed (s : Interner α) (a : Automaton α) :
    (s.automata.findIdx? fun b => b.same a && decide (b.fed = a.fed)) =
      s.automata.toList.findIdx? (· = a) := by
  have hfound : (fun b : Automaton α => b.same a && decide (b.fed = a.fed)) = fun b => decide (b = a) := by
    funext b
    rw [Bool.eq_iff_iff, Bool.and_eq_true, decide_eq_true_eq, decide_eq_true_eq,
      Automaton.same_and_fed_eq_iff]
  rw [hfound]
  exact List.findIdx?_toArray _ s.automata.toList

/-- An automaton that was met before has a number, and another one gets the next number. -/
theorem intern_cases (s : Interner α) (a : Automaton α) :
    (∃ id, s.automata.toList.findIdx? (· = a) = some id ∧ s.intern a = (s, id)) ∨
      s.automata.toList.findIdx? (· = a) = none ∧
        s.intern a = (⟨s.automata.push a⟩, s.automata.size) := by
  rw [intern, findIdx?_same_and_fed]
  cases s.automata.toList.findIdx? (· = a) with
  | none => exact .inr ⟨rfl, rfl⟩
  | some id => exact .inl ⟨id, rfl, rfl⟩

/-- Numbering one more automaton extends the numbering. -/
theorem intern_extends (s : Interner α) (a : Automaton α) : (s.intern a).1.Extends s := by
  rcases s.intern_cases a with ⟨id, -, hintern⟩ | ⟨-, hintern⟩
  · rw [hintern]
    exact Extends.refl s
  · rw [hintern]
    exact ⟨[a], by simp⟩

/-- A number gives back the automaton that it was given to. -/
theorem get?_intern (s : Interner α) (a : Automaton α) :
    (s.intern a).1.get? (s.intern a).2 = some a := by
  rcases s.intern_cases a with ⟨id, hid, hintern⟩ | ⟨-, hintern⟩
  · obtain ⟨hlt, heq, -⟩ := List.findIdx?_eq_some_iff_getElem.mp hid
    rw [hintern, get?, ← Array.getElem?_toList, List.getElem?_eq_getElem hlt]
    simpa using heq
  · rw [hintern]
    simp [get?]

/-- An automaton that has a number keeps it, and asking for the number again changes nothing. -/
theorem intern_of_extends {s t : Interner α} {a : Automaton α} (h : t.Extends (s.intern a).1) :
    t.intern a = (t, (s.intern a).2) := by
  obtain ⟨rest, hrest⟩ := h
  suffices hfind : t.automata.toList.findIdx? (· = a) = some (s.intern a).2 by
    rw [intern, findIdx?_same_and_fed, hfind]
  rw [← hrest]
  rcases s.intern_cases a with ⟨id, hid, hintern⟩ | ⟨hnone, hintern⟩
  · rw [hintern, List.findIdx?_append, hid, Option.some_or]
  · simp [hintern, List.findIdx?_append, hnone, List.findIdx?_cons]

/-- Numbering adds the automaton to those that were met. -/
theorem mem_intern (s : Interner α) (a b : Automaton α) :
    b ∈ (s.intern a).1.automata ↔ b ∈ s.automata ∨ b = a := by
  rcases s.intern_cases a with ⟨id, hid, hintern⟩ | ⟨-, hintern⟩
  · obtain ⟨hlt, heq, -⟩ := List.findIdx?_eq_some_iff_getElem.mp hid
    have ha : a ∈ s.automata := by
      have hget : s.automata.toList[id] = a := by simpa using heq
      rw [← Array.mem_toList_iff, ← hget]
      exact List.getElem_mem hlt
    rw [hintern]
    exact ⟨Or.inl, fun h => h.elim (fun hmem => hmem) fun heq => heq ▸ ha⟩
  · rw [hintern]
    simp

end Interner

end ShellCompletion
