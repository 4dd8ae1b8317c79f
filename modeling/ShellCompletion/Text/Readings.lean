/-!
# Readings of a text

A reading takes some item from the start of a text and leaves the rest. Where an item may end at
several places there are several readings, and they are listed with the preferred one first. A row of
items is read by trying the later items on what each reading of the earlier ones leaves, so the first
reading of the row is the one whose earlier items are preferred.
-/

namespace ShellCompletion.Text

/-- The readings of an item at the start of a text, each with the text it leaves. -/
def Readings (α : Type) := List Char → List (α × List Char)

namespace Readings

variable {α β : Type}

/-- Read nothing. -/
def done (item : α) : Readings α := fun cs => [(item, cs)]

/-- Read one item and then another that may depend on it. -/
def andThen (first : Readings α) (second : α → Readings β) : Readings β := fun cs =>
  (first cs).flatMap fun (item, rest) => second item rest

instance : Monad Readings where
  pure := done
  bind := andThen

/-- Read the given characters. -/
def exactly (text : String) : Readings Unit := fun cs =>
  if text.toList.isPrefixOf cs then [((), cs.drop text.length)] else []

/-- Read a character of a class. -/
def one (holds : Char → Bool) : Readings Char
  | [] => []
  | c :: cs => if holds c then [(c, cs)] else []

/-- Read any number of characters of a class, preferably many. -/
def run (holds : Char → Bool) : Readings (List Char)
  | [] => [([], [])]
  | c :: cs =>
    if holds c then (run holds cs).map (fun (taken, rest) => (c :: taken, rest)) ++ [([], c :: cs)]
    else [([], c :: cs)]

/-- A reading of a run divides the text in two, of which the first part is in the class. -/
theorem mem_run {holds : Char → Bool} {cs taken rest : List Char}
    (h : (taken, rest) ∈ run holds cs) : taken ++ rest = cs ∧ ∀ c ∈ taken, holds c = true := by
  induction cs generalizing taken with
  | nil => simp_all [run]
  | cons c cs ih =>
    by_cases hc : holds c = true
    · simp only [run, hc, if_true, List.mem_append, List.mem_map, List.mem_singleton,
        Prod.mk.injEq] at h
      rcases h with ⟨⟨inner, left⟩, hin, rfl, rfl⟩ | ⟨rfl, rfl⟩
      · have hi := ih hin
        refine ⟨by rw [List.cons_append, hi.1], ?_⟩
        intro d hd
        rcases List.mem_cons.1 hd with rfl | hd
        · exact hc
        · exact hi.2 d hd
      · simp
    · simp_all [run]

/-- Read at least one character of a class, preferably many. -/
def someRun (holds : Char → Bool) : Readings (List Char) := do
  let first ← one holds
  let others ← run holds
  return first :: others

/-- Read all that is left, which is not nothing. -/
def remainder : Readings (List Char)
  | [] => []
  | c :: cs => [(c :: cs, [])]

/-- The preferred reading of an item that leaves nothing of a text. -/
def whole? (item : Readings α) (cs : List Char) : Option α :=
  ((item cs).find? (·.2.isEmpty)).map Prod.fst

end Readings

end ShellCompletion.Text
