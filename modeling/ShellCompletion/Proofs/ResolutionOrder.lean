import Mathlib.Data.List.Chain
import Mathlib.Logic.Relation
import ShellCompletion.Grammar.Dependency
import ShellCompletion.Proofs.Collections
import ShellCompletion.Proofs.Results

/-!
# The order of resolution

The search for an order visits what lies in sight: the names that can be reached from a name on which
none depends. It rejects the graph exactly if a circle lies in sight, or if there is no name to start
from. Otherwise it lists the names in sight, each once and after all those it depends on. A circle out
of sight goes unnoticed, and so does all that can only be reached through it.
-/

namespace ShellCompletion.Dependencies

open Relation (ReflTransGen TransGen)

variable (graph : Dependencies)

/-- Whether the first name depends directly on the second one. -/
def Edge (name other : String) : Prop := other ∈ (graph.get? name).getD []

/-- Whether all names that are depended on are names of the graph. -/
def Closed : Prop := ∀ name other, graph.Edge name other → other ∈ graph.keys

/-- Whether a name of the graph is one on which no name depends. -/
def Root (name : String) : Prop := name ∈ graph.keys ∧ ∀ other, ¬ graph.Edge other name

/-- Whether a name can be reached from one on which no name depends. -/
def InSight (name : String) : Prop := ∃ root, graph.Root root ∧ ReflTransGen graph.Edge root name

/-- Whether there are names and each of them is depended on, or a circle can be reached from one that
is not. -/
def CircleInSight : Prop :=
  ((∃ name, name ∈ graph.keys) ∧ ∀ name, ¬ graph.Root name) ∨
    ∃ name, graph.InSight name ∧ TransGen graph.Edge name name

/-- Whether each name of a list comes after all names on which it depends. -/
def Ordered (names : List String) : Prop :=
  ∀ before name behind, names = before ++ name :: behind →
    ∀ other, graph.Edge name other → other ∈ before

/-- What holds while the search is going on: the names met are those finished and those whose visit is
going on, each of them once, and the finished ones are in order. -/
structure Sound (ongoing : List String) (progress : Progress) : Prop where
  visited_iff : ∀ name, name ∈ progress.visited ↔ name ∈ progress.finished ∨ name ∈ ongoing
  nodup : (progress.finished ++ ongoing).Nodup
  ordered : graph.Ordered progress.finished

variable {graph}

/-! ### Ordered lists -/

/-- A name may follow all those it depends on. -/
theorem Ordered.append_singleton {names : List String} {name : String} (h : graph.Ordered names)
    (hname : ∀ other, graph.Edge name other → other ∈ names) : graph.Ordered (names ++ [name]) := by
  intro before found behind hsplit other hedge
  rcases List.eq_nil_or_concat behind with rfl | ⟨init, final, rfl⟩
  · obtain ⟨rfl, hfound⟩ := List.append_inj' hsplit rfl
    cases hfound
    exact hname other hedge
  · have hsplit' : names ++ [name] = (before ++ found :: init) ++ [final] := by
      rw [hsplit, List.concat_eq_append, List.append_assoc, List.cons_append]
    have hnames := (List.append_inj' hsplit' rfl).1
    exact h before found init hnames other hedge

/-- All that a name of an ordered list depends on, in one or more steps, comes before it. -/
theorem Ordered.mem_before {names before behind : List String} {name other : String}
    (h : graph.Ordered names) (hsplit : names = before ++ name :: behind)
    (hother : TransGen graph.Edge name other) : other ∈ before := by
  induction hother with
  | single hedge => exact h before name behind hsplit _ hedge
  | @tail middle last _ hedge ih =>
    obtain ⟨front, rest, rfl⟩ := List.append_of_mem ih
    have hsplit' : names = front ++ middle :: (rest ++ name :: behind) := by
      rw [hsplit, List.append_assoc, List.cons_append]
    have hlast := h front middle _ hsplit' last hedge
    exact List.mem_append_left _ hlast

/-- No name of an ordered list without repetition depends on itself. -/
theorem Ordered.not_circle {names : List String} {name : String} (h : graph.Ordered names)
    (hnodup : names.Nodup) (hname : name ∈ names) : ¬ TransGen graph.Edge name name := by
  intro hcircle
  obtain ⟨before, behind, hsplit⟩ := List.append_of_mem hname
  have hbefore := h.mem_before hsplit hcircle
  rw [hsplit, List.nodup_append] at hnodup
  exact hnodup.2.2 name hbefore name (by simp) rfl

/-- A name of an ordered list without repetition does not depend on one that stands at its place or behind
it. -/
theorem Ordered.not_edge {names before behind : List String} {name last : String}
    (h : graph.Ordered names) (hnodup : names.Nodup) (hsplit : names = before ++ last :: behind)
    (hname : name ∈ before ++ [last]) : ¬ graph.Edge name last := by
  intro hedge
  have hlast : last ∈ before := by
    rcases List.mem_append.mp hname with hname | hname
    · obtain ⟨front, rest, rfl⟩ := List.append_of_mem hname
      rw [List.append_assoc, List.cons_append] at hsplit
      exact List.mem_append_left _ (h front name _ hsplit last hedge)
    · rw [List.mem_singleton.mp hname] at hedge
      exact h before last behind hsplit last hedge
  rw [hsplit, List.nodup_append] at hnodup
  exact hnodup.2.2 last hlast last (by simp) rfl

/-- What holds of a name whenever it holds of all those it depends on holds of an ordered list of names. -/
theorem Ordered.induction {P : String → Prop} {names : List String} (h : graph.Ordered names)
    (hP : ∀ name ∈ names, (∀ other, graph.Edge name other → P other) → P name) :
    ∀ name ∈ names, P name := by
  suffices hpart : ∀ before behind, names = before ++ behind → ∀ name ∈ before, P name from
    hpart names [] (by simp)
  intro before
  induction before using List.reverseRecOn with
  | nil => simp
  | append_singleton before last ih =>
    intro behind hsplit name hname
    rw [List.append_assoc] at hsplit
    have hbefore := ih _ hsplit
    rcases List.mem_append.mp hname with hname | hname
    · exact hbefore name hname
    · rw [List.mem_singleton.mp hname]
      refine hP last (by simp [hsplit]) fun other hedge => hbefore other ?_
      exact h before last behind hsplit other hedge

/-! ### Steps of the search -/

/-- The visit of a name that was not met before begins. -/
theorem Sound.start {ongoing : List String} {progress : Progress} {name : String}
    (h : graph.Sound ongoing progress) (hname : name ∉ progress.visited) :
    graph.Sound (ongoing ++ [name]) { progress with visited := progress.visited ++ [name] } where
  visited_iff := by
    intro other
    simp only [List.mem_append, h.visited_iff, or_assoc]
  nodup := by
    have hnew : name ∉ progress.finished ++ ongoing := by
      rw [List.mem_append, ← h.visited_iff]
      exact hname
    rw [← List.append_assoc]
    exact h.nodup.append (List.nodup_singleton name) (by simpa using hnew)
  ordered := h.ordered

/-- The visit of a name ends when all that it depends on is finished. -/
theorem Sound.finish {ongoing : List String} {progress : Progress} {name : String}
    (h : graph.Sound (ongoing ++ [name]) progress)
    (hname : ∀ other, graph.Edge name other → other ∈ progress.finished) :
    graph.Sound ongoing { progress with finished := progress.finished ++ [name] } where
  visited_iff := by
    intro other
    simp only [h.visited_iff, List.mem_append]
    tauto
  nodup := by
    have hperm : (progress.finished ++ [name] ++ ongoing).Perm
        (progress.finished ++ (ongoing ++ [name])) := by
      rw [List.append_assoc]
      exact List.Perm.append_left _ List.perm_append_comm
    exact hperm.nodup_iff.mpr h.nodup
  ordered := h.ordered.append_singleton hname

/-- What the visit of a name has come to when it is through with the given dependencies. -/
structure Through (graph : Dependencies) (ongoing : List String) (name : String)
    (dependencies : List String) (start current : Progress) : Prop where
  sound : graph.Sound ongoing current
  finished : ∀ other ∈ dependencies, other ∈ current.finished
  kept : ∀ other ∈ start.finished, other ∈ current.finished
  reached : ∀ other ∈ current.finished,
    other ∈ start.finished ∨ ReflTransGen graph.Edge name other

/-- A dependency that is finished already is left alone. -/
theorem Through.skip {ongoing done : List String} {name dependency : String}
    {start current : Progress} (h : graph.Through ongoing name done start current)
    (hfinished : dependency ∈ current.finished) :
    graph.Through ongoing name (done ++ [dependency]) start current where
  sound := h.sound
  finished := by
    intro other hother
    rcases List.mem_append.mp hother with hother | hother
    · exact h.finished other hother
    · rw [List.mem_singleton.mp hother]
      exact hfinished
  kept := h.kept
  reached := h.reached

/-- A dependency is finished after it is visited. -/
theorem Through.finish {ongoing done : List String} {name dependency : String}
    {start current final : Progress} (h : graph.Through ongoing name done start current)
    (hedge : graph.Edge name dependency)
    (hvisit : graph.Through (ongoing ++ [dependency]) dependency
      ((graph.get? dependency).getD []) current final) :
    graph.Through ongoing name (done ++ [dependency]) start
      { final with finished := final.finished ++ [dependency] } where
  sound := hvisit.sound.finish hvisit.finished
  finished := by
    intro other hother
    rw [List.mem_append] at hother ⊢
    rcases hother with hother | hother
    · exact Or.inl (hvisit.kept other (h.finished other hother))
    · exact Or.inr hother
  kept := by
    intro other hother
    exact List.mem_append_left _ (hvisit.kept other (h.kept other hother))
  reached := by
    intro other hother
    rcases List.mem_append.mp hother with hother | hother
    · rcases hvisit.reached other hother with hother | hreach
      · exact h.reached other hother
      · exact Or.inr (hreach.head hedge)
    · rw [List.mem_singleton.mp hother]
      exact Or.inr (.single hedge)

/-- A path that leads back to one of its members closes a circle. -/
theorem exists_circle {root name other : String} {path : List String}
    (hchain : (root :: path).IsChain graph.Edge) (hlast : (root :: path).getLast? = some name)
    (hedge : graph.Edge name other) (hother : other ∈ path) :
    ReflTransGen graph.Edge root other ∧ TransGen graph.Edge other other := by
  obtain ⟨before, behind, rfl⟩ := List.append_of_mem hother
  rw [← List.cons_append] at hchain hlast
  have hback : (other :: behind).IsChain graph.Edge := hchain.right_of_append
  have hfront : (root :: (before ++ [other])).IsChain graph.Edge := by
    have hsplit : root :: before ++ other :: behind = (root :: (before ++ [other])) ++ behind := by
      simp
    rw [hsplit] at hchain
    exact hchain.left_of_append
  have hname : (other :: behind).getLast (by simp) = name := by
    rw [List.getLast?_append_of_ne_nil _ (by simp), List.getLast?_eq_getLast_of_ne_nil (by simp)]
      at hlast
    exact Option.some.inj hlast
  constructor
  · have hreach := List.relationReflTransGen_of_exists_isChain_cons (before ++ [other]) hfront rfl
    simpa using hreach
  · have hreach := List.relationReflTransGen_of_exists_isChain_cons behind hback rfl
    rw [hname] at hreach
    exact TransGen.tail' hreach hedge

/-- A path goes on with a dependency of its last name. -/
theorem isChain_extend {root name dependency : String} {path : List String}
    (hchain : (root :: path).IsChain graph.Edge) (hlast : (root :: path).getLast? = some name)
    (hedge : graph.Edge name dependency) :
    (root :: (path ++ [dependency])).IsChain graph.Edge ∧
      (root :: (path ++ [dependency])).getLast? = some dependency := by
  rw [← List.cons_append]
  constructor
  · rw [List.isChain_append]
    refine ⟨hchain, List.isChain_singleton _, ?_⟩
    intro last hlast' first hfirst
    rw [hlast, Option.mem_some_iff] at hlast'
    rw [List.head?_cons, Option.mem_some_iff] at hfirst
    rw [← hlast', ← hfirst]
    exact hedge
  · rw [List.getLast?_append_of_ne_nil _ (by simp)]
    rfl

/-- A path without repetition is no longer than there are names. -/
theorem length_path_lt (hclosed : graph.Closed) {root : String} (hroot : graph.Root root)
    {path : List String} (hchain : (root :: path).IsChain graph.Edge) (hnodup : (root :: path).Nodup) :
    path.length < graph.size := by
  have hkeys : ∀ other ∈ root :: path, other ∈ graph.keys := by
    intro other hother
    rcases List.mem_cons.mp hother with rfl | hother
    · exact hroot.1
    · obtain ⟨before, behind, rfl⟩ := List.append_of_mem hother
      rw [← List.cons_append] at hchain
      have hedge := (List.isChain_append.mp hchain).2.2
      obtain ⟨last, hlast⟩ : ∃ last, (root :: before).getLast? = some last :=
        ⟨_, List.getLast?_eq_getLast_of_ne_nil (by simp)⟩
      exact hclosed last other (hedge last hlast other rfl)
  have hle := (List.subperm_of_subset hnodup hkeys).length_le
  rw [OrderedMap.keys, List.length_map] at hle
  exact hle

/-- The visit of a name finishes all that it depends on, or it finds a circle that can be reached from
the root. It never runs out of fuel: more of it makes no difference. -/
theorem visit_cases (hclosed : graph.Closed) {root : String} (hroot : graph.Root root) {fuel : ℕ}
    {name : String} {path : List String} {progress : Progress}
    (hchain : (root :: path).IsChain graph.Edge) (hlast : (root :: path).getLast? = some name)
    (hsound : graph.Sound (root :: path) { progress with visited := progress.visited ++ [name] })
    (hfuel : graph.size < fuel + path.length) :
    graph.visit (fuel + 1) name path progress = graph.visit fuel name path progress ∧
    ((∃ final, graph.visit fuel name path progress = .ok final ∧
      graph.Through (root :: path) name ((graph.get? name).getD []) progress final) ∨
    ∃ e, graph.visit fuel name path progress = .error e ∧ e = .rejected .definitionCycle ∧
      ∃ other, ReflTransGen graph.Edge root other ∧ TransGen graph.Edge other other) := by
  induction fuel generalizing name path progress with
  | zero =>
    have hlength := length_path_lt hclosed hroot hchain (List.nodup_append.mp hsound.nodup).2.1
    omega
  | succ fuel ih =>
    rw [visit, visit]
    apply Result.foldlM_congr_cases (P := fun done current =>
      graph.Through (root :: path) name done progress current)
    · exact ⟨hsound, by simp, fun other h => h, fun other h => Or.inl h⟩
    · intro done dependency rest current hsplit hcurrent
      have hedge : graph.Edge name dependency := by
        rw [Edge, hsplit]
        simp
      split
      · next hpath =>
        obtain ⟨hreach, hcircle⟩ := exists_circle hchain hlast hedge hpath
        exact ⟨rfl, Or.inr ⟨_, rfl, rfl, dependency, hreach, hcircle⟩⟩
      · next hpath =>
        split
        · next hvisited =>
          -- the root itself is not on the path, but nothing depends on it
          have hongoing : dependency ∉ root :: path := by
            rw [List.mem_cons, not_or]
            refine ⟨?_, hpath⟩
            rintro rfl
            exact hroot.2 name hedge
          have hfinished := (hcurrent.sound.visited_iff dependency).mp hvisited
          exact ⟨rfl, Or.inl ⟨current, rfl, hcurrent.skip (hfinished.resolve_right hongoing)⟩⟩
        · next hvisited =>
          obtain ⟨hchain', hlast'⟩ := isChain_extend hchain hlast hedge
          have hfuel' : graph.size < fuel + (path ++ [dependency]).length := by
            rw [List.length_append, List.length_singleton]
            omega
          obtain ⟨hmore, ⟨final, hfinal, hthrough⟩ | ⟨e, he, hcycle⟩⟩ :=
            ih hchain' hlast' (hcurrent.sound.start hvisited) hfuel'
          · rw [hmore, hfinal]
            exact ⟨rfl, Or.inl ⟨_, rfl, hcurrent.finish hedge hthrough⟩⟩
          · rw [hmore, he]
            exact ⟨rfl, Or.inr ⟨e, rfl, hcycle⟩⟩

/-! ### The whole search -/

/-- The edges of a graph are those of its entries. -/
theorem edge_iff (name other : String) :
    graph.Edge name other ↔ ∃ entry ∈ graph.entries, entry.1 = name ∧ other ∈ entry.2 := by
  rw [Edge]
  constructor
  · intro h
    cases hget : graph.get? name with
    | none => simp [hget] at h
    | some names =>
      rw [hget, Option.getD_some] at h
      exact ⟨(name, names), (graph.mem_entries_iff name names).mpr hget, rfl, h⟩
  · rintro ⟨⟨_, names⟩, hentry, rfl, h⟩
    rw [(graph.mem_entries_iff _ names).mp hentry]
    exact h

/-- The search starts from the names on which none depends. -/
theorem exists_roots (hclosed : graph.Closed) : ∃ roots, graph.roots = .ok roots ∧ roots.Nodup ∧
    ∀ name, name ∈ roots ↔ graph.Root name := by
  have hdepended : ∀ name, name ∈ (graph.entries.map Prod.snd).flatten ↔
      ∃ other, graph.Edge other name := by
    intro name
    simp only [edge_iff, List.mem_flatten, List.mem_map]
    constructor
    · rintro ⟨names, ⟨entry, hentry, rfl⟩, hname⟩
      exact ⟨entry.1, entry, hentry, rfl, hname⟩
    · rintro ⟨other, entry, hentry, -, hname⟩
      exact ⟨entry.2, ⟨entry, hentry, rfl⟩, hname⟩
  refine ⟨graph.keys.filter (· ∉ (graph.entries.map Prod.snd).flatten), ?_, ?_, ?_⟩
  · rw [roots, if_pos]
    rw [List.all_eq_true]
    intro name hname
    obtain ⟨other, hother⟩ := (hdepended name).mp hname
    exact (graph.contains_iff name).mpr (hclosed other name hother)
  · exact List.Nodup.filter _ graph.nodup
  · intro name
    rw [List.mem_filter, decide_eq_true_eq, hdepended, not_exists]
    exact Iff.rfl

/-- What holds between the visits of two roots: all that is finished can be reached from the roots that
were visited, and these are finished. -/
structure Surveyed (graph : Dependencies) (roots : List String) (progress : Progress) : Prop where
  sound : graph.Sound [] progress
  finished : ∀ root ∈ roots, root ∈ progress.finished
  reached : ∀ name ∈ progress.finished, ∃ root ∈ roots, ReflTransGen graph.Edge root name

/-- A root that was not visited yet was not met either. -/
theorem Surveyed.root_not_visited {roots : List String} {progress : Progress}
    (h : graph.Surveyed roots progress) {root : String} (hroot : graph.Root root)
    (hnew : root ∉ roots) : root ∉ progress.visited := by
  rw [h.sound.visited_iff]
  rintro (hfinished | hongoing)
  · obtain ⟨other, hother, hreach⟩ := h.reached root hfinished
    rcases hreach.cases_tail with rfl | ⟨last, -, hedge⟩
    · exact hnew hother
    · exact hroot.2 last hedge
  · simp at hongoing

/-- The visit of a root surveys what it leads to. -/
theorem Surveyed.finish {roots : List String} {root : String} {progress final : Progress}
    (h : graph.Surveyed roots progress)
    (hvisit : graph.Through [root] root ((graph.get? root).getD []) progress final) :
    graph.Surveyed (roots ++ [root]) { final with finished := final.finished ++ [root] } where
  sound := by
    have hsound : graph.Sound ([] ++ [root]) final := hvisit.sound
    exact hsound.finish hvisit.finished
  finished := by
    intro other hother
    rw [List.mem_append] at hother ⊢
    rcases hother with hother | hother
    · exact Or.inl (hvisit.kept other (h.finished other hother))
    · exact Or.inr hother
  reached := by
    intro name hname
    simp only [List.mem_append, List.mem_singleton] at hname ⊢
    rcases hname with hname | rfl
    · rcases hvisit.reached name hname with hname | hreach
      · obtain ⟨other, hother, hreach⟩ := h.reached name hname
        exact ⟨other, Or.inl hother, hreach⟩
      · exact ⟨root, Or.inr rfl, hreach⟩
    · exact ⟨name, Or.inr rfl, .refl⟩

/-- The search visits all roots, or it finds a circle in sight. -/
theorem survey_cases (hclosed : graph.Closed) {roots : List String} (hnodup : roots.Nodup)
    (hroots : ∀ root ∈ roots, graph.Root root) : ∃ outcome,
    roots.foldlM (fun progress root => do
      let progress ← visit graph (graph.size + 1) root [] progress
      return { progress with finished := progress.finished ++ [root] }) ({} : Progress) = outcome ∧
    ((∃ progress, outcome = .ok progress ∧ graph.Surveyed roots progress) ∨
      ∃ e, outcome = .error e ∧ e = .rejected .definitionCycle ∧
        ∃ name, graph.InSight name ∧ TransGen graph.Edge name name) := by
  refine ⟨_, rfl, ?_⟩
  apply Result.foldlM_cases (P := fun done progress => graph.Surveyed done progress)
  · refine ⟨⟨by simp, by simp, ?_⟩, by simp, by simp⟩
    intro before name behind hsplit
    simp at hsplit
  · intro done root rest progress hsplit hdone
    have hroot := hroots root (by simp [hsplit])
    have hnew : root ∉ done := by
      rw [hsplit, List.nodup_append] at hnodup
      intro hdone'
      exact hnodup.2.2 root hdone' root (by simp) rfl
    have hstart := hdone.sound.start (hdone.root_not_visited hroot hnew)
    have hlast : [root].getLast? = some root := rfl
    have hfuel : graph.size < graph.size + 1 + ([] : List String).length := by simp
    rcases (visit_cases hclosed hroot (List.isChain_singleton root) hlast hstart hfuel).2 with
      ⟨final, hfinal, hthrough⟩ | ⟨e, he, hcycle, other, hreach, hcircle⟩
    · rw [hfinal]
      exact Or.inl ⟨_, rfl, hdone.finish hthrough⟩
    · rw [he]
      exact Or.inr ⟨e, rfl, hcycle, other, ⟨root, hroot, hreach⟩, hcircle⟩

/-- Of what was surveyed from all roots, the finished names are those in sight. -/
theorem Surveyed.mem_finished_iff {roots : List String} {progress : Progress}
    (h : graph.Surveyed roots progress) (hroots : ∀ name, name ∈ roots ↔ graph.Root name)
    (name : String) : name ∈ progress.finished ↔ graph.InSight name := by
  constructor
  · intro hname
    obtain ⟨root, hroot, hreach⟩ := h.reached name hname
    exact ⟨root, (hroots root).mp hroot, hreach⟩
  · rintro ⟨root, hroot, hreach⟩
    induction hreach with
    | refl => exact h.finished root ((hroots root).mpr hroot)
    | tail _ hedge ih =>
      obtain ⟨before, behind, hsplit⟩ := List.append_of_mem ih
      have hbefore := h.sound.ordered before _ behind hsplit _ hedge
      rw [hsplit]
      exact List.mem_append_left _ hbefore

/-- What is known of an order of resolution: it is made from a list of the names in sight, each of which
stands in it once and after those it depends on, by leaving out the names without dependencies. -/
structure Resolves (graph : Dependencies) (names order : List String) : Prop where
  order_eq : order = names.filter fun name => !((graph.get? name).getD []).isEmpty
  nodup : names.Nodup
  ordered : graph.Ordered names
  mem_iff : ∀ name, name ∈ names ↔ graph.InSight name

/-- A graph is rejected exactly if a circle is in sight. Otherwise an order is found. -/
theorem resolutionOrder_cases (hclosed : graph.Closed) :
    (graph.resolutionOrder = reject .definitionCycle ∧ graph.CircleInSight) ∨
    ∃ names order, graph.resolutionOrder = .ok order ∧ graph.Resolves names order ∧
      ¬ graph.CircleInSight := by
  obtain ⟨roots, hroots, hnodup, hmem⟩ := exists_roots hclosed
  rw [resolutionOrder]
  split
  · next hempty =>
    have hkeys : ∀ name, name ∉ graph.keys := by
      rw [List.isEmpty_iff] at hempty
      simp [OrderedMap.keys, hempty]
    have hsight : ∀ name, ¬ graph.InSight name := by
      rintro name ⟨root, hroot, -⟩
      exact hkeys root hroot.1
    refine Or.inr ⟨[], [], rfl, ⟨rfl, List.nodup_nil, ?_, by simpa using hsight⟩, ?_⟩
    · intro before name behind hsplit
      simp at hsplit
    · rintro (⟨⟨name, hname⟩, -⟩ | ⟨name, hname, -⟩)
      · exact hkeys name hname
      · exact hsight name hname
  · next hentries =>
    rw [hroots, Result.ok_bind]
    split
    · next hnone =>
      rw [List.isEmpty_iff] at hnone
      refine Or.inl ⟨rfl, Or.inl ⟨?_, fun name hname => ?_⟩⟩
      · obtain ⟨entry, hentry⟩ := List.isEmpty_eq_false_iff_exists_mem.mp
          (Bool.eq_false_of_not_eq_true hentries)
        exact ⟨entry.1, List.mem_map_of_mem hentry⟩
      · simpa [hnone] using (hmem name).mpr hname
    · next hsome =>
      obtain ⟨outcome, houtcome, hcases⟩ := survey_cases hclosed hnodup fun root => (hmem root).mp
      rw [houtcome]
      rcases hcases with ⟨progress, rfl, hsurvey⟩ | ⟨e, rfl, rfl, hcircle⟩
      · have hfinished := hsurvey.mem_finished_iff hmem
        have hdistinct : progress.finished.Nodup := by simpa using hsurvey.sound.nodup
        refine Or.inr ⟨progress.finished, _, rfl, ⟨rfl, hdistinct, hsurvey.sound.ordered, hfinished⟩,
          ?_⟩
        rintro (⟨-, hnone⟩ | ⟨name, hname, hcircle⟩)
        · obtain ⟨root, hroot⟩ := List.isEmpty_eq_false_iff_exists_mem.mp
            (Bool.eq_false_of_not_eq_true hsome)
          exact hnone root ((hmem root).mp hroot)
        · exact hsurvey.sound.ordered.not_circle hdistinct ((hfinished name).mpr hname) hcircle
      · exact Or.inl ⟨rfl, Or.inr hcircle⟩

end ShellCompletion.Dependencies
