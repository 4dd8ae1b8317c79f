import ShellCompletion.Proofs.Circles

/-!
# Resolution as substitution

Resolving a grammar is meant to put the definition in the place of each reference to a replaced name, and
to do so again in what was put there until no such reference is left. The definitions are resolved in an
order in which each comes after those it depends on, so for names in sight one replacement is enough. A
definition out of sight is never resolved. If a call mentions it, the references in it are left as they
are.
-/

namespace ShellCompletion

namespace Expr

/-! ### Expansion of references -/

/-- Whether the second expression arises from the first one when described groups are erased and
references to replaced names give way to their definitions, expanded in the same way. Everything else
stays as it is, apart from descriptions and levels, which do not count. -/
inductive Expands (replaced : String → Expr → Prop) : Expr → Expr → Prop
  | literal (text : String) (description description' : Option String) (level level' : ℕ)
    (span : Option Span) :
    Expands replaced (.literal text description level span) (.literal text description' level' span)
  | kept {name : String} (hname : ∀ body, ¬ replaced name body) (level level' : ℕ)
    (span : Option Span) :
    Expands replaced (.reference name level span) (.reference name level' span)
  | unfolded {name : String} {body e : Expr} (hname : replaced name body) (level : ℕ)
    (span : Option Span) (hbody : Expands replaced body e) :
    Expands replaced (.reference name level span) e
  | command (text : String) (patterns : Option ShellTexts) (level level' : ℕ) (span : Option Span) :
    Expands replaced (.command text patterns level span) (.command text patterns level' span)
  | sequence {items items' : List Expr} (hlength : items.length = items'.length)
    (hitems : ∀ e e', (e, e') ∈ items.zip items' → Expands replaced e e') :
    Expands replaced (.sequence items) (.sequence items')
  | alternative {branches branches' : List Expr} (hlength : branches.length = branches'.length)
    (hbranches : ∀ e e', (e, e') ∈ branches.zip branches' → Expands replaced e e') :
    Expands replaced (.alternative branches) (.alternative branches')
  | fallback {branches branches' : List Expr} (hlength : branches.length = branches'.length)
    (hbranches : ∀ e e', (e, e') ∈ branches.zip branches' → Expands replaced e e') :
    Expands replaced (.fallback branches) (.fallback branches')
  | optional {item item' : Expr} (hitem : Expands replaced item item') :
    Expands replaced (.optional item) (.optional item')
  | repeated {item item' : Expr} (hitem : Expands replaced item item') :
    Expands replaced (.repeated item) (.repeated item')
  | described {item e : Expr} (description : String) (hitem : Expands replaced item e) :
    Expands replaced (.described item description) e
  | subword {body body' : Expr} (level level' : ℕ) (span : Option Span)
    (hbody : Expands replaced body body') :
    Expands replaced (.subword body level span) (.subword body' level' span)

variable {replaced : String → Expr → Prop}

/-- Lists of which each item of the one is related to the item at its place in the other. -/
theorem forall₂_of_zip {R : Expr → Expr → Prop} {es es' : List Expr}
    (hlength : es.length = es'.length) (h : ∀ e e', (e, e') ∈ es.zip es' → R e e') :
    List.Forall₂ R es es' :=
  List.forall₂_iff_zip.mpr ⟨hlength, fun {e e'} => h e e'⟩

section

variable {es es' : List Expr} (h : List.Forall₂ (Expands replaced) es es')

include h

/-- A sequence expands item by item. -/
theorem Expands.sequence_of_forall₂ : Expands replaced (.sequence es) (.sequence es') :=
  .sequence h.length_eq fun _ _ => (List.forall₂_iff_zip.mp h).2

theorem Expands.alternative_of_forall₂ : Expands replaced (.alternative es) (.alternative es') :=
  .alternative h.length_eq fun _ _ => (List.forall₂_iff_zip.mp h).2

theorem Expands.fallback_of_forall₂ : Expands replaced (.fallback es) (.fallback es') :=
  .fallback h.length_eq fun _ _ => (List.forall₂_iff_zip.mp h).2

end

/-- An expansion mentions no replaced name. -/
theorem Expands.not_replaced {e e' : Expr} (h : Expands replaced e e') :
    ∀ name ∈ e'.references, ∀ body, ¬ replaced name body := by
  have hall : ∀ {es es' : List Expr}, es.length = es'.length →
      (∀ e e', (e, e') ∈ es.zip es' → ∀ name ∈ e'.references, ∀ body, ¬ replaced name body) →
      ∀ name ∈ referencesAll es', ∀ body, ¬ replaced name body := by
    intro es es' hlength hes name hname
    obtain ⟨e', he', hname⟩ := mem_referencesAll.mp hname
    obtain ⟨e, hpair⟩ : ∃ e, (e, e') ∈ es.zip es' := by
      rw [← List.map_snd_zip hlength.ge] at he'
      simpa using he'
    exact hes e e' hpair name hname
  induction h with
  | literal => simp [references]
  | kept hname => simpa [references] using hname
  | unfolded _ _ _ _ ih => exact ih
  | command => simp [references]
  | sequence hlength _ ih => exact hall hlength ih
  | alternative hlength _ ih => exact hall hlength ih
  | fallback hlength _ ih => exact hall hlength ih
  | optional _ ih => exact ih
  | repeated _ ih => exact ih
  | described _ _ ih => exact ih
  | subword _ _ _ _ ih => exact ih

/-- Levels do not count in an expansion. -/
theorem Expands.assignLevels {e e' : Expr} (h : Expands replaced e e') (level : ℕ) :
    Expands replaced e (e'.assignLevels level) := by
  have hall : ∀ {es es' : List Expr} (level : ℕ),
      List.Forall₂ (fun e e' => ∀ level, Expands replaced e (Expr.assignLevels level e')) es es' →
      List.Forall₂ (Expands replaced) es (assignLevelsAll level es') := by
    intro es es' level hes
    rw [assignLevelsAll_eq_map, List.forall₂_map_right_iff]
    exact hes.imp fun e e' h => h level
  have hranked : ∀ {es es' : List Expr} (rank : ℕ),
      List.Forall₂ (fun e e' => ∀ level, Expands replaced e (Expr.assignLevels level e')) es es' →
      List.Forall₂ (Expands replaced) es (assignLevelsRanked rank es') := by
    intro es es' rank hes
    induction hes generalizing rank with
    | nil => exact .nil
    | cons hfirst _ ih => exact .cons (hfirst rank) (ih (rank + 1))
  induction h generalizing level with
  | literal => exact .literal ..
  | kept hname => exact .kept hname ..
  | unfolded hname own span _ ih => exact .unfolded hname own span (ih level)
  | command => exact .command ..
  | sequence hlength _ ih => exact .sequence_of_forall₂ (hall level (forall₂_of_zip hlength ih))
  | alternative hlength _ ih => exact .alternative_of_forall₂ (hall level (forall₂_of_zip hlength ih))
  | fallback hlength _ ih => exact .fallback_of_forall₂ (hranked 0 (forall₂_of_zip hlength ih))
  | optional _ ih => exact .optional (ih level)
  | repeated _ ih => exact .repeated (ih level)
  | described description _ ih => exact .described description (ih level)
  | subword own _ span _ ih => exact .subword own _ span (ih level)

/-- Assigning levels to branches leaves the names that they mention. -/
theorem referencesAll_assignLevelsRanked {es : List Expr}
    (hes : ∀ e ∈ es, ∀ level, (e.assignLevels level).references = e.references) (rank : ℕ) :
    referencesAll (assignLevelsRanked rank es) = referencesAll es := by
  induction es generalizing rank with
  | nil => rfl
  | cons e es ih =>
    rw [assignLevelsRanked, referencesAll, referencesAll, hes e (by simp) rank,
      ih fun x hx => hes x (by simp [hx])]

/-- Assigning levels keeps the names that occur. -/
theorem references_assignLevels (e : Expr) (level : ℕ) :
    (e.assignLevels level).references = e.references := by
  have hall : ∀ (es : List Expr) (level : ℕ),
      (∀ e ∈ es, ∀ level, (e.assignLevels level).references = e.references) →
      referencesAll (assignLevelsAll level es) = referencesAll es := by
    intro es level hes
    rw [assignLevelsAll_eq_map, referencesAll_eq_flatMap, referencesAll_eq_flatMap, List.flatMap_map]
    exact List.flatMap_congr fun e he => hes e he level
  induction e generalizing level with
  | sequence items ih => exact hall items level ih
  | alternative branches ih => exact hall branches level ih
  | fallback branches ih => exact referencesAll_assignLevelsRanked ih 0
  | optional item ih => exact ih level
  | repeated item ih => exact ih level
  | described item description ih => exact ih level
  | subword body own span ih => exact ih level
  | _ => rfl

/-! ### One replacement -/

/-- Whether what is put in the place of a name is an expansion of its definition, and nothing is put there
exactly if the name is not replaced. -/
def Fits (replaced : String → Expr → Prop) (name : String) : Option Expr → Prop
  | none => ∀ body, ¬ replaced name body
  | some e => ∃ body, replaced name body ∧ Expands replaced body e

/-- Replacing references by expansions of their definitions expands an expression whose descriptions are
distributed. -/
theorem expands_substitute {replacement : String → Option Expr} {e : Expr}
    (h : ∀ name ∈ e.references, Fits replaced name (replacement name)) (handed : Option String) :
    Expands replaced e ((e.distribute handed).1.substitute replacement) := by
  have hall : ∀ (es xs : List Expr),
      List.Forall₂ (fun x e => ∃ handed, x = (distribute handed e).1) xs es →
      (∀ e ∈ es, (∀ name ∈ e.references, Fits replaced name (replacement name)) →
        ∀ handed, Expands replaced e ((e.distribute handed).1.substitute replacement)) →
      (∀ name ∈ referencesAll es, Fits replaced name (replacement name)) →
      List.Forall₂ (Expands replaced) es (substituteAll replacement xs) := by
    intro es xs hmade hes hnames
    induction hmade with
    | nil => exact .nil
    | @cons x e xs es hfirst _ ih =>
      obtain ⟨handed, rfl⟩ := hfirst
      rw [referencesAll] at hnames
      refine .cons (hes e (by simp) (fun name hname => hnames name (by simp [hname])) handed) ?_
      exact ih (fun x hx => hes x (by simp [hx])) fun name hname => hnames name (by simp [hname])
  induction e generalizing handed with
  | literal text description => cases description <;> exact .literal ..
  | reference name level span =>
    have hname := h name (by simp [references])
    rw [distribute, substitute]
    cases hreplacement : replacement name with
    | none =>
      rw [hreplacement] at hname
      exact .kept hname level level span
    | some e =>
      rw [hreplacement] at hname
      obtain ⟨body, hbody, hexpands⟩ := hname
      exact .unfolded hbody level span hexpands
  | command => exact .command ..
  | sequence items ih =>
    exact .sequence_of_forall₂ (hall items _ (forall₂_distributeAlong handed items) ih h)
  | alternative branches ih =>
    refine .alternative_of_forall₂ (hall branches _ ?_ ih h)
    rw [distributeEach_eq_map, List.forall₂_map_left_iff, List.forall₂_same]
    exact fun e _ => ⟨handed, rfl⟩
  | fallback branches ih =>
    exact .fallback_of_forall₂ (hall branches _ (forall₂_distributeAlong handed branches) ih h)
  | optional item ih => exact .optional (ih h handed)
  | repeated item ih => exact .repeated (ih h handed)
  | described item description ih => exact .described description (ih h (some description))
  | subword body level span ih => exact .subword level level span (ih h handed)

/-- An expression without references to replaced names is expanded by distributing its descriptions. -/
theorem expands_distributed {e : Expr} (h : ∀ name ∈ e.references, ∀ body, ¬ replaced name body) :
    Expands replaced e e.distributed := by
  have hexpands : Expands replaced e (e.distributed.substitute fun _ => none) :=
    expands_substitute h none
  rw [substitute_none] at hexpands
  exact hexpands

end Expr

/-! ### Resolved definitions -/

/-- Whether a name depends on others. -/
def Dependencies.depends (graph : Dependencies) (name : String) : Bool :=
  !((graph.get? name).getD []).isEmpty

namespace Definitions

variable {definitions : Definitions} {specializations : Specializations}

/-- Resolving one more name changes its definition only. -/
theorem get?_resolve_append (before : List String) (name other : String) :
    (definitions.resolve specializations (before ++ [name])).get? other =
      if other = name then
        ((definitions.resolve specializations before).get? name).map
          (Expr.substitute ((definitions.resolve specializations before).replacement? specializations))
      else (definitions.resolve specializations before).get? other := by
  rw [resolve, List.foldl_append, List.foldl_cons, List.foldl_nil, ← resolve]
  cases hname : (definitions.resolve specializations before).get? name with
  | none =>
    by_cases h : other = name
    · rw [if_pos h, h]
      exact hname
    · rw [if_neg h]
  | some body => exact OrderedMap.get?_insert ..

/-- A definition that is not resolved stays as it was. -/
theorem get?_resolve_of_not_mem {order : List String} {name : String} (h : name ∉ order) :
    (definitions.resolve specializations order).get? name = definitions.get? name := by
  induction order using List.reverseRecOn with
  | nil => rfl
  | append_singleton before last ih =>
    rw [List.mem_append, List.mem_singleton, not_or] at h
    rw [get?_resolve_append, if_neg h.2, ih h.1]

/-- Resolving definitions keeps the defined names. -/
theorem get?_resolve_eq_none {order : List String} {name : String} :
    (definitions.resolve specializations order).get? name = none ↔ definitions.get? name = none := by
  induction order using List.reverseRecOn generalizing name with
  | nil => rfl
  | append_singleton before last ih =>
    rw [get?_resolve_append]
    split
    · next h => rw [h, Option.map_eq_none_iff, ih]
    · exact ih

/-- Every name that is resolved has a definition, whatever was resolved before it. -/
theorem exists_get?_of_resolutionOrder {order before behind : List String} {name : String}
    (horder : definitions.dependencies.resolutionOrder = .ok order)
    (hsplit : order = before ++ name :: behind) :
    ∃ body, (definitions.resolve specializations before).get? name = some body := by
  rcases Dependencies.resolutionOrder_cases definitions.closed_dependencies with
    ⟨hrejected, -⟩ | ⟨names, found, hfound, hresolves, -⟩
  · rw [horder] at hrejected
    cases hrejected
  · rw [horder] at hfound
    cases hfound
    have hname : name ∈ order := by simp [hsplit]
    rw [hresolves.order_eq] at hname
    obtain ⟨root, hroot, hreach⟩ := (hresolves.mem_iff name).mp (List.mem_of_mem_filter hname)
    have hkey : name ∈ definitions.dependencies.keys := by
      rcases hreach.cases_tail with rfl | ⟨last, -, hedge⟩
      · exact hroot.1
      · exact definitions.closed_dependencies last name hedge
    rw [keys_dependencies, definitions.mem_keys_iff] at hkey
    obtain ⟨written, hwritten⟩ := hkey
    refine Option.ne_none_iff_exists'.mp fun hnone => ?_
    rw [get?_resolve_eq_none, hwritten] at hnone
    cases hnone

/-- A name that a definition mentions is depended on if it is defined. -/
theorem get?_eq_none_or_edge {name other : String} {body : Expr}
    (hbody : definitions.get? name = some body) (hother : other ∈ body.references) :
    definitions.get? other = none ∨ definitions.dependencies.Edge name other := by
  cases hdefined : definitions.get? other with
  | none => exact Or.inl rfl
  | some body' =>
    have hkey := (definitions.mem_keys_iff other).mpr ⟨body', hdefined⟩
    exact Or.inr (definitions.edge_dependencies.mpr ⟨body, hbody, hother, hkey⟩)

/-- Names that depend on no other need not be resolved: one more name in the order changes its definition
only. -/
theorem get?_resolve_filter_append {before : List String} {name : String} (hname : name ∉ before)
    (other : String) :
    (definitions.resolve specializations
        ((before ++ [name]).filter definitions.dependencies.depends)).get? other =
      if other = name then (definitions.get? name).map (Expr.substitute ((definitions.resolve
        specializations (before.filter definitions.dependencies.depends)).replacement? specializations))
      else (definitions.resolve specializations
        (before.filter definitions.dependencies.depends)).get? other := by
  have hnew : name ∉ before.filter definitions.dependencies.depends :=
    fun hmem => hname (List.mem_of_mem_filter hmem)
  rw [List.filter_append, List.filter_singleton]
  cases hdepends : definitions.dependencies.depends name with
  | true => rw [cond_true, get?_resolve_append, get?_resolve_of_not_mem hnew]
  | false =>
    rw [cond_false, List.append_nil]
    split
    · next heq =>
      rw [heq, get?_resolve_of_not_mem hnew]
      cases hbody : definitions.get? name with
      | none => rfl
      | some body =>
        refine congrArg some (Expr.substitute_eq_self fun mentioned hmentioned => ?_).symm
        have hundefined : definitions.get? mentioned = none := by
          refine (get?_eq_none_or_edge hbody hmentioned).resolve_right fun hedge => ?_
          rw [Dependencies.depends, Bool.not_eq_false', List.isEmpty_iff] at hdepends
          rw [Dependencies.Edge, hdepends] at hedge
          simp at hedge
        rw [replacement?, get?_resolve_eq_none.mpr hundefined, ite_self]
    · rfl

/-- Resolved definitions are made of each other: each of them is the definition found in the beginning,
with the resolved definitions put in place. -/
theorem get?_resolve_of_mem {names order : List String}
    (h : definitions.dependencies.Resolves names order) :
    ∀ name ∈ names, (definitions.resolve specializations order).get? name =
      (definitions.get? name).map
        (Expr.substitute ((definitions.resolve specializations order).replacement? specializations)) := by
  suffices hpart : ∀ before behind, names = before ++ behind → ∀ name ∈ before,
      (definitions.resolve specializations
          (before.filter definitions.dependencies.depends)).get? name =
        (definitions.get? name).map (Expr.substitute ((definitions.resolve specializations
          (before.filter definitions.dependencies.depends)).replacement? specializations)) by
    rw [h.order_eq]
    exact hpart names [] (by simp)
  intro before
  induction before using List.reverseRecOn with
  | nil => simp
  | append_singleton before last ih =>
    intro behind hsplit name hname
    rw [List.append_assoc] at hsplit
    have hnew : last ∉ before := by
      have hnodup := h.nodup
      rw [hsplit, List.nodup_append] at hnodup
      exact fun hmem => hnodup.2.2 last hmem last (by simp) rfl
    -- what the definition mentions is not resolved from here on
    have hsame : (definitions.get? name).map (Expr.substitute ((definitions.resolve specializations
          ((before ++ [last]).filter definitions.dependencies.depends)).replacement?
            specializations)) =
        (definitions.get? name).map (Expr.substitute ((definitions.resolve specializations
          (before.filter definitions.dependencies.depends)).replacement? specializations)) := by
      refine Option.map_congr fun body hbody => Expr.substitute_congr fun other hother => ?_
      rw [replacement?, replacement?, get?_resolve_filter_append hnew]
      split
      · rfl
      · split
        · next hlast =>
          rw [hlast] at hother ⊢
          have hundefined := (get?_eq_none_or_edge hbody hother).resolve_right
            (h.ordered.not_edge h.nodup hsplit hname)
          rw [get?_resolve_eq_none.mpr hundefined, hundefined]
          rfl
        · rfl
    rw [hsame, get?_resolve_filter_append hnew]
    split
    · next hlast => rw [hlast]
    · next hlast => exact ih _ hsplit name (by simpa [hlast] using hname)

end Definitions

namespace Grammar

variable (g : Grammar) (specializations : Specializations)

/-- Whether a name is to be replaced by an expression: its plain definition, if it is not specialized. -/
def Replaces (name : String) (body : Expr) : Prop :=
  Statement.definition name none body ∈ g.statements ∧ specializations.contains name = false

/-- Whether a call mentions a replaced name out of sight whose definition mentions a replaced name. -/
def MentionsUnresolved : Prop :=
  ∃ name ∈ g.body.references, ¬ g.InSight name ∧ ∃ body, g.Replaces specializations name body ∧
    ∃ other ∈ body.references, ∃ body', g.Replaces specializations other body'

/-- Whether what the definitions have in the place of a name is an expansion of its definition. -/
def Settled (definitions : Definitions) (name : String) : Prop :=
  Expr.Fits (g.Replaces specializations) name (definitions.replacement? specializations name)

variable {g specializations}

section

variable {definitions : Definitions} (hdefinitions : g.definitions = .ok definitions)

include hdefinitions

/-- No definition is found exactly for names that are not defined. -/
theorem get?_eq_none_iff {name : String} : definitions.get? name = none ↔ ¬ g.Defines name := by
  rw [← mem_keys_iff_defines hdefinitions, OrderedMap.mem_keys_iff, not_exists]
  exact Option.eq_none_iff_forall_ne_some

/-- A name is settled if the definition found for it expands the one written. Only names that are defined
and not specialized have to be looked at. -/
theorem settled_of_expands {order : List String} {name : String}
    (h : ∀ written, g.Replaces specializations name written →
      ∃ body, (definitions.resolve specializations order).get? name = some body ∧
        Expr.Expands (g.Replaces specializations) written body) :
    g.Settled specializations (definitions.resolve specializations order) name := by
  rw [Settled, Definitions.replacement?]
  split
  · next hspecialized =>
    intro body hbody
    rw [hbody.2] at hspecialized
    cases hspecialized
  · next hplain =>
    by_cases hdefines : g.Defines name
    · obtain ⟨written, hwritten⟩ := hdefines
      have hreplaces : g.Replaces specializations name written :=
        ⟨hwritten, Bool.eq_false_of_not_eq_true hplain⟩
      obtain ⟨body, hbody, hexpands⟩ := h written hreplaces
      rw [hbody]
      exact ⟨written, hreplaces, hexpands⟩
    · have hnone := (get?_eq_none_iff hdefinitions).mpr hdefines
      rw [Definitions.get?_resolve_eq_none.mpr hnone]
      exact fun body hbody => hdefines ⟨body, hbody.1⟩

/-- A name whose definition mentions no replaced name is settled as long as it is not resolved. -/
theorem settled_of_not_mem {order : List String} {name : String} (hname : name ∉ order)
    (h : ∀ body, g.Replaces specializations name body →
      ∀ other ∈ body.references, ∀ body', ¬ g.Replaces specializations other body') :
    g.Settled specializations (definitions.resolve specializations order) name := by
  refine settled_of_expands hdefinitions fun written hwritten => ⟨written.distributed, ?_, ?_⟩
  · rw [Definitions.get?_resolve_of_not_mem hname, get?_definitions hdefinitions]
    exact ⟨written, hwritten.1, rfl⟩
  · exact Expr.expands_distributed (h written hwritten)

/-- The names are settled one after the other in an order of resolution. -/
theorem settled_of_mem {names order : List String}
    (h : definitions.dependencies.Resolves names order) :
    ∀ name ∈ names, g.Settled specializations (definitions.resolve specializations order) name := by
  refine h.ordered.induction fun name hname hbefore => ?_
  refine settled_of_expands hdefinitions fun written hwritten => ?_
  have hdistributed : definitions.get? name = some written.distributed :=
    (get?_definitions hdefinitions).mpr ⟨written, hwritten.1, rfl⟩
  rw [Definitions.get?_resolve_of_mem h name hname, hdistributed]
  refine ⟨_, rfl, Expr.expands_substitute (fun other hother => ?_) none⟩
  by_cases hdefines : g.Defines other
  · have hdepends : g.DependsOn name other := ⟨written, hwritten.1, hother⟩
    exact hbefore other ((edge_iff_dependsOn hdefinitions name other).mpr ⟨hdepends, hdefines⟩)
  · exact settled_of_expands hdefinitions fun body hbody => (hdefines ⟨body, hbody.1⟩).elim

/-- A name is settled at the end unless it is out of sight and its definition mentions a replaced
name. -/
theorem settled_of_resolves {names order : List String}
    (h : definitions.dependencies.Resolves names order) {name : String}
    (hname : g.InSight name ∨ ∀ body, g.Replaces specializations name body →
      ∀ other ∈ body.references, ∀ body', ¬ g.Replaces specializations other body') :
    g.Settled specializations (definitions.resolve specializations order) name := by
  by_cases hmem : name ∈ names
  · exact settled_of_mem hdefinitions h name hmem
  · have horder : name ∉ order := by
      rw [h.order_eq]
      exact fun hin => hmem (List.mem_of_mem_filter hin)
    refine settled_of_not_mem hdefinitions horder fun body hbody => ?_
    rcases hname with hsight | hplain
    · rw [h.mem_iff, inSight_iff hdefinitions ⟨body, hbody.1⟩] at hmem
      exact (hmem hsight).elim
    · exact hplain body hbody

/-- A definition out of sight is not resolved. -/
theorem get?_resolve_of_not_inSight {names order : List String}
    (h : definitions.dependencies.Resolves names order) {name : String} {body : Expr}
    (hbody : Statement.definition name none body ∈ g.statements) (hname : ¬ g.InSight name)
    (specializations : Specializations) :
    (definitions.resolve specializations order).get? name = some body.distributed := by
  have horder : name ∉ order := by
    rw [h.order_eq]
    intro hmem
    have hsight := (h.mem_iff name).mp (List.mem_of_mem_filter hmem)
    exact hname ((inSight_iff hdefinitions ⟨body, hbody⟩).mp hsight)
  rw [Definitions.get?_resolve_of_not_mem horder, get?_definitions hdefinitions]
  exact ⟨body, hbody, rfl⟩

end

/-- The definitions of a resolved grammar and the order in which they are resolved. -/
theorem exists_resolves {final : Definitions} (h : g.unfolding = .ok final)
    (hspecializations : g.specializations = .ok specializations) :
    ∃ definitions names order, g.definitions = .ok definitions ∧
      definitions.dependencies.Resolves names order ∧
      final = definitions.resolve specializations order := by
  obtain ⟨command, definitions, specializations', order, -, hdefinitions, hspecializations', horder,
    rfl⟩ := unfolding_eq_ok.mp h
  cases hspecializations'.symm.trans hspecializations
  rcases Dependencies.resolutionOrder_cases definitions.closed_dependencies with
    ⟨hcycle, -⟩ | ⟨names, order', horder', hresolves, -⟩
  · rw [horder] at hcycle
    cases hcycle
  · cases horder.symm.trans horder'
    exact ⟨definitions, names, order, hdefinitions, hresolves, rfl⟩

/-- If a call mentions a name out of sight whose definition is not resolved, a replaced name is left. -/
theorem MentionsUnresolved.exists_replaced {resolved : ResolvedGrammar}
    (h : g.MentionsUnresolved resolved.specializations) (hresolve : g.resolve = .ok resolved) :
    ∃ other ∈ resolved.body.references, ∃ body, g.Replaces resolved.specializations other body := by
  obtain ⟨final, hfinal, hspecializations, hbody⟩ := resolve_eq_ok hresolve
  obtain ⟨definitions, names, order, hdefinitions, hresolves, rfl⟩ :=
    exists_resolves hfinal hspecializations
  obtain ⟨name, hname, hhidden, body, hreplaces, other, hother, hreplaced⟩ := h
  refine ⟨other, ?_, hreplaced⟩
  have hleft := get?_resolve_of_not_inSight hdefinitions hresolves hreplaces.1 hhidden
    resolved.specializations
  rw [hbody, Expr.references_assignLevels, Expr.references_substitute, List.mem_flatMap]
  refine ⟨name, by rwa [Expr.references_distributed], ?_⟩
  rw [Expr.leftBy, Definitions.replacement?, if_neg (by simp [hreplaces.2]), hleft]
  rwa [← Expr.references_distributed] at hother

/-- Resolving a grammar expands what may follow the command, unless a call mentions a name out of sight
whose definition is not resolved. -/
theorem expands_resolve_iff {resolved : ResolvedGrammar} (h : g.resolve = .ok resolved) :
    Expr.Expands (g.Replaces resolved.specializations) g.body resolved.body ↔
      ¬ g.MentionsUnresolved resolved.specializations := by
  constructor
  · intro hexpands hunresolved
    obtain ⟨other, hother, body, hreplaces⟩ := hunresolved.exists_replaced h
    exact hexpands.not_replaced other hother body hreplaces
  · intro hnone
    obtain ⟨final, hfinal, hspecializations, hbody⟩ := resolve_eq_ok h
    obtain ⟨definitions, names, order, hdefinitions, hresolves, rfl⟩ :=
      exists_resolves hfinal hspecializations
    rw [hbody]
    refine (Expr.expands_substitute (fun name hname => ?_) none).assignLevels 0
    apply settled_of_resolves hdefinitions hresolves
    by_cases hsight : g.InSight name
    · exact Or.inl hsight
    · refine Or.inr fun body hreplaces other hother body' hreplaces' => ?_
      exact hnone ⟨name, hname, hsight, body, hreplaces, other, hother, body', hreplaces'⟩

/-- The expression of which a valid grammar is compiled arises from the calls by expansion exactly if no
call mentions a replaced name out of sight with a replaced name in its definition. This is so for every
grammar without circles. -/
theorem compiled_expands_iff {shell : Shell} {valid : ValidGrammar}
    (h : g.validate shell = .ok valid) :
    ∃ resolved, g.resolve = .ok resolved ∧
      resolved.body.flattenSubwords.toPattern (Positions.checkSubwordFor shell)
        valid.specializations {} = .ok (valid.subwords, valid.pattern) ∧
      g.specializations = .ok valid.specializations ∧
      (Expr.Expands (g.Replaces valid.specializations) g.body resolved.body ↔
        ¬ g.MentionsUnresolved valid.specializations) ∧
      (g.Acyclic → Expr.Expands (g.Replaces valid.specializations) g.body resolved.body) := by
  obtain ⟨resolved, hresolved, h⟩ := Result.bind_eq_ok.mp h
  obtain ⟨⟨subwords, pattern⟩, hpattern, h⟩ := Result.bind_eq_ok.mp h
  cases h
  obtain ⟨final, hfinal, hspecializations, -⟩ := resolve_eq_ok hresolved
  obtain ⟨-, definitions, -, -, -, hdefinitions, -⟩ := unfolding_eq_ok.mp hfinal
  have hiff := expands_resolve_iff hresolved
  refine ⟨resolved, hresolved, hpattern, hspecializations, hiff, fun hacyclic => hiff.mpr ?_⟩
  rintro ⟨name, -, hhidden, body, hreplaces, -⟩
  exact hhidden (hacyclic.inSight hdefinitions ⟨body, hreplaces.1⟩)

/-- The grammar of `cmd (a | <A>) "d"; cmd [<P>]; <A> ::= b || <B> <C>; <B> ::= <C>...; <C> ::= c;
<P@bash> ::= {{{ p }}};`, in one line. -/
def layered : Grammar := ⟨[
  .call "cmd" (.described (.alternative [.literal "a" none 0 (some ⟨0, 5, 6⟩),
    .reference "A" 0 (some ⟨0, 9, 12⟩)]) "d"),
  .call "cmd" (.optional (.reference "P" 0 (some ⟨0, 24, 27⟩))),
  .definition "A" none (.fallback [.literal "b" none 0 (some ⟨0, 38, 39⟩),
    .sequence [.reference "B" 0 (some ⟨0, 43, 46⟩), .reference "C" 0 (some ⟨0, 47, 50⟩)]]),
  .definition "B" none (.repeated (.reference "C" 0 (some ⟨0, 60, 63⟩))),
  .definition "C" none (.literal "c" none 0 (some ⟨0, 76, 77⟩)),
  .definition "P" (some "bash") (.command "p" none 0 (some ⟨0, 92, 101⟩))]⟩

/-- What may follow its command when all references are resolved. -/
def layeredBody : Expr := .alternative [
  .alternative [.literal "a" (some "d") 0 (some ⟨0, 5, 6⟩),
    .fallback [.literal "b" none 0 (some ⟨0, 38, 39⟩),
      .sequence [.repeated (.literal "c" none 1 (some ⟨0, 76, 77⟩)),
        .literal "c" none 1 (some ⟨0, 76, 77⟩)]]],
  .optional (.reference "P" 0 (some ⟨0, 24, 27⟩))]

theorem acyclic_layered : layered.Acyclic := by
  refine acyclic_of_rank (fun name => if name = "A" then 2 else if name = "B" then 1 else 0) ?_
  rintro name other ⟨body, hbody, hother⟩
  simp only [layered, List.mem_cons, reduceCtorEq, Statement.definition.injEq, true_and,
    List.not_mem_nil, or_false, false_or, false_and, and_false] at hbody
  rcases hbody with ⟨rfl, rfl⟩ | ⟨rfl, rfl⟩ | ⟨rfl, rfl⟩
  · simp only [Expr.references, Expr.referencesAll, List.mem_append, List.mem_singleton,
      List.not_mem_nil, false_or, or_false] at hother
    rcases hother with rfl | rfl <;> decide
  · simp only [Expr.references, List.mem_singleton] at hother
    rw [hother]
    decide
  · simp [Expr.references] at hother

/-- It is resolved as its definitions say. -/
theorem compiled_expands_layered :
    Grammar.parse ("cmd (a | <A>) \"d\"; cmd [<P>]; <A> ::= b || <B> <C>; <B> ::= <C>...; " ++
      "<C> ::= c; <P@bash> ::= \x7b\x7b\x7b p \x7d\x7d\x7d;") = .ok layered ∧
      ∃ valid, layered.validate .bash = .ok valid ∧
        Expr.Expands (layered.Replaces valid.specializations) layered.body layeredBody := by
  have hcommand : layered.command = .ok "cmd" := by
    have hnames : sortedNames ["cmd", "cmd"] = ["cmd"] := List.mergeSort_singleton "cmd"
    rw [command, show layered.calls.map Prod.fst = ["cmd", "cmd"] from rfl, hnames]
  obtain ⟨valid, hvalid⟩ : ∃ valid, layered.validate .bash = .ok valid := by
    rw [validate, resolve, hcommand]
    exact ⟨_, rfl⟩
  refine ⟨by decide +kernel, valid, hvalid, ?_⟩
  obtain ⟨resolved, hresolved, -, -, -, hexpands⟩ := compiled_expands_iff hvalid
  have hbody : resolved.body = layeredBody := by
    rw [resolve, hcommand] at hresolved
    cases hresolved
    rfl
  rw [← hbody]
  exact hexpands acyclic_layered

/-- The grammar of `cmd <C>; <A> ::= <A> <C>; <C> ::= <D>; <D> ::= x; <R> ::= y;`. -/
def behindCircle : Grammar := ⟨[
  .call "cmd" (.reference "C" 0 (some ⟨0, 4, 7⟩)),
  .definition "A" none (.sequence [.reference "A" 0 (some ⟨0, 17, 20⟩),
    .reference "C" 0 (some ⟨0, 21, 24⟩)]),
  .definition "C" none (.reference "D" 0 (some ⟨0, 34, 37⟩)),
  .definition "D" none (.literal "x" none 0 (some ⟨0, 47, 48⟩)),
  .definition "R" none (.literal "y" none 0 (some ⟨0, 58, 59⟩))]⟩

/-- A definition that can only be reached through a circle is put in place unresolved. -/
theorem compiled_expands_behindCircle :
    Grammar.parse "cmd <C>; <A> ::= <A> <C>; <C> ::= <D>; <D> ::= x; <R> ::= y;" =
        .ok behindCircle ∧
      ∃ valid resolved, behindCircle.validate .bash = .ok valid ∧
        behindCircle.resolve = .ok resolved ∧
        resolved.body = .reference "D" 0 (some ⟨0, 34, 37⟩) ∧
        ¬ Expr.Expands (behindCircle.Replaces valid.specializations) behindCircle.body
          resolved.body := by
  have hcommand : behindCircle.command = .ok "cmd" := command_of_calls rfl
  obtain ⟨valid, hvalid, hplain⟩ : ∃ valid, behindCircle.validate .bash = .ok valid ∧
      valid.specializations.contains "D" = false := by
    rw [validate, resolve, hcommand]
    exact ⟨_, rfl, by decide +kernel⟩
  obtain ⟨resolved, hresolved, hbody⟩ : ∃ resolved, behindCircle.resolve = .ok resolved ∧
      resolved.body = .reference "D" 0 (some ⟨0, 34, 37⟩) := by
    rw [resolve, hcommand]
    exact ⟨_, rfl, rfl⟩
  refine ⟨by decide +kernel, valid, resolved, hvalid, hresolved, hbody, fun hexpands => ?_⟩
  have hdefined : Statement.definition "D" none (.literal "x" none 0 (some ⟨0, 47, 48⟩)) ∈
      behindCircle.statements := by decide
  rw [hbody] at hexpands
  exact hexpands.not_replaced "D" (by decide) _ ⟨hdefined, hplain⟩

end Grammar

end ShellCompletion
