import NestedViews.Proofs.Document
import NestedViews.Proofs.Scope
import NestedViews.Proofs.Success

/-! What a document means: nested loops over the rows that a function answers queries with, in which
every parameter is looked up by name. -/

namespace NestedViews

mutual

/-- The nodes of a group under enclosing rows, by the rows of its query. -/
inductive Evaluates (c : Catalog) (answer : String → List Value → Except Error (List Row)) :
    Scope → Group → List Node → Prop
  | nodes {scope g t parameters rows nodes} : g.definition.template = some t →
      List.Forall₂ (fun b v => Binding.value? b scope = some v) t.bindings parameters →
      answer t.query parameters = .ok rows → EvaluatesRows c answer scope g rows nodes →
      Evaluates c answer scope g nodes

inductive EvaluatesRows (c : Catalog) (answer : String → List Value → Except Error (List Row)) :
    Scope → Group → List Row → List Node → Prop
  | nil {scope g} : EvaluatesRows c answer scope g [] []
  | cons {scope g row rows collections nodes} : row.length = g.arity →
      EvaluatesNested c answer (⟨g, row⟩ :: scope)
        (c.groups.filter fun child => child.parent = some g.name) collections →
      EvaluatesRows c answer scope g rows nodes →
      EvaluatesRows c answer scope g (row :: rows) (.ofRow g row collections :: nodes)

inductive EvaluatesNested (c : Catalog) (answer : String → List Value → Except Error (List Row)) :
    Scope → List Group → List Collection → Prop
  | nil {scope} : EvaluatesNested c answer scope [] []
  | cons {scope g groups nodes collections} : Evaluates c answer scope g nodes →
      EvaluatesNested c answer scope groups collections →
      EvaluatesNested c answer scope (g :: groups) (.mk g nodes :: collections)

end

variable {c : Catalog} {answer : String → List Value → Except Error (List Row)} {scope : Scope}
variable {g : Group} {groups : List Group} {row : Row} {rows : List Row} {nodes : List Node}
variable {collections : List Collection}

theorem evaluatesNested_nil : EvaluatesNested c answer scope [] collections ↔ collections = [] := by
  constructor
  · rintro ⟨⟩
    rfl
  · rintro rfl
    exact .nil

theorem evaluatesNested_cons : EvaluatesNested c answer scope (g :: groups) collections ↔
    ∃ nodes rest, Evaluates c answer scope g nodes ∧ EvaluatesNested c answer scope groups rest ∧
      collections = .mk g nodes :: rest := by
  constructor
  · rintro (_ | ⟨hnodes, hrest⟩)
    exact ⟨_, _, hnodes, hrest, rfl⟩
  · rintro ⟨nodes, rest, hnodes, hrest, rfl⟩
    exact .cons hnodes hrest

theorem evaluatesRows_iff : EvaluatesRows c answer scope g rows nodes ↔
    List.Forall₂ (fun row node => row.length = g.arity ∧ ∃ collections,
      EvaluatesNested c answer (⟨g, row⟩ :: scope)
        (c.groups.filter fun child => child.parent = some g.name) collections ∧
      node = .ofRow g row collections) rows nodes := by
  induction rows generalizing nodes with
  | nil =>
    rw [List.forall₂_nil_left_iff]
    constructor
    · rintro ⟨⟩
      rfl
    · rintro rfl
      exact .nil
  | cons row rows ih =>
    rw [List.forall₂_cons_left_iff]
    constructor
    · rintro (_ | ⟨hrow, hnested, hrows⟩)
      exact ⟨_, _, ⟨hrow, _, hnested, rfl⟩, ih.mp hrows, rfl⟩
    · rintro ⟨_, nodes, ⟨hrow, collections, hnested, rfl⟩, hrows, rfl⟩
      exact .cons hrow hnested (ih.mpr hrows)

theorem fits_of_evaluatesRows (h : EvaluatesRows c answer scope g rows nodes) :
    ∀ row ∈ rows, row.length = g.arity := by
  intro row hrow
  obtain ⟨_, hlength, _⟩ := exists_of_forall₂ (evaluatesRows_iff.mp h) hrow
  exact hlength

theorem evaluates_iff {t : QueryTemplate} {parameters : List Value}
    (ht : g.definition.template = some t)
    (hparameters : List.Forall₂ (fun b v => Binding.value? b scope = some v) t.bindings parameters)
    (hrows : answer t.query parameters = .ok rows) :
    Evaluates c answer scope g nodes ↔ EvaluatesRows c answer scope g rows nodes := by
  constructor
  · rintro ⟨ht', hparameters', hrows', h⟩
    cases ht.symm.trans ht'
    have hunique : Relator.RightUnique fun (b : Binding) v => b.value? scope = some v :=
      fun b v v' hv hv' => Option.some.inj (hv.symm.trans hv')
    cases List.right_unique_forall₂' hunique hparameters hparameters'
    cases hrows.symm.trans hrows'
    exact h
  · exact .nodes ht hparameters hrows

theorem Plan.evaluates_iff {p : Plan} {parameters : List Value} {rows : List Row}
    {nodes : List Node} (hc : c.Coherent) (hg : g ∈ c.groups) (h : c.Around g scope)
    (hp : g.plan = some p) (hparameters : p.parameters scope = .ok parameters)
    (hrows : answer p.query parameters = .ok rows) :
    Evaluates c answer scope g nodes ↔ EvaluatesRows c answer scope g rows nodes := by
  obtain ⟨t, ht, hquery, _⟩ := exists_reads hc hg hp
  rw [hquery] at hrows
  exact NestedViews.evaluates_iff ht ((parameters_eq_ok hc hg h hp ht).mp hparameters) hrows

namespace Evaluates

theorem exists_plan (h : Evaluates c answer scope g nodes) (hc : c.Coherent) (hg : g ∈ c.groups) :
    ∃ p, g.plan = some p := by
  obtain ⟨ht, _, _, _⟩ := h
  have hvirtual := hc.isVirtual_definition hg
  rw [GroupDefinition.isVirtual, ht, Option.isSome_some] at hvirtual
  exact Option.isSome_iff_exists.mp hvirtual.symm

theorem exists_rows {p : Plan} (h : Evaluates c answer scope g nodes) (hc : c.Coherent)
    (hg : g ∈ c.groups) (haround : c.Around g scope) (hp : g.plan = some p) :
    ∃ parameters rows, p.parameters scope = .ok parameters ∧
      answer p.query parameters = .ok rows := by
  obtain ⟨ht, hparameters, hrows, _⟩ := h
  obtain ⟨_, ht', hquery, _⟩ := Plan.exists_reads hc hg hp
  cases ht.symm.trans ht'
  exact ⟨_, _, (Plan.parameters_eq_ok hc hg haround hp ht).mpr hparameters, hquery ▸ hrows⟩

end Evaluates

theorem countNodes_of_evaluatesRows (h : EvaluatesRows c answer scope g rows nodes) :
    Node.countNodes nodes = rows.length + (nodes.map Node.countBelow).sum := by
  induction rows generalizing nodes with
  | nil =>
    cases h
    rfl
  | cons row rows ih =>
    obtain _ | ⟨_, _, hrows⟩ := h
    simp only [Node.countNodes_cons, Node.count_ofRow, ih hrows, List.length_cons, List.map_cons,
      List.sum_cons, Node.countBelow_ofRow]
    omega

end NestedViews
