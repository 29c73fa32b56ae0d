import NestedViews.Proofs.Assembly.Rearrangement
import NestedViews.Proofs.Catalog.Extension
import NestedViews.Proofs.Document.Pruning

namespace NestedViews

open Node

variable {c c' : Catalog} {answer : String → List Value → Except Error (List Row)}
variable {scope : Scope} {g : Group} {groups added : List Group} {rows : List Row}
variable {nodes : List Node} {collections : List Collection} {names : List String}

theorem EvaluatesNested.without
    (h : ∀ g ∈ groups, g.name ∉ names → ∀ nodes, Evaluates c' answer scope g nodes →
      Evaluates c answer scope g (withoutNodes names nodes))
    (hnested : EvaluatesNested c' answer scope groups collections) :
    EvaluatesNested c answer scope (groups.filter fun g => g.name ∉ names)
      (withoutCollections names collections) := by
  induction groups generalizing collections with
  | nil =>
    obtain rfl := evaluatesNested_nil.mp hnested
    exact .nil
  | cons g groups ih =>
    obtain ⟨nodes, rest, hnodes, hrest, rfl⟩ := evaluatesNested_cons.mp hnested
    obtain ⟨hg, hgroups⟩ := List.forall_mem_cons.mp h
    by_cases hname : g.name ∈ names
    · rw [List.filter_cons_of_neg (by simpa), withoutCollections_cons_of_mem hname]
      exact ih hgroups hrest
    · rw [List.filter_cons_of_pos (by simpa), withoutCollections_cons_of_not_mem hname]
      exact .cons (hg hname nodes hnodes) (ih hgroups hrest)

theorem EvaluatesRows.without
    (h : ∀ row collections, EvaluatesNested c' answer (⟨g, row⟩ :: scope)
        (c'.groups.filter fun child => child.parent = some g.name) collections →
      EvaluatesNested c answer (⟨g, row⟩ :: scope)
        (c.groups.filter fun child => child.parent = some g.name)
        (withoutCollections names collections))
    (hrows : EvaluatesRows c' answer scope g rows nodes) :
    EvaluatesRows c answer scope g rows (withoutNodes names nodes) := by
  induction rows generalizing nodes with
  | nil =>
    cases hrows
    exact .nil
  | cons row rows ih =>
    obtain _ | ⟨hrow, hcollections, hrest⟩ := hrows
    exact .cons hrow (h row _ hcollections) (ih hrest)

namespace Catalog.Extends

theorem not_mem_names (h : c.Extends c' added) (hc' : c'.Coherent) (hg : g ∈ c.groups) :
    g.name ∉ added.map Group.name := by
  have hnodup := hc'.names_nodup
  rw [names, h.groups, List.map_append, List.nodup_append] at hnodup
  exact fun hmem => hnodup.2.2 _ (List.mem_map_of_mem hg) _ hmem rfl

theorem filter_nested (h : c.Extends c' added) (hc' : c'.Coherent) (name : String) :
    ((c'.groups.filter fun child => child.parent = some name).filter fun child =>
      child.name ∉ added.map Group.name) =
        c.groups.filter fun child => child.parent = some name := by
  have hold : ∀ child ∈ c.groups.filter fun child => child.parent = some name,
      decide (child.name ∉ added.map Group.name) = true := by
    intro child hchild
    exact decide_eq_true (h.not_mem_names hc' (List.mem_filter.mp hchild).1)
  have hnew : ∀ child ∈ added.filter fun child => child.parent = some name,
      ¬ decide (child.name ∉ added.map Group.name) = true := by
    intro child hchild
    rw [decide_eq_true_eq, not_not]
    exact List.mem_map_of_mem (List.mem_filter.mp hchild).1
  rw [h.groups, List.filter_append, List.filter_append, List.filter_eq_self.mpr hold,
    List.filter_eq_nil_iff.mpr hnew, List.append_nil]

theorem evaluates_without (h : c.Extends c' added) (hc : c.Coherent) (hc' : c'.Coherent)
    (hg : g ∈ c.groups) (hnodes : Evaluates c' answer scope g nodes) :
    Evaluates c answer scope g (withoutNodes (added.map Group.name) nodes) := by
  revert scope nodes
  apply hc.induction _ hg
  intro g _ ih scope nodes hnodes
  obtain ⟨ht, hparameters, hanswer, hrows⟩ := hnodes
  refine .nodes ht hparameters hanswer (hrows.without fun row collections hnested => ?_)
  rw [← h.filter_nested hc']
  apply hnested.without
  intro child hchild hname nodes hnodes
  have hmem : child ∈ c.children g.name := by
    rw [hc.children_eq, ← h.filter_nested hc']
    exact List.mem_filter.mpr ⟨hchild, by simpa using hname⟩
  exact ih child hmem hnodes

end Catalog.Extends

namespace Assembler

variable {σ : Type} {a : Assembler σ} {inv : σ → Prop} {world : σ} {doc : Node}
variable {definitions later : List GroupDefinition}

theorem Yields.without (h : a.catalog.Extends c' added) (hc : a.catalog.Coherent)
    (hc' : c'.Coherent) (hg : g ∈ a.catalog.groups)
    (hdoc : (a.withCatalog c').Yields answer g scope doc) :
    a.Yields answer g scope (doc.without (added.map Group.name)) := by
  obtain ⟨nodes, hnodes, hwithin, rfl⟩ := hdoc
  have hle : countNodes (withoutNodes (added.map Group.name) nodes) ≤ countNodes nodes :=
    countNodes_without_le nodes
  exact ⟨_, h.evaluates_without hc hc' hg hnodes, hwithin.imp id hle.trans,
    without_root (h.not_mem_names hc' hg)⟩

theorem assemble_without (h : a.catalog.Extends c' added) (hc : a.catalog.Coherent)
    (hc' : c'.Coherent) (hsteady : a.context.Steady answer inv) (hworld : inv world)
    (hg : g ∈ a.catalog.groups) (hdoc : ((a.withCatalog c').assemble g.name world).1 = .ok doc) :
    (a.assemble g.name world).1 = .ok (doc.without (added.map Group.name)) := by
  obtain ⟨hfound, hfound'⟩ := h.group? g hg
  obtain ⟨_, hname, hparent, hyields⟩ :=
    (assemble_eq_ok (a := a.withCatalog c') hc' hsteady hworld).mp hdoc
  obtain rfl := Option.some.inj (hfound'.symm.trans hname)
  exact (assemble_eq_ok hc hsteady hworld).mpr ⟨g, hfound, hparent, hyields.without h hc hc' hg⟩

theorem assembleWithin_without (h : a.catalog.Extends c' added) (hc : a.catalog.Coherent)
    (hc' : c'.Coherent) (hsteady : a.context.Steady answer inv) (hworld : inv world)
    (hg : g ∈ a.catalog.groups)
    (hdoc : ((a.withCatalog c').assembleWithin g.name rows world).1 = .ok doc) :
    (a.assembleWithin g.name rows world).1 = .ok (doc.without (added.map Group.name)) := by
  obtain ⟨hfound, hfound'⟩ := h.group? g hg
  obtain ⟨_, hname, hfits, hyields⟩ :=
    (assembleWithin_eq_ok (a := a.withCatalog c') hc' hsteady hworld).mp hdoc
  obtain rfl := Option.some.inj (hfound'.symm.trans hname)
  change List.Forall₂ _ (c'.ancestors g.name).reverse rows at hfits
  change Yields _ answer g (placeOf (c'.ancestors g.name).reverse rows) doc at hyields
  rw [h.ancestors g hg] at hfits hyields
  exact (assembleWithin_eq_ok hc hsteady hworld).mpr
    ⟨g, hfound, hfits, hyields.without h hc hc' hg⟩

/-- More definitions do not change what was there. The groups of the first ones are in both catalogs
with the same parents, plans and ancestors, and with new children only behind the others. What is
assembled of them with the new groups is, without these, what is assembled without them. -/
theorem extension_conservative (hok : Catalog.ofDefinitions definitions = .ok c)
    (hok' : Catalog.ofDefinitions (definitions ++ later) = .ok c') :
    (c.groups.map Group.definition = definitions ∧
      ∃ added, added.map Group.definition = later ∧ c.Extends c' added) ∧
    ∀ {σ : Type} (a : Assembler σ) (answer : String → List Value → Except Error (List Row))
      (inv : σ → Prop), a.context.Steady answer inv → ∀ world, inv world → ∀ d ∈ definitions,
        ∀ doc,
          (((a.withCatalog c').assemble d.name world).1 = .ok doc →
            ((a.withCatalog c).assemble d.name world).1 =
              .ok (doc.without (later.map GroupDefinition.name))) ∧
          ∀ rows, ((a.withCatalog c').assembleWithin d.name rows world).1 = .ok doc →
            ((a.withCatalog c).assembleWithin d.name rows world).1 =
              .ok (doc.without (later.map GroupDefinition.name)) := by
  obtain ⟨rfl, hc⟩ := Catalog.coherent_of_ofDefinitions hok
  obtain ⟨hdefinitions, hc'⟩ := Catalog.coherent_of_ofDefinitions hok'
  obtain ⟨added, rfl, h⟩ := hc.exists_extends hc' hdefinitions
  refine ⟨⟨rfl, added, rfl, h⟩, fun a answer inv hsteady world hworld d hd doc => ?_⟩
  obtain ⟨g, hg, rfl⟩ := List.mem_map.mp hd
  rw [List.map_map]
  constructor
  · exact assemble_without (a := a.withCatalog c) h hc hc' hsteady hworld hg
  · intro rows
    exact assembleWithin_without (a := a.withCatalog c) h hc hc' hsteady hworld hg

theorem extension_conservative_parcels : ∃ c c' doc,
    Catalog.ofDefinitions (Catalog.orderDefinitions.filter (·.name ≠ "parcels")) = .ok c ∧
    Catalog.ofDefinitions (Catalog.orderDefinitions.filter (·.name ≠ "parcels") ++
      Catalog.orderDefinitions.filter fun d => !decide (d.name ≠ "parcels")) = .ok c' ∧
    ((orderAssembler.withCatalog c').assemble "orders" ()).1 = .ok doc ∧
    ((orderAssembler.withCatalog c).assemble "orders" ()).1 = .ok (doc.without ["parcels"]) := by
  have hperm := List.filter_append_perm (fun d : GroupDefinition => d.name ≠ "parcels")
    Catalog.orderDefinitions
  have hok : Catalog.ofDefinitions Catalog.orderDefinitions = .ok Catalog.orderCatalog := by
    decide +kernel
  obtain ⟨c, hc⟩ := exists_ok_of_isSome (x := Catalog.ofDefinitions
    (Catalog.orderDefinitions.filter (·.name ≠ "parcels"))) (by decide +kernel)
  obtain ⟨c', hc'⟩ := Catalog.exists_ofDefinitions_of_perm hperm.symm ⟨_, hok⟩
  obtain ⟨doc, hdoc⟩ := exists_assemble_orders
  obtain ⟨doc', hdoc', _⟩ := assemble_alike (a := orderAssembler)
    (Catalog.coherent_of_ofDefinitions hok).2 (Catalog.coherent_of_ofDefinitions hc').2
    (Catalog.rearranges_of_perm hperm.symm hok hc') steady_orderAssembler trivial hdoc
  obtain ⟨d, hd, hname⟩ : ∃ d ∈ Catalog.orderDefinitions.filter (·.name ≠ "parcels"),
      d.name = "orders" := by
    decide +kernel
  have hwithout := ((extension_conservative hc hc').2 orderAssembler _ _ steady_orderAssembler ()
    trivial d hd doc').1
  rw [hname] at hwithout
  exact ⟨c, c', doc', hc, hc', hdoc', hwithout hdoc'⟩

end Assembler

end NestedViews
