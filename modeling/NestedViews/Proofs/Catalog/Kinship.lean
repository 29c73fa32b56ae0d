import NestedViews.Proofs.Catalog.Rearrangement
import NestedViews.Proofs.Catalog.Subtree

/-! How the groups of a built catalog are related. The parents of the groups, their ancestors, the
lists of children and the roots all tell of the same forest. -/

namespace NestedViews.Catalog

variable {c : Catalog} {definitions : List GroupDefinition} {a g : Group} {name : String}

inductive ParentChain (c : Catalog) : Group → List Group → Prop
  | top {g : Group} : g.parent = none → ParentChain c g []
  | up {g p : Group} {above : List Group} : p ∈ c.groups → g.parent = some p.name →
      ParentChain c p above → ParentChain c g (p :: above)

def Lists (c : Catalog) (g child : Group) : Prop :=
  child ∈ c.children g.name

/-- A catalog whose parents, ancestors, children and roots agree. Every virtual group is listed
once, among the roots or among the children of one group, and a leaf nowhere. -/
structure IsForest (c : Catalog) : Prop where
  parent : ∀ g ∈ c.groups, c.nesting.parent? g.name = g.parent
  ancestors : ∀ g ∈ c.groups, c.ParentChain g (c.ancestors g.name)
  distinct : ∀ g ∈ c.groups, (g.name :: (c.ancestors g.name).map Group.name).Nodup
  children : ∀ name, c.children name = c.groups.filter fun g => g.parent = some name
  children_nodup : ∀ name, (c.children name).Nodup
  roots_nodup : c.roots.Nodup
  listed : ∀ g ∈ c.groups, g.isVirtual →
    (g ∈ c.roots ∧ ∀ name, g ∉ c.children name) ∨ (g ∉ c.roots ∧ ∃! name, g ∈ c.children name)
  leaf : ∀ g ∈ c.groups, ¬g.isVirtual → g ∉ c.roots ∧ ∀ name, g ∉ c.children name
  reached : ∀ a ∈ c.groups, ∀ g ∈ c.groups,
    a ∈ c.ancestors g.name ↔ Relation.TransGen c.Lists a g

namespace Coherent

theorem parentChain_ancestors (hc : c.Coherent) (hg : g ∈ c.groups) :
    c.ParentChain g (c.ancestors g.name) := by
  refine hc.induction_up (motive := fun g => c.ParentChain g (c.ancestors g.name)) ?_ ?_ hg
  · intro g hg hparent
    rw [hc.ancestors_of_root hg hparent]
    exact .top hparent
  · intro p hp child hchild ih
    rw [hc.ancestors_of_mem_children hp hchild]
    exact .up hp (hc.mem_children.mp hchild).2 ih

theorem roots_eq (hc : c.Coherent) :
    c.roots = c.groups.filter fun g => g.isVirtual && g.parent.isNone := by
  have hnames : c.nesting.roots = (c.groups.filter fun g => g.parent.isNone).map Group.name := by
    rw [Nesting.roots, hc.entries_eq, List.map_map, List.filter_map]
    refine congrArg (List.map Group.name) (List.filter_congr fun g hg => ?_)
    exact congrArg Option.isNone (hc.parent?_of_mem hg)
  rw [roots, hnames]
  unfold group?
  rw [filterMap_find?_name hc.names_nodup fun g hg => (List.mem_filter.mp hg).1, List.filter_filter]

theorem mem_roots (hc : c.Coherent) :
    g ∈ c.roots ↔ g ∈ c.groups ∧ g.isVirtual ∧ g.parent = none := by
  simp [hc.roots_eq]

theorem transGen_of_mem_ancestors (hc : c.Coherent) (hg : g ∈ c.groups)
    (ha : a ∈ c.ancestors g.name) : Relation.TransGen c.Lists a g := by
  revert ha
  refine hc.induction_up (motive := fun g => a ∈ c.ancestors g.name →
    Relation.TransGen c.Lists a g) ?_ ?_ hg
  · intro g hg hparent ha
    rw [hc.ancestors_of_root hg hparent] at ha
    cases ha
  · intro p hp child hchild ih ha
    rw [hc.ancestors_of_mem_children hp hchild] at ha
    rcases List.mem_cons.mp ha with rfl | ha
    · exact .single hchild
    · exact (ih ha).tail hchild

theorem mem_ancestors_of_transGen (hc : c.Coherent) (ha : a ∈ c.groups)
    (h : Relation.TransGen c.Lists a g) : g ∈ c.groups ∧ a ∈ c.ancestors g.name := by
  induction h with
  | single hchild =>
    rw [hc.ancestors_of_mem_children ha hchild]
    exact ⟨(hc.mem_children.mp hchild).1, .head _⟩
  | tail _ hchild ih =>
    rw [hc.ancestors_of_mem_children ih.1 hchild]
    exact ⟨(hc.mem_children.mp hchild).1, .tail _ ih.2⟩

theorem listed (hc : c.Coherent) (hg : g ∈ c.groups) (hvirtual : g.isVirtual) :
    (g ∈ c.roots ∧ ∀ name, g ∉ c.children name) ∨
      (g ∉ c.roots ∧ ∃! name, g ∈ c.children name) := by
  cases hparent : g.parent with
  | none => exact .inl ⟨hc.mem_roots.mpr ⟨hg, hvirtual, hparent⟩, by simp [hc.mem_children, hparent]⟩
  | some name =>
    refine .inr ⟨by simp [hc.mem_roots, hparent], name, hc.mem_children.mpr ⟨hg, hparent⟩, ?_⟩
    intro name' hchild
    exact Option.some.inj ((hc.mem_children.mp hchild).2.symm.trans hparent)

theorem isForest (hc : c.Coherent) : c.IsForest where
  parent _ hg := hc.parent?_of_mem hg
  ancestors _ hg := hc.parentChain_ancestors hg
  distinct _ hg := hc.nodup_ancestors hg
  children _ := hc.children_eq
  children_nodup _ := hc.nodup_children
  roots_nodup := hc.roots_eq ▸ (List.Nodup.of_map _ hc.names_nodup).filter _
  listed _ hg hvirtual := hc.listed hg hvirtual
  leaf _ _ hleaf := ⟨fun hroot => hleaf (hc.mem_roots.mp hroot).2.1,
    fun _ hchild => hleaf (hc.isVirtual_of_mem_children hchild)⟩
  reached _ ha _ hg := ⟨hc.transGen_of_mem_ancestors hg,
    fun h => (hc.mem_ancestors_of_transGen ha h).2⟩

end Coherent

theorem isForest_of_ofDefinitions (h : ofDefinitions definitions = .ok c) :
    c.groups.map Group.definition = definitions ∧ c.IsForest := by
  obtain ⟨hdefinitions, hc⟩ := coherent_of_ofDefinitions h
  exact ⟨hdefinitions, hc.isForest⟩

theorem isForest_orderCatalog : ofDefinitions orderDefinitions = .ok orderCatalog ∧
    orderCatalog.groups.map Group.definition = orderDefinitions ∧ orderCatalog.IsForest := by
  have hbuild : ofDefinitions orderDefinitions = .ok orderCatalog := by decide +kernel
  exact ⟨hbuild, isForest_of_ofDefinitions hbuild⟩

end NestedViews.Catalog
