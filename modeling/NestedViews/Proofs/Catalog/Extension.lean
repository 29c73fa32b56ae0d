import NestedViews.Proofs.Catalog.Forest

namespace NestedViews.Catalog

variable {c c' : Catalog} {g : Group} {added : List Group}

/-- A catalog with groups added behind those of another one, which are in it as they were: with the
same parents, plans and ancestors, and with added groups only behind their children. -/
structure Extends (c c' : Catalog) (added : List Group) : Prop where
  groups : c'.groups = c.groups ++ added
  group? : ∀ g ∈ c.groups, c.group? g.name = some g ∧ c'.group? g.name = some g
  parent? : ∀ g ∈ c.groups, c'.nesting.parent? g.name = c.nesting.parent? g.name
  ancestors : ∀ g ∈ c.groups, c'.ancestors g.name = c.ancestors g.name
  children : ∀ name, c'.children name =
    c.children name ++ added.filter fun child => child.parent = some name

namespace Coherent

theorem eq_of_map_name (hc : c.Coherent) {groups groups' : List Group}
    (hgroups : groups ⊆ c.groups) (hgroups' : groups' ⊆ c.groups)
    (h : groups.map Group.name = groups'.map Group.name) : groups = groups' := by
  rw [← filterMap_find?_name hc.names_nodup hgroups, h,
    filterMap_find?_name hc.names_nodup hgroups']

section Subset

variable (hc : c.Coherent) (hc' : c'.Coherent)
variable (hsub : c.groups.map Group.definition ⊆ c'.groups.map Group.definition)
include hc hc' hsub

theorem parent?_of_subset (hg : g ∈ c.groups) :
    c'.nesting.parent? g.name = c.nesting.parent? g.name :=
  hc.nests.parent?_of_subset hc'.nests hsub (List.mem_map_of_mem hg)

theorem climbs_of_subset {above : List String} (hg : g ∈ c.groups)
    (h : Climbs c.nesting.parent? g.name above) : Climbs c'.nesting.parent? g.name above :=
  hc.nests.climbs_of_subset hc'.nests hsub h (List.mem_map_of_mem (List.mem_map_of_mem hg))

theorem map_definition_ancestors_of_subset (hg : g ∈ c.groups) :
    (c'.ancestors g.name).map Group.definition = (c.ancestors g.name).map Group.definition := by
  obtain ⟨above, hclimbs⟩ := hc.exists_climbs hg
  rw [map_definition_ancestors, map_definition_ancestors, Nesting.ancestors_eq hclimbs,
    Nesting.ancestors_eq (hc.climbs_of_subset hc' hsub hg hclimbs)]
  apply List.filterMap_congr
  intro a ha
  obtain ⟨q, hq, rfl, _⟩ := hc.nests.isVirtual_of_climbs hclimbs
    (List.mem_map_of_mem (List.mem_map_of_mem hg)) a ha
  have hnames : ∀ {c : Catalog}, c.Coherent →
      ((c.groups.map Group.definition).map GroupDefinition.name).Nodup :=
    fun hc => map_name_definitions ▸ hc.names_nodup
  rw [definition?_of_mem (hnames hc) hq, definition?_of_mem (hnames hc') (hsub hq)]

theorem mem_groups_of_subset (hg : g ∈ c.groups) : g ∈ c'.groups := by
  obtain ⟨g', hg', hdefinition⟩ := List.mem_map.mp (hsub (List.mem_map_of_mem hg))
  have hname : g'.name = g.name := congrArg GroupDefinition.name hdefinition
  have hparent : g'.parent = g.parent := by
    rw [← hc'.parent?_of_mem hg', ← hc.parent?_of_mem hg, hname,
      hc.parent?_of_subset hc' hsub hg]
  have hplan : g'.plan = g.plan := by
    have hplan := hc.plan_eq g hg
    have hplan' := hc'.plan_eq g' hg'
    rw [hdefinition, hname, hc.map_definition_ancestors_of_subset hc' hsub hg, hplan] at hplan'
    exact (Except.ok.inj hplan').symm
  obtain ⟨definition, parent, plan⟩ := g
  obtain ⟨definition', parent', plan'⟩ := g'
  obtain rfl : definition' = definition := hdefinition
  obtain rfl : parent' = parent := hparent
  obtain rfl : plan' = plan := hplan
  exact hg'

theorem ancestors_of_subset (hg : g ∈ c.groups) : c'.ancestors g.name = c.ancestors g.name := by
  obtain ⟨above, hclimbs⟩ := hc.exists_climbs hg
  have hmem : ∀ {p}, p ∈ c.groups → p ∈ c'.groups := hc.mem_groups_of_subset hc' hsub
  apply hc'.eq_of_map_name (fun _ => mem_of_mem_ancestors)
    fun p hp => hmem (mem_of_mem_ancestors hp)
  rw [hc.map_name_ancestors hg hclimbs,
    hc'.map_name_ancestors (hmem hg) (hc.climbs_of_subset hc' hsub hg hclimbs)]

end Subset

theorem exists_extends (hc : c.Coherent) (hc' : c'.Coherent) {definitions : List GroupDefinition}
    (h : c'.groups.map Group.definition = c.groups.map Group.definition ++ definitions) :
    ∃ added, added.map Group.definition = definitions ∧ c.Extends c' added := by
  have hsub : c.groups.map Group.definition ⊆ c'.groups.map Group.definition :=
    h ▸ List.subset_append_left _ _
  have hmem : c.groups ⊆ c'.groups := fun g hg => hc.mem_groups_of_subset hc' hsub hg
  obtain ⟨before, added, hgroups, hbefore, rfl⟩ := List.map_eq_append_iff.mp h
  have hnames := congrArg (List.map GroupDefinition.name) hbefore
  rw [List.map_map, List.map_map] at hnames
  have hbefore : before = c.groups :=
    hc'.eq_of_map_name (hgroups ▸ List.subset_append_left before added) hmem hnames
  rw [hbefore] at hgroups
  exact ⟨added, rfl, {
    groups := hgroups
    group? := fun g hg => ⟨hc.group?_of_mem hg, hc'.group?_of_mem (hmem hg)⟩
    parent? := fun g hg => hc.parent?_of_subset hc' hsub hg
    ancestors := fun g hg => hc.ancestors_of_subset hc' hsub hg
    children := fun name => by
      rw [hc.children_eq, hc'.children_eq, hgroups, List.filter_append] }⟩

end Coherent

end NestedViews.Catalog
