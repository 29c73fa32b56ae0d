import NestedViews.Assembly.Outline
import NestedViews.Proofs.Catalog.Acceptance

namespace NestedViews.Catalog

variable {c : Catalog} {g child p : Group} {name : String} {above : List String}

def Built (c : Catalog) : Prop :=
  ∃ definitions, ofDefinitions definitions = .ok c

theorem Built.coherent (h : c.Built) : c.Coherent := by
  obtain ⟨definitions, h⟩ := h
  rw [ofDefinitions, bind_eq_ok] at h
  obtain ⟨registered, hregistered, h⟩ := h
  obtain ⟨rfl, hnodup, hchecks⟩ := of_foldlM_register hregistered
  exact (coherent_of_build (hnodup (by simp)) hchecks h).2

@[irreducible] def orderCatalog : Catalog :=
  (ofDefinitions orderDefinitions).toOption.getD ⟨[], .empty⟩

theorem built_orderCatalog : orderCatalog.Built :=
  ⟨orderDefinitions, by decide +kernel⟩

@[simp] theorem group_outline (c : Catalog) (g : Group) : (c.outline g).group = g := by
  rw [outline]
  cases c.groups.length <;> rfl

theorem group_eq_ok : c.group name = .ok g ↔ c.group? name = some g := by
  rw [group]
  cases c.group? name <;> simp

namespace Coherent

theorem group?_eq_some (hc : c.Coherent) :
    c.group? name = some g ↔ g ∈ c.groups ∧ g.name = name := by
  constructor
  · exact name_of_find?
  · rintro ⟨hg, rfl⟩
    exact hc.group?_of_mem hg

theorem children_eq (hc : c.Coherent) :
    c.children name = c.groups.filter fun g => g.parent = some name := by
  rw [children, Nesting.children, hc.entries_eq, List.filter_map, List.map_map]
  exact filterMap_find?_name hc.names_nodup fun g hg => (List.mem_filter.mp hg).1

theorem mem_children (hc : c.Coherent) :
    g ∈ c.children name ↔ g ∈ c.groups ∧ g.parent = some name := by
  simp [hc.children_eq]

theorem isVirtual_definition (hc : c.Coherent) (hg : g ∈ c.groups) :
    g.definition.isVirtual = g.isVirtual :=
  (isSome_of_mapM (hc.plan_eq g hg)).symm

theorem isVirtual_of_parent (hc : c.Coherent) (hg : g ∈ c.groups) (hparent : g.parent = some name) :
    g.isVirtual := by
  rw [← hc.isVirtual_definition hg]
  have hmem : g.definition ∈ c.groups.map Group.definition := List.mem_map_of_mem hg
  cases hdeclared : g.definition.parent with
  | some _ => exact GroupDefinition.isVirtual_of_check (hc.checked g hg) (by simp [hdeclared])
  | none =>
    cases htemplate : g.definition.template with
    | some _ => simp [GroupDefinition.isVirtual, htemplate]
    | none =>
      have hnone := hc.nests.unbound _ hmem hdeclared (by simp [GroupDefinition.bindings, htemplate])
      have hsome := hc.parent?_of_mem hg
      rw [hparent] at hsome
      exact absurd (hnone.symm.trans hsome) (by simp)

theorem isVirtual_of_mem_children (hc : c.Coherent) (hchild : child ∈ c.children name) :
    child.isVirtual := by
  obtain ⟨hmem, hparent⟩ := hc.mem_children.mp hchild
  exact hc.isVirtual_of_parent hmem hparent

theorem exists_plan_of_mem_children (hc : c.Coherent) (hchild : child ∈ c.children name) :
    ∃ plan, child.plan = some plan :=
  Option.isSome_iff_exists.mp (hc.isVirtual_of_mem_children hchild)

theorem exists_climbs (hc : c.Coherent) (hg : g ∈ c.groups) :
    ∃ above, Climbs c.nesting.parent? g.name above :=
  hc.nests.ends _ (List.mem_map_of_mem hg)

theorem map_name_ancestors (hc : c.Coherent) (hg : g ∈ c.groups)
    (h : Climbs c.nesting.parent? g.name above) : (c.ancestors g.name).map Group.name = above := by
  have hdefined : ∀ a ∈ above, ∃ p ∈ c.groups, p.name = a := by
    intro a ha
    obtain ⟨_, hq, hname, _⟩ := hc.nests.isVirtual_of_climbs h
      (List.mem_map_of_mem (List.mem_map_of_mem hg)) a ha
    obtain ⟨p, hp, rfl⟩ := List.mem_map.mp hq
    exact ⟨p, hp, hname⟩
  rw [ancestors, Nesting.ancestors_eq h]
  exact map_name_filterMap_find? hdefined

theorem nodup_ancestors (hc : c.Coherent) (hg : g ∈ c.groups) :
    (g.name :: (c.ancestors g.name).map Group.name).Nodup := by
  obtain ⟨above, h⟩ := hc.exists_climbs hg
  rw [hc.map_name_ancestors hg h]
  exact h.nodup

theorem mem_of_mem_ancestors (hp : p ∈ c.ancestors name) : p ∈ c.groups := by
  obtain ⟨_, _, h⟩ := List.mem_filterMap.mp hp
  exact (name_of_find? h).1

theorem length_ancestors_lt (hc : c.Coherent) (hg : g ∈ c.groups) :
    (c.ancestors g.name).length < c.groups.length := by
  have hsub : g.name :: (c.ancestors g.name).map Group.name ⊆ c.names := by
    apply List.cons_subset.mpr ⟨List.mem_map_of_mem hg, _⟩
    intro a ha
    obtain ⟨p, hp, rfl⟩ := List.mem_map.mp ha
    exact List.mem_map_of_mem (mem_of_mem_ancestors hp)
  have hle := (List.subperm_of_subset (hc.nodup_ancestors hg) hsub).length_le
  rw [List.length_cons, names, List.length_map, List.length_map] at hle
  exact hle

theorem ancestors_of_root (hc : c.Coherent) (hg : g ∈ c.groups) (hparent : g.parent = none) :
    c.ancestors g.name = [] := by
  have htop : Climbs c.nesting.parent? g.name [] := .top ((hc.parent?_of_mem hg).trans hparent)
  rw [ancestors, Nesting.ancestors_eq htop, List.filterMap_nil]

theorem ancestors_of_parent (hc : c.Coherent) (hg : g ∈ c.groups) (hp : p ∈ c.groups)
    (hparent : g.parent = some p.name) : c.ancestors g.name = p :: c.ancestors p.name := by
  obtain ⟨above, h⟩ := hc.exists_climbs hp
  have hup : Climbs c.nesting.parent? g.name (p.name :: above) :=
    .up ((hc.parent?_of_mem hg).trans hparent) h
  rw [ancestors, ancestors, Nesting.ancestors_eq hup, Nesting.ancestors_eq h, List.filterMap_cons,
    hc.group?_of_mem hp]

theorem ancestors_of_mem_children (hc : c.Coherent) (hg : g ∈ c.groups)
    (hchild : child ∈ c.children g.name) : c.ancestors child.name = g :: c.ancestors g.name := by
  obtain ⟨hmem, hparent⟩ := hc.mem_children.mp hchild
  exact hc.ancestors_of_parent hmem hg hparent

theorem induction {motive : Group → Prop} (hc : c.Coherent)
    (step : ∀ g ∈ c.groups, (∀ child ∈ c.children g.name, motive child) → motive g)
    (hg : g ∈ c.groups) : motive g := by
  -- A nested group has one ancestor more, and no group has as many as there are groups.
  induction hlevels : c.groups.length - (c.ancestors g.name).length using Nat.strongRecOn
    generalizing g with
  | ind levels ih =>
    apply step g hg
    intro child hchild
    obtain ⟨hmem, _⟩ := hc.mem_children.mp hchild
    have hlt := hc.length_ancestors_lt hg
    have hancestors := congrArg List.length (hc.ancestors_of_mem_children hg hchild)
    rw [List.length_cons] at hancestors
    exact ih _ (by omega) hmem rfl

/-- With a level for each group that may lie below it, the outline of a group is complete. -/
theorem outlineTo_eq {levels levels' : Nat} (hc : c.Coherent) (hg : g ∈ c.groups)
    (h : c.groups.length ≤ levels + (c.ancestors g.name).length) (hle : levels ≤ levels') :
    c.outlineTo levels' g = c.outlineTo levels g := by
  induction levels generalizing levels' g with
  | zero => exact absurd (hc.length_ancestors_lt hg) (by omega)
  | succ levels ih =>
    cases levels' with
    | zero => omega
    | succ levels' =>
      rw [outlineTo, outlineTo]
      congr 1
      apply List.map_congr_left
      intro child hchild
      have hancestors := hc.ancestors_of_mem_children hg hchild
      apply ih (hc.mem_children.mp hchild).1 _ (Nat.le_of_succ_le_succ hle)
      rw [hancestors, List.length_cons]
      omega

theorem outline_eq (hc : c.Coherent) (hg : g ∈ c.groups) :
    c.outline g = .mk g ((c.children g.name).map c.outline) := by
  have hlt := hc.length_ancestors_lt hg
  cases hlength : c.groups.length with
  | zero => omega
  | succ levels =>
    rw [outline, hlength, outlineTo]
    congr 1
    apply List.map_congr_left
    intro child hchild
    have hancestors := hc.ancestors_of_mem_children hg hchild
    rw [outline, hlength]
    apply (hc.outlineTo_eq (hc.mem_children.mp hchild).1 _ (Nat.le_succ levels)).symm
    rw [hancestors, List.length_cons]
    omega

end Coherent

end NestedViews.Catalog
