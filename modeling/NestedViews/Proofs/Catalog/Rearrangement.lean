import NestedViews.Proofs.Catalog.Extension

namespace NestedViews

variable {definitions definitions' : List GroupDefinition} {name : String}

theorem Nests.perm {parent? : String → Option String} (h : Nests definitions parent?)
    (hperm : definitions.Perm definitions') : Nests definitions' parent? := by
  have hmem : ∀ d, d ∈ definitions' ↔ d ∈ definitions := fun d => hperm.mem_iff.symm
  exact {
    ends := by simpa only [hmem] using h.ends
    declared := by simpa only [hmem] using h.declared
    unbound := by simpa only [hmem] using h.unbound
    bound := by simpa only [hmem] using h.bound
    isVirtual := by simpa only [hmem] using h.isVirtual
    reads := by simpa only [hmem] using h.reads
    scans := by simpa only [hmem] using h.scans }

namespace Nesting

variable {n n' : Nesting}

theorem climb_congr (h : ∀ name, n.parent? name = n'.parent? name) (steps : Nat)
    (met : List String) (name : String) : n.climb steps met name = n'.climb steps met name := by
  induction steps generalizing met name with
  | zero => rfl
  | succ steps ih => simp only [climb, h, ih]

theorem ancestors_congr (h : ∀ name, n.parent? name = n'.parent? name)
    (hlength : n.entries.length = n'.entries.length) (name : String) :
    n.ancestors name = n'.ancestors name := by
  rw [ancestors, ancestors, hlength, climb_congr h]

theorem parent?_eq_none (h : name ∉ n.entries.map NestingEntry.name) : n.parent? name = none := by
  cases hparent : n.parent? name with
  | none => rfl
  | some parent => exact absurd (mem_names_of_parent? hparent) h

end Nesting

namespace Catalog

variable {c c' : Catalog}

theorem foldlM_register {before : List GroupDefinition}
    (hchecks : ∀ d ∈ definitions, d.check = .ok ())
    (hnames : ((before ++ definitions).map GroupDefinition.name).Nodup) :
    definitions.foldlM register before = .ok (before ++ definitions) := by
  induction definitions generalizing before with
  | nil => simp
  | cons d definitions ih =>
    obtain ⟨hd, hchecks⟩ := List.forall_mem_cons.mp hchecks
    have hnew : d.name ∉ before.map GroupDefinition.name := by
      rw [List.map_append, List.map_cons, List.nodup_append] at hnames
      exact fun hmem => hnames.2.2 _ hmem _ (.head _) rfl
    have hregister : register before d = .ok (before ++ [d]) := register_eq_ok.mpr ⟨hd, hnew, rfl⟩
    rw [List.append_cons] at hnames ⊢
    rw [List.foldlM_cons, bind_eq_ok]
    exact ⟨_, hregister, ih hchecks hnames⟩

theorem ofDefinitions_eq_ok : ofDefinitions definitions = .ok c ↔
    (∀ d ∈ definitions, d.check = .ok ()) ∧ (definitions.map GroupDefinition.name).Nodup ∧
      build definitions = .ok c := by
  rw [ofDefinitions, bind_eq_ok]
  constructor
  · rintro ⟨registered, hregistered, hbuild⟩
    obtain ⟨rfl, hnames, hchecks⟩ := of_foldlM_register hregistered
    exact ⟨hchecks, hnames (by simp), hbuild⟩
  · rintro ⟨hchecks, hnames, hbuild⟩
    exact ⟨_, foldlM_register hchecks hnames, hbuild⟩

theorem coherent_of_ofDefinitions (h : ofDefinitions definitions = .ok c) :
    c.groups.map Group.definition = definitions ∧ c.Coherent := by
  obtain ⟨hchecks, hnames, hbuild⟩ := ofDefinitions_eq_ok.mp h
  exact coherent_of_build hnames hchecks hbuild

theorem exists_ofDefinitions_iff : (∃ c, ofDefinitions definitions = .ok c) ↔
    (∀ d ∈ definitions, d.check = .ok ()) ∧ (definitions.map GroupDefinition.name).Nodup ∧
      ∃ parent?, Nests definitions parent? := by
  constructor
  · rintro ⟨c, h⟩
    obtain ⟨hchecks, hnames, _⟩ := ofDefinitions_eq_ok.mp h
    obtain ⟨rfl, hc⟩ := coherent_of_ofDefinitions h
    exact ⟨hchecks, hnames, _, hc.nests⟩
  · rintro ⟨hchecks, hnames, parent?, hnests⟩
    obtain ⟨c, hbuild⟩ := exists_build_of_nests hnests hnames fun d hd =>
      GroupDefinition.nodup_elements_of_check (hchecks d hd)
    exact ⟨c, ofDefinitions_eq_ok.mpr ⟨hchecks, hnames, hbuild⟩⟩

theorem exists_ofDefinitions_of_perm (hperm : definitions.Perm definitions')
    (h : ∃ c, ofDefinitions definitions = .ok c) : ∃ c, ofDefinitions definitions' = .ok c := by
  obtain ⟨hchecks, hnames, parent?, hnests⟩ := exists_ofDefinitions_iff.mp h
  exact exists_ofDefinitions_iff.mpr ⟨fun d hd => hchecks d (hperm.mem_iff.mpr hd),
    (hperm.map _).nodup_iff.mp hnames, parent?, hnests.perm hperm⟩

/-- Catalogs of the same groups, with the same parents, ancestors and plans, in some order. -/
structure Rearranges (c c' : Catalog) : Prop where
  groups : c.groups.Perm c'.groups
  group? : ∀ name, c.group? name = c'.group? name
  parent? : ∀ name, c.nesting.parent? name = c'.nesting.parent? name
  ancestors : ∀ name, c.ancestors name = c'.ancestors name
  children : ∀ name, (c.children name).Perm (c'.children name)
  roots : c.roots.Perm c'.roots

namespace Coherent

variable (hc : c.Coherent) (hc' : c'.Coherent)
variable (hperm : (c.groups.map Group.definition).Perm (c'.groups.map Group.definition))
include hc hc' hperm

theorem parent?_perm (name : String) : c.nesting.parent? name = c'.nesting.parent? name := by
  have hnames : c.names.Perm c'.names := by
    simpa only [← map_name_definitions] using hperm.map GroupDefinition.name
  by_cases hname : name ∈ c.names
  · obtain ⟨g, hg, rfl⟩ := List.mem_map.mp hname
    exact (hc.parent?_of_subset hc' hperm.subset hg).symm
  · rw [Nesting.parent?_eq_none (hc.map_name_entries ▸ hname),
      Nesting.parent?_eq_none (hc'.map_name_entries ▸ fun h => hname (hnames.mem_iff.mpr h))]

theorem nesting_ancestors_perm (name : String) :
    c.nesting.ancestors name = c'.nesting.ancestors name := by
  apply Nesting.ancestors_congr (hc.parent?_perm hc' hperm)
  rw [hc.entries_eq, hc'.entries_eq]
  simpa using hperm.length_eq

theorem rearranges : c.Rearranges c' := by
  have hgroups : c.groups.Perm c'.groups :=
    (List.perm_ext_iff_of_nodup hc.names_nodup.of_map hc'.names_nodup.of_map).mpr fun g =>
      ⟨hc.mem_groups_of_subset hc' hperm.subset, hc'.mem_groups_of_subset hc hperm.symm.subset⟩
  have hgroup? : c.group? = c'.group? := funext (find?_name_perm hc.names_nodup hgroups)
  have hparent? := hc.parent?_perm hc' hperm
  refine ⟨hgroups, congrFun hgroup?, hparent?, fun name => ?_, fun name => ?_, ?_⟩
  · rw [ancestors, ancestors, hgroup?, hc.nesting_ancestors_perm hc' hperm]
  · rw [hc.children_eq, hc'.children_eq]
    exact hgroups.filter _
  · rw [roots, roots, Nesting.roots, Nesting.roots, hc.entries_eq, hc'.entries_eq, hgroup?,
      funext hparent?]
    exact ((((hgroups.map _).map _).filter _).filterMap _).filter _

end Coherent

theorem rearranges_of_perm (hperm : definitions.Perm definitions')
    (h : ofDefinitions definitions = .ok c) (h' : ofDefinitions definitions' = .ok c') :
    c.Rearranges c' := by
  obtain ⟨rfl, hc⟩ := coherent_of_ofDefinitions h
  obtain ⟨rfl, hc'⟩ := coherent_of_ofDefinitions h'
  exact hc.rearranges hc' hperm

end Catalog

end NestedViews
