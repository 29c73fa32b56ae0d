import NestedViews.Proofs.Catalog.Rearrangement

namespace NestedViews

def Catalog.parent? (c : Catalog) (name : String) : Option String :=
  (c.group? name).bind Group.parent

variable {definitions ancestors : List GroupDefinition} {d : GroupDefinition}
variable {parent? : String → Option String} {chosen : String → Bool} {name : String}

namespace GroupDefinition

def declaring (parent? : String → Option String) (chosen : String → Bool) (d : GroupDefinition) :
    GroupDefinition :=
  if chosen d.name then { d with parent := parent? d.name } else d

@[simp] theorem name_declaring : (d.declaring parent? chosen).name = d.name := by
  rw [declaring]
  split <;> rfl

@[simp] theorem elements_declaring : (d.declaring parent? chosen).elements = d.elements := by
  rw [declaring]
  split <;> rfl

@[simp] theorem template_declaring : (d.declaring parent? chosen).template = d.template := by
  rw [declaring]
  split <;> rfl

@[simp] theorem bindings_declaring : (d.declaring parent? chosen).bindings = d.bindings := by
  rw [bindings, template_declaring, bindings]

@[simp] theorem isVirtual_declaring : (d.declaring parent? chosen).isVirtual = d.isVirtual := by
  rw [isVirtual, template_declaring, isVirtual]

@[simp] theorem elementIndex?_declaring :
    (d.declaring parent? chosen).elementIndex? name = d.elementIndex? name := by
  rw [elementIndex?, elements_declaring, elementIndex?]

theorem parent_declaring : (d.declaring parent? chosen).parent =
    if chosen d.name then parent? d.name else d.parent := by
  rw [declaring]
  split <;> rfl

theorem check_declaring (hcheck : d.check = .ok ())
    (hvirtual : ∀ p, parent? d.name = some p → d.isVirtual) :
    (d.declaring parent? chosen).check = .ok () := by
  obtain ⟨hname, helements, hnodup, hparent⟩ := check_eq_ok.mp hcheck
  refine check_eq_ok.mpr ⟨by simpa, by simpa, by simpa, fun hsome => ?_⟩
  rw [isVirtual_declaring]
  rw [parent_declaring] at hsome
  split at hsome
  · obtain ⟨p, hp⟩ := Option.ne_none_iff_exists'.mp hsome
    exact hvirtual p hp
  · exact hparent hsome

end GroupDefinition

theorem definition?_map_declaring :
    definition? (definitions.map (.declaring parent? chosen)) name =
      (definition? definitions name).map (.declaring parent? chosen) := by
  simp [definition?, List.find?_map]

theorem map_name_declaring :
    (definitions.map (.declaring parent? chosen)).map GroupDefinition.name =
      definitions.map GroupDefinition.name := by
  simp [Function.comp_def]

theorem Slot.compile_map_declaring (group : String) (b : Binding) :
    compile group (ancestors.map (.declaring parent? chosen)) b = compile group ancestors b := by
  unfold compile
  simp only [List.findIdx?_map, Function.comp_def, GroupDefinition.name_declaring,
    List.getElem?_map]
  cases splitQualified? b.element with
  | none => rfl
  | some parts =>
    obtain ⟨target, element⟩ := parts
    dsimp only
    cases ancestors.findIdx? (·.name = target) with
    | none => rfl
    | some levelsUp =>
      dsimp only
      cases ancestors[levelsUp]? with
      | none => rfl
      | some ancestor => simp

theorem Plan.compile_map_declaring (group : String) (t : QueryTemplate) :
    compile group t (ancestors.map (.declaring parent? chosen)) = compile group t ancestors := by
  unfold compile
  simp only [funext (Slot.compile_map_declaring group)]

theorem Nests.declaring (h : Nests definitions parent?) :
    Nests (definitions.map (.declaring parent? chosen)) parent? := by
  have hundeclared : ∀ d ∈ definitions, (d.declaring parent? chosen).parent = none →
      d.parent = none := by
    intro d hd hnone
    rw [GroupDefinition.parent_declaring] at hnone
    split at hnone
    · cases hparent : d.parent with
      | none => rfl
      | some p => simp [h.declared d hd p hparent] at hnone
    · exact hnone
  refine ⟨?_, ?_, ?_, ?_, ?_, ?_, ?_⟩ <;> rw [List.forall_mem_map]
  · simpa using h.ends
  · intro d hd p hp
    rw [GroupDefinition.parent_declaring] at hp
    rw [GroupDefinition.name_declaring]
    split at hp
    · exact hp
    · exact h.declared d hd p hp
  · intro d hd hnone hbindings
    rw [GroupDefinition.bindings_declaring] at hbindings
    rw [GroupDefinition.name_declaring]
    exact h.unbound d hd (hundeclared d hd hnone) hbindings
  · intro d hd hnone hbindings
    rw [GroupDefinition.bindings_declaring] at hbindings ⊢
    rw [GroupDefinition.name_declaring]
    exact h.bound d hd (hundeclared d hd hnone) hbindings
  · intro d hd p hp
    rw [GroupDefinition.name_declaring] at hp
    obtain ⟨q, hq, hname, hvirtual⟩ := h.isVirtual d hd p hp
    exact ⟨_, List.mem_map_of_mem hq, by simpa, by simpa⟩
  · intro d hd b hb
    rw [GroupDefinition.bindings_declaring] at hb
    obtain ⟨q, hq, e, he, hsplit, habove, hbecome⟩ := h.reads d hd b hb
    exact ⟨_, List.mem_map_of_mem hq, e, by simpa, by simpa, by simpa, hbecome⟩
  · simpa using h.scans

namespace Group

def undeclared (g : Group) : Group :=
  { g with definition := { g.definition with parent := none } }

def declaring (parent? : String → Option String) (chosen : String → Bool) (g : Group) : Group :=
  { g with definition := g.definition.declaring parent? chosen }

variable {g : Group}

@[simp] theorem name_declaring : (g.declaring parent? chosen).name = g.name :=
  GroupDefinition.name_declaring

@[simp] theorem undeclared_comp_declaring :
    undeclared ∘ declaring parent? chosen = undeclared := by
  funext g
  simp only [Function.comp_apply, undeclared, declaring, GroupDefinition.declaring]
  split <;> rfl

end Group

namespace Catalog

variable {c c' : Catalog} {g : Group}

structure SameButDeclared (c c' : Catalog) : Prop where
  groups : c'.groups.map Group.undeclared = c.groups.map Group.undeclared
  group? : ∀ name, (c'.group? name).map Group.undeclared = (c.group? name).map Group.undeclared
  parent? : ∀ name, c'.parent? name = c.parent? name
  ancestors : ∀ name,
    (c'.ancestors name).map Group.undeclared = (c.ancestors name).map Group.undeclared
  children : ∀ name,
    (c'.children name).map Group.undeclared = (c.children name).map Group.undeclared
  roots : c'.roots.map Group.undeclared = c.roots.map Group.undeclared

def declaring (parent? : String → Option String) (chosen : String → Bool) (c : Catalog) : Catalog :=
  ⟨c.groups.map (.declaring parent? chosen), c.nesting⟩

theorem group?_declaring : (c.declaring parent? chosen).group? name =
    (c.group? name).map (.declaring parent? chosen) := by
  simp [group?, declaring, List.find?_map]

theorem filterMap_group?_declaring (names : List String) :
    names.filterMap (c.declaring parent? chosen).group? =
      (names.filterMap c.group?).map (.declaring parent? chosen) := by
  rw [List.map_filterMap]
  exact List.filterMap_congr fun _ _ => group?_declaring

theorem sameButDeclared_declaring : c.SameButDeclared (c.declaring parent? chosen) where
  groups := by simp [declaring]
  group? name := by simp [group?_declaring]
  parent? name := by
    rw [Catalog.parent?, Catalog.parent?, group?_declaring]
    cases c.group? name <;> rfl
  ancestors name := by
    rw [ancestors, ancestors, filterMap_group?_declaring, List.map_map,
      Group.undeclared_comp_declaring]
    rfl
  children name := by
    rw [children, children, filterMap_group?_declaring, List.map_map,
      Group.undeclared_comp_declaring]
    rfl
  roots := by
    rw [roots, roots, filterMap_group?_declaring, List.filter_map, List.map_map,
      Group.undeclared_comp_declaring]
    rfl

namespace Coherent

variable (hc : c.Coherent)
include hc

theorem nesting_parent?_eq : c.nesting.parent? = c.parent? := by
  funext name
  rw [Catalog.parent?]
  cases hg : c.group? name with
  | some g =>
    obtain ⟨hmem, rfl⟩ := hc.group?_eq_some.mp hg
    exact hc.parent?_of_mem hmem
  | none =>
    apply Nesting.parent?_eq_none
    rw [hc.map_name_entries]
    intro hname
    obtain ⟨g, hmem, rfl⟩ := List.mem_map.mp hname
    simp [hc.group?_of_mem hmem] at hg

theorem findCycle?_eq_none : c.nesting.findCycle? = none := by
  rw [Nesting.findCycle?_eq_none_iff, hc.entries_eq, List.forall_mem_map]
  exact fun g hg => hc.exists_climbs hg

theorem nestingBy_declaring : nestingBy ((c.groups.map Group.definition).map
    (.declaring parent? chosen)) c.nesting.parent? = c.nesting := by
  have hentries : (nestingBy ((c.groups.map Group.definition).map (.declaring parent? chosen))
      c.nesting.parent?).entries = c.nesting.entries := by
    rw [entries_nestingBy, hc.entries_eq, List.map_map, List.map_map]
    apply List.map_congr_left
    intro g hg
    simp only [Function.comp_apply, GroupDefinition.name_declaring]
    exact congrArg (NestingEntry.mk g.name) (hc.parent?_of_mem hg)
  exact congrArg Nesting.mk hentries

theorem compileGroup_declaring (hg : g ∈ c.groups) :
    compileGroup ((c.groups.map Group.definition).map (.declaring parent? chosen)) c.nesting
      (g.definition.declaring parent? chosen) g.parent = .ok (g.declaring parent? chosen) := by
  have hancestors : (c.nesting.ancestors g.name).filterMap
      (definition? ((c.groups.map Group.definition).map (.declaring parent? chosen))) =
        ((c.ancestors g.name).map Group.definition).map (.declaring parent? chosen) := by
    rw [map_definition_ancestors, List.map_filterMap]
    exact List.filterMap_congr fun _ _ => definition?_map_declaring
  refine compileGroup_eq_ok.mpr ⟨rfl, rfl, ?_⟩
  rw [GroupDefinition.template_declaring, GroupDefinition.name_declaring]
  change (g.definition.template.mapM fun t => Plan.compile g.name t
    ((c.nesting.ancestors g.name).filterMap _)) = .ok g.plan
  simp only [hancestors, Plan.compile_map_declaring]
  exact hc.plan_eq g hg

theorem build_declaring : build ((c.groups.map Group.definition).map
    (.declaring c.nesting.parent? chosen)) = .ok (c.declaring c.nesting.parent? chosen) := by
  let definitions := (c.groups.map Group.definition).map
    (GroupDefinition.declaring c.nesting.parent? chosen)
  have hnests : Nests definitions c.nesting.parent? := hc.nests.declaring
  have hnames : (definitions.map GroupDefinition.name).Nodup := by
    rw [map_name_declaring, map_name_definitions]
    exact hc.names_nodup
  have hgroups : List.Forall₂
      (fun placed g => compileGroup definitions c.nesting placed.1 placed.2 = .ok g)
      (definitions.map fun d => (d, c.nesting.parent? d.name))
      (c.groups.map (.declaring c.nesting.parent? chosen)) := by
    simp only [definitions, List.map_map, List.forall₂_map_left_iff, List.forall₂_map_right_iff,
      List.forall₂_same, Function.comp_apply, GroupDefinition.name_declaring]
    intro g hg
    have hparent : c.nesting.parent? g.definition.name = g.parent := hc.parent?_of_mem hg
    rw [hparent, ← List.map_map]
    exact hc.compileGroup_declaring hg
  rw [← zip_assigned] at hgroups
  exact build_eq_ok.mpr ⟨checkBinding_of_nests hnests hnames, _,
    resolveParents_of_nests hnests hnames, hc.nestingBy_declaring.symm, hc.findCycle?_eq_none,
    hgroups⟩

theorem ofDefinitions_declaring : ofDefinitions ((c.groups.map Group.definition).map
    (.declaring c.nesting.parent? chosen)) = .ok (c.declaring c.nesting.parent? chosen) := by
  refine ofDefinitions_eq_ok.mpr ⟨?_, ?_, hc.build_declaring⟩
  · simp only [List.forall_mem_map]
    intro g hg
    apply GroupDefinition.check_declaring (hc.checked g hg)
    intro p hp
    rw [hc.isVirtual_definition hg]
    exact hc.isVirtual_of_parent hg ((hc.parent?_of_mem hg).symm.trans hp)
  · rw [map_name_declaring, map_name_definitions]
    exact hc.names_nodup

end Coherent

/-- Definitions build the same catalog as before if any of them declare the parents that they have
in it. -/
theorem declaring_conservative (h : ofDefinitions definitions = .ok c) (chosen : String → Bool) :
    ∃ c', ofDefinitions (definitions.map (.declaring c.parent? chosen)) = .ok c' ∧
      c.SameButDeclared c' := by
  obtain ⟨rfl, hc⟩ := coherent_of_ofDefinitions h
  rw [← hc.nesting_parent?_eq]
  exact ⟨_, hc.ofDefinitions_declaring, sameButDeclared_declaring⟩

theorem declaring_conservative_orders :
    ofDefinitions orderDefinitions = .ok orderCatalog ∧
    orderCatalog.parent? "parcels" = some "orders.lines" ∧
    ∃ c', ofDefinitions
        (orderDefinitions.map (.declaring orderCatalog.parent? (· = "parcels"))) = .ok c' ∧
      orderCatalog.SameButDeclared c' := by
  have h : ofDefinitions orderDefinitions = .ok orderCatalog := by decide +kernel
  exact ⟨h, by decide +kernel, declaring_conservative h (· = "parcels")⟩

end Catalog

end NestedViews
