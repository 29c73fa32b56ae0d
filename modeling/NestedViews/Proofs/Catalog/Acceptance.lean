import NestedViews.Catalog.Build
import NestedViews.Proofs.Catalog.Plan
import NestedViews.Proofs.Nesting.Assignment

namespace NestedViews

variable {definitions : List GroupDefinition} {d : GroupDefinition} {b : Binding}
variable {parents : List (Option String)} {parent : Option String} {g : Group}

theorem firstRepeat?_eq_none {seen xs : List String} :
    firstRepeat? seen xs = none ↔ xs.Nodup ∧ ∀ x ∈ xs, x ∉ seen := by
  induction xs generalizing seen with
  | nil => simp [firstRepeat?]
  | cons x xs ih =>
    by_cases hx : x ∈ seen
    · simp [firstRepeat?, hx]
    · simp only [firstRepeat?, hx, if_false, ih, List.nodup_cons, List.forall_mem_cons]
      constructor
      · rintro ⟨hnodup, hxs⟩
        exact ⟨⟨fun hmem => hxs x hmem (.head _), hnodup⟩, not_false,
          fun y hy hseen => hxs y hy (.tail _ hseen)⟩
      · rintro ⟨⟨hmem, hnodup⟩, _, hxs⟩
        refine ⟨hnodup, fun y hy hseen => ?_⟩
        cases hseen with
        | head => exact hmem hy
        | tail _ hseen => exact hxs y hy hseen

namespace GroupDefinition

theorem check_eq_ok : d.check = .ok () ↔ d.name ≠ "" ∧ d.elements ≠ [] ∧
    (d.elements.map Element.name).Nodup ∧ (d.parent ≠ none → d.isVirtual) := by
  by_cases hname : d.name = ""
  · simp [check, hname]
  by_cases helements : d.elements = []
  · simp [check, hname, helements]
  simp only [check, hname, helements, if_false, ne_eq, not_false_eq_true, true_and]
  cases hrepeat : firstRepeat? [] (d.elements.map Element.name) with
  | some x =>
    have hrepeats : ¬ (d.elements.map Element.name).Nodup := by
      intro hnodup
      simp [firstRepeat?_eq_none.mpr ⟨hnodup, fun _ _ => List.not_mem_nil⟩] at hrepeat
    simp [hrepeats]
  | none =>
    have hnodup := (firstRepeat?_eq_none.mp hrepeat).1
    cases hvirtual : d.isVirtual <;> cases hparent : d.parent <;> simp [hnodup]

theorem nodup_elements_of_check (h : d.check = .ok ()) : (d.elements.map Element.name).Nodup :=
  (check_eq_ok.mp h).2.2.1

theorem isVirtual_of_check (h : d.check = .ok ()) (hparent : d.parent ≠ none) : d.isVirtual :=
  (check_eq_ok.mp h).2.2.2 hparent

theorem mem_bindings : b ∈ d.bindings ↔ ∃ t, d.template = some t ∧ b ∈ t.bindings := by
  cases h : d.template <;> simp [bindings, h]

end GroupDefinition

namespace Catalog

theorem register_eq_ok {out : List GroupDefinition} : register definitions d = .ok out ↔
    d.check = .ok () ∧ d.name ∉ definitions.map GroupDefinition.name ∧ out = definitions ++ [d] := by
  by_cases hname : d.name ∈ definitions.map GroupDefinition.name
  · have hany : definitions.any (·.name = d.name) := by simpa using hname
    simp only [register, hany, hname]
    simp
  · have hany : definitions.any (·.name = d.name) = false := by simpa using hname
    simp only [register, hany, hname, Bool.false_eq_true, if_false, bind_eq_ok, pure_eq_ok]
    constructor
    · rintro ⟨_, hcheck, rfl⟩
      exact ⟨hcheck, id, rfl⟩
    · rintro ⟨hcheck, _, rfl⟩
      exact ⟨(), hcheck, rfl⟩

theorem of_foldlM_register {before out : List GroupDefinition}
    (h : definitions.foldlM register before = .ok out) :
    out = before ++ definitions ∧
      ((before.map GroupDefinition.name).Nodup → (out.map GroupDefinition.name).Nodup) ∧
        ∀ d ∈ definitions, d.check = .ok () := by
  induction definitions generalizing before with
  | nil =>
    rw [List.foldlM_nil, pure_eq_ok] at h
    simp [h]
  | cons d definitions ih =>
    rw [List.foldlM_cons, bind_eq_ok] at h
    obtain ⟨registered, hd, h⟩ := h
    obtain ⟨hcheck, hnew, rfl⟩ := register_eq_ok.mp hd
    obtain ⟨hout, hnodup, hchecks⟩ := ih h
    refine ⟨by simpa using hout, fun hbefore => hnodup ?_,
      List.forall_mem_cons.mpr ⟨hcheck, hchecks⟩⟩
    rw [List.map_append, List.nodup_append]
    refine ⟨hbefore, by simp, ?_⟩
    intro a ha b hb heq
    simp only [List.map_cons, List.map_nil, List.mem_singleton] at hb
    exact hnew (hb ▸ heq ▸ ha)

theorem elementIndex?_eq_some {q : GroupDefinition} {name : String} :
    (∃ i, q.elementIndex? name = some i) ↔ ∃ e ∈ q.elements, e.name = name := by
  rw [← Option.isSome_iff_exists]
  simp [GroupDefinition.elementIndex?, List.findIdx?_isSome]

theorem checkBinding_eq_ok (hnames : (definitions.map GroupDefinition.name).Nodup) :
    checkBinding definitions b = .ok () ↔ ∃ q ∈ definitions, ∃ e ∈ q.elements,
      splitQualified? b.element = some (q.name, e.name) := by
  constructor
  · intro h
    simp only [checkBinding] at h
    split at h
    · rename_i i hi
      simp only [Option.bind_eq_bind, Option.bind_eq_some_iff] at hi
      obtain ⟨⟨group, element⟩, hsplit, q, hfound, hi⟩ := hi
      obtain ⟨hq, rfl⟩ := mem_of_definition? hfound
      obtain ⟨e, he, rfl⟩ := elementIndex?_eq_some.mp ⟨i, hi⟩
      exact ⟨q, hq, e, he, hsplit⟩
    · cases h
  · rintro ⟨q, hq, e, he, hsplit⟩
    obtain ⟨i, hi⟩ := elementIndex?_eq_some.mpr ⟨e, he, rfl⟩
    simp [checkBinding, hsplit, definition?_of_mem hnames hq, hi]

theorem compileGroup_eq_ok {n : Nesting} : compileGroup definitions n d parent = .ok g ↔
    g.definition = d ∧ g.parent = parent ∧
      (d.template.mapM fun t => Plan.compile d.name t
        ((n.ancestors d.name).filterMap (definition? definitions))) = .ok g.plan := by
  obtain ⟨definition, parent', plan⟩ := g
  simp only [compileGroup, bind_eq_ok, pure_eq_ok, Group.mk.injEq]
  constructor
  · rintro ⟨_, hplan, rfl, rfl, rfl⟩
    exact ⟨rfl, rfl, hplan⟩
  · rintro ⟨rfl, rfl, hplan⟩
    exact ⟨_, hplan, rfl, rfl, rfl⟩

def nestingOf (definitions : List GroupDefinition) (parents : List (Option String)) : Nesting :=
  ⟨(definitions.zip parents).map fun (d, parent) => ⟨d.name, parent⟩⟩

theorem build_eq_ok {c : Catalog} : build definitions = .ok c ↔
    (∀ d ∈ definitions, ∀ b ∈ d.bindings, checkBinding definitions b = .ok ()) ∧
      ∃ parents, resolveParents definitions = .ok parents ∧
        c.nesting = nestingOf definitions parents ∧ c.nesting.findCycle? = none ∧
          List.Forall₂ (fun placed g => compileGroup definitions c.nesting placed.1 placed.2 = .ok g)
            (definitions.zip parents) c.groups := by
  have hbindings : (definitions.forM fun d => d.bindings.forM (checkBinding definitions)) = .ok () ↔
      ∀ d ∈ definitions, ∀ b ∈ d.bindings, checkBinding definitions b = .ok () := by
    rw [forM_eq_ok]
    exact forall₂_congr fun _ _ => forM_eq_ok
  rw [build, bind_eq_ok, ← hbindings]
  constructor
  · rintro ⟨_, hbindings, h⟩
    rw [bind_eq_ok] at h
    obtain ⟨parents, hparents, h⟩ := h
    refine ⟨hbindings, parents, hparents, ?_⟩
    dsimp only at h
    split at h
    · cases h
    · rename_i hcycle
      rw [bind_eq_ok] at h
      obtain ⟨groups, hgroups, h⟩ := h
      cases h
      exact ⟨rfl, Option.eq_none_iff_forall_ne_some.mpr hcycle, mapM_eq_ok.mp hgroups⟩
  · rintro ⟨hbindings, parents, hparents, hn, hcycle, hgroups⟩
    refine ⟨(), hbindings, bind_eq_ok.mpr ⟨parents, hparents, ?_⟩⟩
    obtain ⟨groups, n⟩ := c
    subst hn
    dsimp only
    split
    · rename_i path hcycle'
      rw [nestingOf] at hcycle
      simp [hcycle] at hcycle'
    · exact bind_eq_ok.mpr ⟨groups, mapM_eq_ok.mpr hgroups, rfl⟩

/-- A catalog whose groups nest as their definitions say, with plans compiled at their places. -/
structure Coherent (c : Catalog) : Prop where
  checked : ∀ g ∈ c.groups, g.definition.check = .ok ()
  names_nodup : c.names.Nodup
  entries_eq : c.nesting.entries = c.groups.map fun g => ⟨g.name, g.parent⟩
  nests : Nests (c.groups.map Group.definition) c.nesting.parent?
  plan_eq : ∀ g ∈ c.groups, (g.definition.template.mapM fun t => Plan.compile g.name t
    ((c.ancestors g.name).map Group.definition)) = .ok g.plan

theorem definition?_map {c : Catalog} {name : String} :
    definition? (c.groups.map Group.definition) name = (c.group? name).map Group.definition := by
  rw [definition?, List.find?_map]
  rfl

theorem map_name_definitions {c : Catalog} :
    (c.groups.map Group.definition).map GroupDefinition.name = c.names := by
  rw [List.map_map]
  rfl

theorem map_definition_ancestors {c : Catalog} {name : String} :
    (c.ancestors name).map Group.definition =
      (c.nesting.ancestors name).filterMap (definition? (c.groups.map Group.definition)) := by
  rw [ancestors, List.map_filterMap]
  congr 1
  funext name
  exact definition?_map.symm

section Build

variable {c : Catalog}

theorem parent?_eq_parent (hnames : c.names.Nodup)
    (hentries : c.nesting.entries = c.groups.map fun g => ⟨g.name, g.parent⟩) (hg : g ∈ c.groups) :
    c.nesting.parent? g.name = g.parent := by
  have hmem : (⟨g.name, g.parent⟩ : NestingEntry) ∈ c.nesting.entries := by
    rw [hentries]
    exact List.mem_map_of_mem hg
  apply Nesting.parent?_of_mem _ hmem
  rw [hentries, List.map_map]
  exact hnames

theorem reads_of_plan {ancestors : List GroupDefinition} {plan : Option Plan} {name : String}
    (h : (d.template.mapM fun t => Plan.compile name t ancestors) = .ok plan) :
    (∀ t, d.template = some t →
      ∃ found, Query.placeholders t.query = .ok found ∧ found.length = t.bindings.length) ∧
    ∀ b ∈ d.bindings, ∃ q ∈ ancestors, ∃ e ∈ q.elements,
      splitQualified? b.element = some (q.name, e.name) ∧
        ∀ type, b.expected = some type → e.type.canBecome type := by
  cases htemplate : d.template with
  | none => simp [GroupDefinition.bindings, htemplate]
  | some t =>
    rw [htemplate] at h
    simp only [Option.mapM_some, map_eq_ok] at h
    obtain ⟨p, hp, _⟩ := h
    obtain ⟨hfound, _, hslots⟩ := Plan.compile_eq_ok.mp hp
    refine ⟨fun t' ht' => by cases ht'; exact hfound, fun b hb => ?_⟩
    simp only [GroupDefinition.bindings, htemplate, Option.map_some, Option.getD_some] at hb
    obtain ⟨s, hzip⟩ := exists_mem_zip hslots hb
    obtain ⟨q, e, hs⟩ := Slot.reads_of_compile (List.forall₂_zip hslots hzip)
    exact ⟨q, List.mem_of_getElem? hs.ancestor, e, List.mem_of_getElem? hs.element, hs.split,
      hs.canBecome⟩

theorem exists_climbs_of_findCycle? (hcycle : c.nesting.findCycle? = none)
    (hentries : c.nesting.entries = c.groups.map fun g => ⟨g.name, g.parent⟩) (hg : g ∈ c.groups) :
    ∃ above, Climbs c.nesting.parent? g.name above := by
  apply Nesting.findCycle?_eq_none_iff.mp hcycle ⟨g.name, g.parent⟩
  rw [hentries]
  exact List.mem_map_of_mem hg

theorem exists_above_of_plan {above : List String}
    (hplan : (g.definition.template.mapM fun t => Plan.compile g.name t
      ((c.ancestors g.name).map Group.definition)) = .ok g.plan)
    (hclimbs : Climbs c.nesting.parent? g.name above) (hb : b ∈ g.definition.bindings) :
    ∃ q ∈ c.groups.map Group.definition, ∃ e ∈ q.elements,
      splitQualified? b.element = some (q.name, e.name) ∧
        Above c.nesting.parent? q.name g.name ∧
          ∀ type, b.expected = some type → e.type.canBecome type := by
  obtain ⟨q, hq, e, he, hsplit, hbecome⟩ := (reads_of_plan hplan).2 b hb
  rw [map_definition_ancestors, Nesting.ancestors_eq hclimbs, List.mem_filterMap] at hq
  obtain ⟨name, hname, hfound⟩ := hq
  obtain ⟨hq, rfl⟩ := mem_of_definition? hfound
  exact ⟨q, hq, e, he, hsplit, ⟨above, hclimbs, hname⟩, hbecome⟩

theorem nests_of_allows (hnames : c.names.Nodup)
    (hentries : c.nesting.entries = c.groups.map fun g => ⟨g.name, g.parent⟩)
    (hcycle : c.nesting.findCycle? = none)
    (hallows : ∀ g ∈ c.groups,
      ParentSearch.Allows (c.groups.map Group.definition) g.definition g.parent)
    (hplan : ∀ g ∈ c.groups, (g.definition.template.mapM fun t => Plan.compile g.name t
      ((c.ancestors g.name).map Group.definition)) = .ok g.plan) :
    Nests (c.groups.map Group.definition) c.nesting.parent? := by
  have hends : ∀ g ∈ c.groups, ∃ above, Climbs c.nesting.parent? g.name above :=
    fun g hg => exists_climbs_of_findCycle? hcycle hentries hg
  have hparent : ∀ g ∈ c.groups, c.nesting.parent? g.definition.name = g.parent :=
    fun g hg => parent?_eq_parent hnames hentries hg
  have hreads : ∀ g ∈ c.groups, ∀ b ∈ g.definition.bindings,
      ∃ q ∈ c.groups.map Group.definition, ∃ e ∈ q.elements,
        splitQualified? b.element = some (q.name, e.name) ∧
          Above c.nesting.parent? q.name g.definition.name ∧
            ∀ type, b.expected = some type → e.type.canBecome type := by
    intro g hg b hb
    obtain ⟨above, hclimbs⟩ := hends g hg
    exact exists_above_of_plan (hplan g hg) hclimbs hb
  have hbound : ∀ g ∈ c.groups, ∀ b ∈ g.definition.bindings,
      ∃ q ∈ c.groups.map Group.definition, b.group? = some q.name := by
    intro g hg b hb
    obtain ⟨q, hq, e, _, hsplit, _⟩ := hreads g hg b hb
    exact ⟨q, hq, by simp [Binding.group?, hsplit]⟩
  refine ⟨?_, ?_, ?_, ?_, ?_, ?_, ?_⟩ <;> rw [List.forall_mem_map]
  · exact hends
  · intro g hg p hp
    rw [hparent g hg]
    exact (hallows g hg).eq_declared hp
  · intro g hg hnone hbindings
    rw [hparent g hg]
    exact (hallows g hg).eq_none hnone (by simp [GroupDefinition.boundGroups, hbindings])
  · intro g hg hnone hbindings
    obtain ⟨b, hb⟩ := List.exists_mem_of_ne_nil _ hbindings
    obtain ⟨q, _, hbq⟩ := hbound g hg b hb
    have hne : g.definition.boundGroups ≠ [] :=
      List.ne_nil_of_mem (mem_boundGroups.mpr ⟨b, hb, hbq⟩)
    obtain ⟨group, hgroup, hr⟩ := (hallows g hg).exists_bound hnone hne
    obtain ⟨b, hb, hbgroup⟩ := mem_boundGroups.mp hgroup
    exact ⟨b, hb, group, hbgroup, (hparent g hg).trans hr⟩
  · intro g hg p hp
    have hallows' := hallows g hg
    rw [← hparent g hg, hp] at hallows'
    apply hallows'.exists_virtual (map_name_definitions ▸ hnames)
    intro group hgroup
    obtain ⟨b, hb, hbgroup⟩ := mem_boundGroups.mp hgroup
    obtain ⟨q, hq, hbq⟩ := hbound g hg b hb
    rw [hbgroup] at hbq
    exact ⟨q, hq, (Option.some.inj hbq).symm⟩
  · exact hreads
  · exact fun g hg => (reads_of_plan (hplan g hg)).1

theorem coherent_of_build (hnames : (definitions.map GroupDefinition.name).Nodup)
    (hchecks : ∀ d ∈ definitions, d.check = .ok ()) (h : build definitions = .ok c) :
    c.groups.map Group.definition = definitions ∧ c.Coherent := by
  obtain ⟨_, parents, hparents, hn, hcycle, hgroups⟩ := build_eq_ok.mp h
  have hallows := resolveParents_allows hnames hparents
  have hcompile : ∀ g ∈ c.groups, (g.definition, g.parent) ∈ definitions.zip parents ∧
      compileGroup definitions c.nesting g.definition g.parent = .ok g := by
    intro g hg
    obtain ⟨placed, hplaced, hg'⟩ := exists_mem_of_forall₂ hgroups hg
    obtain ⟨hdefinition, hparent, _⟩ := compileGroup_eq_ok.mp hg'
    rw [hdefinition, hparent]
    exact ⟨hplaced, hg'⟩
  have hplaced : (c.groups.map fun g => (g.definition, g.parent)) = definitions.zip parents := by
    rw [← List.forall₂_eq_eq_eq, List.forall₂_map_left_iff]
    apply hgroups.flip.imp
    intro g placed h
    obtain ⟨hdefinition, hparent, _⟩ := compileGroup_eq_ok.mp h
    rw [hdefinition, hparent]
  have hdefinitions : c.groups.map Group.definition = definitions := by
    have hfst := congrArg (List.map Prod.fst) hplaced
    rwa [List.map_map, List.map_fst_zip (Nat.le_of_eq hallows.length_eq)] at hfst
  have hentries : c.nesting.entries = c.groups.map fun g => ⟨g.name, g.parent⟩ := by
    rw [hn, nestingOf, ← hplaced, List.map_map]
    rfl
  subst hdefinitions
  have hnames' : c.names.Nodup := map_name_definitions ▸ hnames
  have hplan : ∀ g ∈ c.groups, (g.definition.template.mapM fun t => Plan.compile g.name t
      ((c.ancestors g.name).map Group.definition)) = .ok g.plan := by
    intro g hg
    rw [map_definition_ancestors]
    exact (compileGroup_eq_ok.mp (hcompile g hg).2).2.2
  have hallows' : ∀ g ∈ c.groups,
      ParentSearch.Allows (c.groups.map Group.definition) g.definition g.parent :=
    fun g hg => List.forall₂_zip hallows (hcompile g hg).1
  exact ⟨rfl, List.forall_mem_map.mp hchecks, hnames', hentries,
    nests_of_allows hnames' hentries hcycle hallows' hplan, hplan⟩

namespace Coherent

theorem map_name_entries (hc : c.Coherent) :
    c.nesting.entries.map NestingEntry.name = c.names := by
  rw [hc.entries_eq, List.map_map]
  rfl

theorem group?_of_mem (hc : c.Coherent) (hg : g ∈ c.groups) : c.group? g.name = some g :=
  find?_name hc.names_nodup hg

theorem parent?_of_mem (hc : c.Coherent) (hg : g ∈ c.groups) :
    c.nesting.parent? g.name = g.parent :=
  parent?_eq_parent hc.names_nodup hc.entries_eq hg

end Coherent

theorem exists_compileGroup {parent? : String → Option String} {n : Nesting} {above : List String}
    (h : Nests definitions parent?) (hnames : (definitions.map GroupDefinition.name).Nodup)
    (helements : ∀ q ∈ definitions, (q.elements.map Element.name).Nodup) (hd : d ∈ definitions)
    (hclimbs : Climbs parent? d.name above) (hn : n.ancestors d.name = above) :
    ∃ g, compileGroup definitions n d parent = .ok g := by
  have hancestors :
      ((above.filterMap (definition? definitions)).map GroupDefinition.name).Nodup := by
    have hdefined : ∀ a ∈ above, ∃ q ∈ definitions, q.name = a := by
      intro a ha
      obtain ⟨q, hq, hname, _⟩ := h.isVirtual_of_climbs hclimbs (List.mem_map_of_mem hd) a ha
      exact ⟨q, hq, hname⟩
    have hnames' := map_name_filterMap_find? hdefined
    unfold definition?
    rw [hnames']
    exact hclimbs.nodup.of_cons
  have hplan : ∃ plan, (d.template.mapM fun t => Plan.compile d.name t
      (above.filterMap (definition? definitions))) = .ok plan := by
    cases htemplate : d.template with
    | none => exact ⟨none, rfl⟩
    | some t =>
      have hslots : ∀ b ∈ t.bindings, ∃ s,
          Slot.compile d.name (above.filterMap (definition? definitions)) b = .ok s := by
        intro b hb
        obtain ⟨q, hq, e, he, hsplit, ⟨above', hclimbs', hmem⟩, hbecome⟩ :=
          h.reads d hd b (GroupDefinition.mem_bindings.mpr ⟨t, htemplate, hb⟩)
        rw [hclimbs'.unique hclimbs] at hmem
        exact Slot.exists_compile
          (List.mem_filterMap.mpr ⟨q.name, hmem, definition?_of_mem hnames hq⟩) hancestors he
          (helements q hq) hsplit hbecome
      obtain ⟨slots, hslots⟩ := exists_forall₂ hslots
      have hp : Plan.compile d.name t (above.filterMap (definition? definitions)) =
          .ok ⟨t.query, slots⟩ :=
        Plan.compile_eq_ok.mpr ⟨h.scans d hd t htemplate, rfl, hslots⟩
      exact ⟨some ⟨t.query, slots⟩, by simp [hp]⟩
  obtain ⟨plan, hplan⟩ := hplan
  exact ⟨⟨d, parent, plan⟩, compileGroup_eq_ok.mpr ⟨rfl, rfl, hn ▸ hplan⟩⟩

section Assigned

variable {parent? : String → Option String} {above : List String}

def nestingBy (definitions : List GroupDefinition) (parent? : String → Option String) : Nesting :=
  nestingOf definitions (definitions.map fun d => parent? d.name)

theorem zip_assigned : definitions.zip (definitions.map fun d => parent? d.name) =
    definitions.map fun d => (d, parent? d.name) := by
  have h : (definitions.map id).zip (definitions.map fun d => parent? d.name) =
      definitions.map fun d => (d, parent? d.name) := List.zip_map'
  rwa [List.map_id] at h

theorem entries_nestingBy : (nestingBy definitions parent?).entries =
    definitions.map fun d => ⟨d.name, parent? d.name⟩ := by
  rw [nestingBy, nestingOf, zip_assigned, List.map_map]
  rfl

theorem parent?_nestingBy (hnames : (definitions.map GroupDefinition.name).Nodup)
    (hd : d ∈ definitions) : (nestingBy definitions parent?).parent? d.name = parent? d.name := by
  have hmem : (⟨d.name, parent? d.name⟩ : NestingEntry) ∈
      (nestingBy definitions parent?).entries := by
    rw [entries_nestingBy]
    exact List.mem_map_of_mem hd
  apply Nesting.parent?_of_mem _ hmem
  rw [entries_nestingBy, List.map_map]
  exact hnames

theorem climbs_nestingBy (h : Nests definitions parent?)
    (hnames : (definitions.map GroupDefinition.name).Nodup) (hd : d ∈ definitions)
    (hclimbs : Climbs parent? d.name above) :
    Climbs (nestingBy definitions parent?).parent? d.name above := by
  apply hclimbs.congr
  intro a ha
  cases ha with
  | head => exact parent?_nestingBy hnames hd
  | tail _ ha =>
    obtain ⟨q, hq, rfl, _⟩ := h.isVirtual_of_climbs hclimbs (List.mem_map_of_mem hd) a ha
    exact parent?_nestingBy hnames hq

theorem checkBinding_of_nests (h : Nests definitions parent?)
    (hnames : (definitions.map GroupDefinition.name).Nodup) :
    ∀ d ∈ definitions, ∀ b ∈ d.bindings, checkBinding definitions b = .ok () := by
  intro d hd b hb
  obtain ⟨q, hq, e, he, hsplit, _⟩ := h.reads d hd b hb
  exact (checkBinding_eq_ok hnames).mpr ⟨q, hq, e, he, hsplit⟩

theorem exists_build_of_nests (h : Nests definitions parent?)
    (hnames : (definitions.map GroupDefinition.name).Nodup)
    (helements : ∀ q ∈ definitions, (q.elements.map Element.name).Nodup) :
    ∃ c, build definitions = .ok c := by
  have hcycle : (nestingBy definitions parent?).findCycle? = none := by
    rw [Nesting.findCycle?_eq_none_iff, entries_nestingBy, List.forall_mem_map]
    intro d hd
    obtain ⟨above, hclimbs⟩ := h.ends d hd
    exact ⟨above, climbs_nestingBy h hnames hd hclimbs⟩
  have hgroups : ∀ placed ∈ definitions.zip (definitions.map fun d => parent? d.name),
      ∃ g, compileGroup definitions (nestingBy definitions parent?) placed.1 placed.2 = .ok g := by
    rw [zip_assigned, List.forall_mem_map]
    intro d hd
    obtain ⟨above, hclimbs⟩ := h.ends d hd
    exact exists_compileGroup h hnames helements hd hclimbs
      (Nesting.ancestors_eq (climbs_nestingBy h hnames hd hclimbs))
  obtain ⟨groups, hgroups⟩ := exists_forall₂ hgroups
  exact ⟨⟨groups, nestingBy definitions parent?⟩, build_eq_ok.mpr
    ⟨checkBinding_of_nests h hnames, _, resolveParents_of_nests h hnames, rfl, hcycle, hgroups⟩⟩

end Assigned

/-- Registered definitions build a catalog just if they nest under some assignment of parents. There
is only one, and the groups of the catalog have the parents that it assigns. -/
theorem build_ok_iff_nests (hregistered : definitions.foldlM register [] = .ok definitions) :
    ((∃ c, build definitions = .ok c) ↔ ∃ parent?, Nests definitions parent?) ∧
      ∀ c, build definitions = .ok c →
        Nests definitions c.nesting.parent? ∧
          ∀ parent?, Nests definitions parent? → ∀ d ∈ definitions,
            c.nesting.parent? d.name = parent? d.name ∧
              ∃ g, c.group? d.name = some g ∧ g.definition = d ∧ g.parent = parent? d.name := by
  obtain ⟨_, hnodup, hchecks⟩ := of_foldlM_register hregistered
  have hnames : (definitions.map GroupDefinition.name).Nodup := hnodup (by simp)
  have hnests : ∀ c, build definitions = .ok c → Nests definitions c.nesting.parent? := by
    intro c h
    obtain ⟨hdefinitions, hc⟩ := coherent_of_build hnames hchecks h
    exact hdefinitions ▸ hc.nests
  refine ⟨⟨?_, ?_⟩, fun c h => ⟨hnests c h, ?_⟩⟩
  · rintro ⟨c, h⟩
    exact ⟨_, hnests c h⟩
  · rintro ⟨parent?, h⟩
    exact exists_build_of_nests h hnames fun q hq =>
      GroupDefinition.nodup_elements_of_check (hchecks q hq)
  · intro parent? hparent? d hd
    have hparent := hparent?.parent?_eq (hnests c h) hd
    obtain ⟨hdefinitions, hc⟩ := coherent_of_build hnames hchecks h
    rw [← hdefinitions, List.mem_map] at hd
    obtain ⟨g, hg, rfl⟩ := hd
    exact ⟨hparent, g, hc.group?_of_mem hg, rfl, (hc.parent?_of_mem hg).symm.trans hparent⟩

def orderDefinitions : List GroupDefinition :=
  [⟨"orders", [⟨"id", .int64⟩, ⟨"placed", .date⟩], some ⟨"SELECT id, placed FROM orders", []⟩, none⟩,
    ⟨"parcels", [⟨"code", .string⟩],
      some ⟨"SELECT code FROM parcels WHERE sku = ? AND sent >= ?",
        [⟨"orders.lines.sku", none⟩, ⟨"orders.placed", some .timestamp⟩]⟩, none⟩,
    ⟨"orders.lines", [⟨"sku", .string⟩],
      some ⟨"SELECT sku FROM lines WHERE order_id = ?", [⟨"orders.id", none⟩]⟩, none⟩]

theorem nests_orderDefinitions : orderDefinitions.foldlM register [] = .ok orderDefinitions ∧
    ∃ parent?, Nests orderDefinitions parent? := by
  have hregistered : orderDefinitions.foldlM register [] = .ok orderDefinitions := by
    decide +kernel
  have hbuild : (build orderDefinitions).toOption.isSome := by
    decide +kernel
  cases h : build orderDefinitions with
  | error e => simp [h, Except.toOption] at hbuild
  | ok c => exact ⟨hregistered, (build_ok_iff_nests hregistered).1.mp ⟨c, h⟩⟩

end Build

end Catalog

end NestedViews
