import NestedViews.Proofs.Catalog.Subtree
import NestedViews.Proofs.Document
import NestedViews.Proofs.Document.Places
import NestedViews.Proofs.Lookup
import NestedViews.Proofs.Success

namespace NestedViews

variable {g h : Group} {row : Row} {nodes : List Node} {collections : List Collection}
variable {scope : Scope} {o : Outline} {outlines : List Outline}

namespace Site

theorem ofGroup_eq_nil {sites : List Site} (hsites : ∀ s ∈ sites, s.group.name ≠ g.name) :
    ofGroup g sites = [] := by
  rw [ofGroup, List.filter_eq_nil_iff]
  intro s hs
  rw [decide_eq_true_eq]
  exact hsites s hs

theorem ofGroup_append (sites sites' : List Site) :
    ofGroup g (sites ++ sites') = ofGroup g sites ++ ofGroup g sites' :=
  List.filter_append _ _

theorem ofGroup_cons_self (sites : List Site) :
    ofGroup g (⟨scope, g, nodes⟩ :: sites) = ⟨scope, g, nodes⟩ :: ofGroup g sites :=
  List.filter_cons_of_pos (by simp)

theorem ofGroup_cons_of_ne (sites : List Site) (hne : h.name ≠ g.name) :
    ofGroup g (⟨scope, h, nodes⟩ :: sites) = ofGroup g sites :=
  List.filter_cons_of_neg (by simpa)

def countNodes (sites : List Site) : Nat :=
  (sites.map fun s => s.nodes.length).sum

@[simp] theorem countNodes_nil : countNodes [] = 0 := rfl

@[simp] theorem countNodes_cons (s : Site) (sites : List Site) :
    countNodes (s :: sites) = s.nodes.length + countNodes sites := rfl

@[simp] theorem countNodes_append (sites sites' : List Site) :
    countNodes (sites ++ sites') = countNodes sites + countNodes sites' := by
  simp [countNodes]

theorem flatMap_ofGroup_perm {groups : List Group} {sites : List Site}
    (hnodup : (groups.map Group.name).Nodup)
    (hsites : ∀ s ∈ sites, s.group.name ∈ groups.map Group.name) :
    (groups.flatMap fun g => ofGroup g sites).Perm sites := by
  induction groups generalizing sites with
  | nil =>
    obtain rfl := List.eq_nil_iff_forall_not_mem.mpr fun s hs => List.not_mem_nil (hsites s hs)
    exact .refl _
  | cons g groups ih =>
    obtain ⟨hg, hnodup⟩ := List.nodup_cons.mp hnodup
    have hothers : ∀ h ∈ groups, ofGroup h sites =
        ofGroup h (sites.filter fun s => !decide (s.group.name = g.name)) := by
      intro h hh
      have hne : h.name ≠ g.name := fun heq => hg (heq ▸ List.mem_map_of_mem hh)
      rw [ofGroup, ofGroup, List.filter_filter]
      congr 1
      funext s
      by_cases hs : s.group.name = h.name <;> simp [hs, hne]
    have hrest : ∀ s ∈ sites.filter fun s => !decide (s.group.name = g.name),
        s.group.name ∈ groups.map Group.name := by
      intro s hs
      obtain ⟨hs, hne⟩ := List.mem_filter.mp hs
      exact (List.mem_cons.mp (hsites s hs)).resolve_left (by simpa using hne)
    rw [List.flatMap_cons, List.flatMap_congr hothers]
    exact ((ih hnodup hrest).append_left _).trans (List.filter_append_perm _ _)

end Site

namespace Place

variable {name : Option String} {places : List Place} {p : Place}

theorem ofGroup_cons_of_pos (hp : p.node.group.map Group.name = name) :
    ofGroup name (p :: places) = p :: ofGroup name places :=
  List.filter_cons_of_pos (by simpa)

theorem ofGroup_cons_of_neg (hp : p.node.group.map Group.name ≠ name) :
    ofGroup name (p :: places) = ofGroup name places :=
  List.filter_cons_of_neg (by simpa)

theorem ofGroup_eq_nil
    (hplaces : ∀ p ∈ places, p.node.group.map Group.name ≠ name) : ofGroup name places = [] := by
  rw [ofGroup, List.filter_eq_nil_iff]
  intro p hp
  rw [decide_eq_true_eq]
  exact hplaces p hp

end Place

namespace Outline

mutual

/-- A node is a row of the group of an outline, with a collection for each nested outline. -/
inductive Shapes : Outline → Node → Prop
  | row {group nested row collections} : row.length = group.arity → ShapesAll nested collections →
      Shapes (.mk group nested) (.ofRow group row collections)

inductive ShapesAll : List Outline → List Collection → Prop
  | nil : ShapesAll [] []
  | cons {o rest nodes collections} : (∀ n ∈ nodes, Shapes o n) → ShapesAll rest collections →
      ShapesAll (o :: rest) (.mk o.group nodes :: collections)

end

def Distinct (outlines : List Outline) : Prop :=
  ((groupsAll outlines).map Group.name).Nodup

theorem groups_eq (o : Outline) : o.groups = o.group :: groupsAll o.nested := by
  cases o with
  | mk group nested => rfl

theorem groupsAll_nested_subset (o : Outline) : groupsAll o.nested ⊆ o.groups := by
  rw [groups_eq]
  exact List.subset_cons_self _ _

theorem mem_groupsAll (ho : o ∈ outlines) (hg : g ∈ o.groups) : g ∈ groupsAll outlines := by
  rw [groupsAll_eq]
  exact List.mem_flatMap.mpr ⟨o, ho, hg⟩

theorem mem_groupsAll_iff : g ∈ groupsAll outlines ↔
    (∃ o ∈ outlines, g = o.group) ∨ ∃ o ∈ outlines, g ∈ groupsAll o.nested := by
  simp only [groupsAll_eq outlines, List.mem_flatMap, groups_eq, List.mem_cons, and_or_left,
    exists_or]

namespace Distinct

theorem nested (hd : (o.groups.map Group.name).Nodup) : Distinct o.nested := by
  rw [groups_eq] at hd
  exact (List.nodup_cons.mp hd).2

theorem name_ne (hd : (o.groups.map Group.name).Nodup) (hh : h ∈ groupsAll o.nested) :
    h.name ≠ o.group.name := by
  rw [groups_eq] at hd
  exact fun heq => (List.nodup_cons.mp hd).1 (heq ▸ List.mem_map_of_mem hh)

theorem first (hd : Distinct (o :: outlines)) : (o.groups.map Group.name).Nodup := by
  rw [Distinct, groupsAll, List.map_append] at hd
  exact (List.nodup_append.mp hd).1

theorem others (hd : Distinct (o :: outlines)) : Distinct outlines := by
  rw [Distinct, groupsAll, List.map_append] at hd
  exact (List.nodup_append.mp hd).2.1

theorem ne (hd : Distinct (o :: outlines)) (hg : g ∈ o.groups) (hh : h ∈ groupsAll outlines) :
    g.name ≠ h.name := by
  rw [Distinct, groupsAll, List.map_append] at hd
  exact (List.nodup_append.mp hd).2.2 _ (List.mem_map_of_mem hg) _ (List.mem_map_of_mem hh)

end Distinct

section Groups

mutual

theorem Shapes.group_mem_of_site : (o : Outline) → (n : Node) → o.Shapes n → ∀ scope,
    ∀ s ∈ n.sites scope, s.group ∈ groupsAll o.nested
  | .mk group nested => by
    rintro _ ⟨_, hnested⟩ scope
    exact ShapesAll.group_mem_of_site nested _ hnested _

theorem ShapesAll.group_mem_of_site : (outlines : List Outline) → (collections : List Collection) →
    ShapesAll outlines collections → ∀ scope, ∀ s ∈ Node.sitesInCollections scope collections,
      s.group ∈ groupsAll outlines
  | [] => by
    rintro _ ⟨⟩ scope s hs
    cases hs
  | o :: rest => by
    rintro _ (_ | ⟨hnodes, hrest⟩) scope s hs
    rw [Node.sitesInCollections, Node.sitesInNodes_eq] at hs
    rcases List.mem_cons.mp hs with rfl | hs
    · exact List.mem_append_left _ o.group_mem_groups
    · rcases List.mem_append.mp hs with hs | hs
      · obtain ⟨n, hn, hs⟩ := List.mem_flatMap.mp hs
        apply List.mem_append_left
        exact o.groupsAll_nested_subset (Shapes.group_mem_of_site o n (hnodes n hn) scope s hs)
      · apply List.mem_append_right
        exact ShapesAll.group_mem_of_site rest _ hrest scope s hs

end

mutual

theorem Shapes.group_mem_of_place : (o : Outline) → (n : Node) → o.Shapes n → ∀ scope,
    ∀ p ∈ n.places scope, ∃ g ∈ o.groups, p.node.group = some g
  | .mk group nested => by
    rintro _ ⟨_, hnested⟩ scope p hp
    rw [Node.places_ofRow] at hp
    rcases List.mem_cons.mp hp with rfl | hp
    · exact ⟨group, .head _, rfl⟩
    · obtain ⟨g, hg, hgroup⟩ := ShapesAll.group_mem_of_place nested _ hnested _ p hp
      exact ⟨g, .tail _ hg, hgroup⟩

theorem ShapesAll.group_mem_of_place : (outlines : List Outline) →
    (collections : List Collection) → ShapesAll outlines collections → ∀ scope,
      ∀ p ∈ Node.placesInCollections scope collections,
        ∃ g ∈ groupsAll outlines, p.node.group = some g
  | [] => by
    rintro _ ⟨⟩ scope p hp
    cases hp
  | o :: rest => by
    rintro _ (_ | ⟨hnodes, hrest⟩) scope p hp
    rw [Node.placesInCollections, Node.placesInNodes_eq] at hp
    rcases List.mem_append.mp hp with hp | hp
    · obtain ⟨n, hn, hp⟩ := List.mem_flatMap.mp hp
      obtain ⟨g, hg, hgroup⟩ := Shapes.group_mem_of_place o n (hnodes n hn) scope p hp
      exact ⟨g, List.mem_append_left _ hg, hgroup⟩
    · obtain ⟨g, hg, hgroup⟩ := ShapesAll.group_mem_of_place rest _ hrest scope p hp
      exact ⟨g, List.mem_append_right _ hg, hgroup⟩

end

theorem group_mem_of_root_site (hnodes : ∀ n ∈ nodes, o.Shapes n) :
    ∀ s ∈ (Node.root (.mk o.group nodes)).sites scope, s.group ∈ o.groups := by
  intro s hs
  rw [Node.sites_root, Node.sitesInNodes_eq] at hs
  rcases List.mem_cons.mp hs with rfl | hs
  · exact o.group_mem_groups
  · obtain ⟨n, hn, hs⟩ := List.mem_flatMap.mp hs
    exact o.groupsAll_nested_subset (Shapes.group_mem_of_site o n (hnodes n hn) scope s hs)

end Groups

section Split

theorem ofGroup_sitesInNodes_self (hd : (o.groups.map Group.name).Nodup)
    (hnodes : ∀ n ∈ nodes, o.Shapes n) :
    Site.ofGroup o.group (Node.sitesInNodes scope nodes) = [] := by
  apply Site.ofGroup_eq_nil
  intro s hs
  rw [Node.sitesInNodes_eq] at hs
  obtain ⟨n, hn, hs⟩ := List.mem_flatMap.mp hs
  exact Distinct.name_ne hd (Shapes.group_mem_of_site o n (hnodes n hn) scope s hs)

theorem ofGroup_sites_first (hd : Distinct (o :: outlines)) (hrest : ShapesAll outlines collections)
    (hh : h ∈ o.groups) :
    Site.ofGroup h (Node.sitesInCollections scope (.mk o.group nodes :: collections)) =
      Site.ofGroup h (⟨scope, o.group, nodes⟩ :: Node.sitesInNodes scope nodes) := by
  have hnil : Site.ofGroup h (Node.sitesInCollections scope collections) = [] :=
    Site.ofGroup_eq_nil fun s hs =>
      (hd.ne hh (ShapesAll.group_mem_of_site outlines _ hrest scope s hs)).symm
  rw [Node.sitesInCollections, ← List.cons_append, Site.ofGroup_append, hnil, List.append_nil]

theorem ofGroup_sites_rest (hd : Distinct (o :: outlines)) (hnodes : ∀ n ∈ nodes, o.Shapes n)
    (hh : h ∈ groupsAll outlines) :
    Site.ofGroup h (Node.sitesInCollections scope (.mk o.group nodes :: collections)) =
      Site.ofGroup h (Node.sitesInCollections scope collections) := by
  have hnil : Site.ofGroup h (Node.sitesInNodes scope nodes) = [] := by
    apply Site.ofGroup_eq_nil
    intro s hs
    rw [Node.sitesInNodes_eq] at hs
    obtain ⟨n, hn, hs⟩ := List.mem_flatMap.mp hs
    have hgroup := Shapes.group_mem_of_site o n (hnodes n hn) scope s hs
    exact hd.ne (o.groupsAll_nested_subset hgroup) hh
  rw [Node.sitesInCollections, Site.ofGroup_cons_of_ne _ (hd.ne o.group_mem_groups hh),
    Site.ofGroup_append, hnil, List.nil_append]

theorem ofGroup_places_first (hd : Distinct (o :: outlines))
    (hrest : ShapesAll outlines collections) (hg : g ∈ o.groups) :
    Place.ofGroup (some g.name)
        (Node.placesInCollections scope (.mk o.group nodes :: collections)) =
      Place.ofGroup (some g.name) (Node.placesInNodes scope nodes) := by
  have hnil : Place.ofGroup (some g.name) (Node.placesInCollections scope collections) = [] := by
    apply Place.ofGroup_eq_nil
    intro p hp
    obtain ⟨g', hg', hgroup⟩ := ShapesAll.group_mem_of_place outlines _ hrest scope p hp
    rw [hgroup, Option.map_some, ne_eq, Option.some.injEq]
    exact (hd.ne hg hg').symm
  rw [Node.placesInCollections, Place.ofGroup, List.filter_append, ← Place.ofGroup,
    ← Place.ofGroup, hnil, List.append_nil]

theorem ofGroup_places_rest (hd : Distinct (o :: outlines)) (hnodes : ∀ n ∈ nodes, o.Shapes n)
    (hg : g ∈ groupsAll outlines) :
    Place.ofGroup (some g.name)
        (Node.placesInCollections scope (.mk o.group nodes :: collections)) =
      Place.ofGroup (some g.name) (Node.placesInCollections scope collections) := by
  have hnil : Place.ofGroup (some g.name) (Node.placesInNodes scope nodes) = [] := by
    apply Place.ofGroup_eq_nil
    intro p hp
    rw [Node.placesInNodes_eq] at hp
    obtain ⟨n, hn, hp⟩ := List.mem_flatMap.mp hp
    obtain ⟨g', hg', hgroup⟩ := Shapes.group_mem_of_place o n (hnodes n hn) scope p hp
    rw [hgroup, Option.map_some, ne_eq, Option.some.injEq]
    exact hd.ne hg' hg
  rw [Node.placesInCollections, Place.ofGroup, List.filter_append, ← Place.ofGroup,
    ← Place.ofGroup, hnil, List.nil_append]

end Split

section Hosts

theorem ShapesAll.map_name (h : ShapesAll outlines collections) :
    collections.map (fun c => c.group.name) = outlines.map fun o => o.group.name := by
  induction outlines generalizing collections with
  | nil =>
    cases h
    rfl
  | cons o rest ih =>
    obtain _ | ⟨_, hrest⟩ := h
    rw [List.map_cons, List.map_cons, ih hrest]
    rfl

theorem Distinct.nodup_names (hd : Distinct outlines) :
    (outlines.map fun o => o.group.name).Nodup := by
  induction outlines with
  | nil => exact .nil
  | cons o rest ih =>
    refine List.nodup_cons.mpr ⟨fun hmem => ?_, ih hd.others⟩
    obtain ⟨o', ho', hname⟩ := List.mem_map.mp hmem
    exact hd.ne o.group_mem_groups (mem_groupsAll ho' o'.group_mem_groups) hname.symm

theorem ShapesAll.exists_collection (h : ShapesAll outlines collections) (hd : Distinct outlines)
    (ho : o ∈ outlines) : ∃ nodes, .mk o.group nodes ∈ collections ∧
      Site.ofGroup o.group (Node.sitesInCollections scope collections) =
        [⟨scope, o.group, nodes⟩] := by
  induction outlines generalizing collections with
  | nil => cases ho
  | cons first rest ih =>
    obtain _ | @⟨_, _, nodes, others, hnodes, hrest⟩ := h
    rcases List.mem_cons.mp ho with rfl | ho
    · refine ⟨nodes, .head _, ?_⟩
      rw [ofGroup_sites_first hd hrest o.group_mem_groups, Site.ofGroup_cons_self,
        ofGroup_sitesInNodes_self hd.first hnodes]
    · obtain ⟨nodes', hmem, hsites⟩ := ih hrest hd.others ho
      refine ⟨nodes', .tail _ hmem, ?_⟩
      rw [ofGroup_sites_rest hd hnodes (mem_groupsAll ho o.group_mem_groups), hsites]

theorem ShapesAll.children? (hshapes : ShapesAll outlines collections) (hd : Distinct outlines)
    (hmem : .mk g nodes ∈ collections) :
    (Node.ofRow h row collections).children? g.name = some nodes :=
  Node.children?_of_mem (hshapes.map_name ▸ hd.nodup_names : (collections.map _).Nodup) hmem

theorem forall₂_holds_nodes {name : Option String}
    (h : ∀ n ∈ nodes, List.Forall₂ Place.Holds (Place.ofGroup name (n.places scope))
      (Site.ofGroup g (n.sites scope))) :
    List.Forall₂ Place.Holds (Place.ofGroup name (Node.placesInNodes scope nodes))
      (Site.ofGroup g (Node.sitesInNodes scope nodes)) := by
  induction nodes with
  | nil => exact .nil
  | cons n rest ih =>
    obtain ⟨hn, hrest⟩ := List.forall_mem_cons.mp h
    rw [Node.placesInNodes, Node.sitesInNodes, Place.ofGroup, Site.ofGroup, List.filter_append,
      List.filter_append]
    exact List.rel_append hn (ih hrest)

mutual

theorem Shapes.forall₂_holds : (o : Outline) → (n : Node) → o.Shapes n → o.Linked →
    (o.groups.map Group.name).Nodup → ∀ scope, ∀ g ∈ groupsAll o.nested,
      List.Forall₂ Place.Holds (Place.ofGroup g.parent (n.places scope))
        (Site.ofGroup g (n.sites scope))
  | .mk group nested => by
    rintro _ ⟨hrow, hnested⟩ ⟨hparent, hlinked⟩ hnodup scope g hg
    have hd : Distinct nested := Distinct.nested hnodup
    rw [Node.places_ofRow, Node.sites_ofRow]
    rcases mem_groupsAll_iff.mp hg with ⟨o, ho, rfl⟩ | hdeep
    · obtain ⟨nodes, hmem, hsites⟩ := hnested.exists_collection hd ho
      rw [hparent o ho, hsites, Place.ofGroup_cons_of_pos, Place.ofGroup_eq_nil]
      · exact .cons ⟨rfl, hnested.children? hd hmem⟩ .nil
      · intro p hp
        obtain ⟨g', hg', hgroup⟩ := ShapesAll.group_mem_of_place nested _ hnested _ p hp
        rw [hgroup, Option.map_some, ne_eq, Option.some.injEq]
        exact Distinct.name_ne hnodup hg'
      · rfl
    · obtain ⟨o, ho, hgo⟩ := hdeep
      obtain ⟨p, hp, hgp⟩ := Linked.exists_parent o (hlinked o ho) g hgo
      rw [Place.ofGroup_cons_of_neg]
      · exact ShapesAll.forall₂_holds nested _ hnested hlinked hd _ g ⟨o, ho, hgo⟩
      · rw [hgp]
        change some group.name ≠ some p.name
        rw [ne_eq, Option.some.injEq]
        exact (Distinct.name_ne hnodup (mem_groupsAll ho hp)).symm

theorem ShapesAll.forall₂_holds : (outlines : List Outline) → (collections : List Collection) →
    ShapesAll outlines collections → (∀ o ∈ outlines, o.Linked) → Distinct outlines →
      ∀ scope g, (∃ o ∈ outlines, g ∈ groupsAll o.nested) →
        List.Forall₂ Place.Holds
          (Place.ofGroup g.parent (Node.placesInCollections scope collections))
          (Site.ofGroup g (Node.sitesInCollections scope collections))
  | [] => by
    rintro _ _ _ _ _ g ⟨o, ho, _⟩
    cases ho
  | o :: rest => by
    rintro _ (_ | ⟨hnodes, hrest⟩) hlinked hd scope g ⟨o', ho', hg⟩
    obtain ⟨hfirst, hlinked⟩ := List.forall_mem_cons.mp hlinked
    rcases List.mem_cons.mp ho' with heq | ho'
    · rw [heq] at hg
      obtain ⟨p, hp, hgp⟩ := Linked.exists_parent o hfirst g hg
      rw [ofGroup_sites_first hd hrest (o.groupsAll_nested_subset hg),
        Site.ofGroup_cons_of_ne _ (Distinct.name_ne hd.first hg).symm, hgp,
        ofGroup_places_first hd hrest hp, ← hgp]
      apply forall₂_holds_nodes
      intro n hn
      exact Shapes.forall₂_holds o n (hnodes n hn) hfirst hd.first scope g hg
    · obtain ⟨p, hp, hgp⟩ := Linked.exists_parent o' (hlinked o' ho') g hg
      have hmem := mem_groupsAll ho' (o'.groupsAll_nested_subset hg)
      rw [ofGroup_sites_rest hd hnodes hmem, hgp,
        ofGroup_places_rest hd hnodes (mem_groupsAll ho' hp), ← hgp]
      exact ShapesAll.forall₂_holds rest _ hrest hlinked hd.others scope g ⟨o', ho', hg⟩

end

theorem forall₂_holds_hosts (hnodes : ∀ n ∈ nodes, o.Shapes n) (hlinked : o.Linked)
    (hnodup : (o.groups.map Group.name).Nodup) (hg : g ∈ o.groups) :
    List.Forall₂ Place.Holds ((Node.root (.mk o.group nodes)).hosts scope o.group g)
      (Site.ofGroup g ((Node.root (.mk o.group nodes)).sites scope)) := by
  rw [Node.hosts, Node.places_root, Node.sites_root]
  rw [groups_eq] at hg
  rcases List.mem_cons.mp hg with rfl | hg
  · rw [if_pos rfl, Place.ofGroup_cons_of_pos, Place.ofGroup_eq_nil, Site.ofGroup_cons_self,
      ofGroup_sitesInNodes_self hnodup hnodes]
    · refine .cons ⟨rfl, ?_⟩ .nil
      simp [Node.children?, Node.root, Node.collections, Collection.group, Collection.nodes]
    · intro p hp
      rw [Node.placesInNodes_eq] at hp
      obtain ⟨n, hn, hp⟩ := List.mem_flatMap.mp hp
      obtain ⟨g', _, hgroup⟩ := Shapes.group_mem_of_place o n (hnodes n hn) scope p hp
      rw [hgroup]
      exact Option.some_ne_none _
    · rfl
  · have hne := Distinct.name_ne hnodup hg
    obtain ⟨p, _, hgp⟩ := Linked.exists_parent o hlinked g hg
    rw [if_neg hne, Site.ofGroup_cons_of_ne _ hne.symm, Place.ofGroup_cons_of_neg]
    · apply forall₂_holds_nodes
      intro n hn
      exact Shapes.forall₂_holds o n (hnodes n hn) hlinked hnodup scope g hg
    · rw [hgp]
      exact (Option.some_ne_none _).symm

end Hosts

section Count

theorem countNodes_eq (h : ∀ n ∈ nodes, n.count = 1 + Site.countNodes (n.sites scope)) :
    Node.countNodes nodes = nodes.length + Site.countNodes (Node.sitesInNodes scope nodes) := by
  induction nodes with
  | nil => rfl
  | cons n rest ih =>
    obtain ⟨hn, hrest⟩ := List.forall_mem_cons.mp h
    rw [Node.countNodes_cons, hn, ih hrest, Node.sitesInNodes, Site.countNodes_append,
      List.length_cons]
    omega

mutual

theorem Shapes.count_eq : (o : Outline) → (n : Node) → o.Shapes n → ∀ scope,
    n.count = 1 + Site.countNodes (n.sites scope)
  | .mk group nested => by
    rintro _ ⟨_, hnested⟩ scope
    rw [Node.count_ofRow, Node.sites_ofRow, ShapesAll.countCollections_eq nested _ hnested]

theorem ShapesAll.countCollections_eq : (outlines : List Outline) →
    (collections : List Collection) → ShapesAll outlines collections → ∀ scope,
      Node.countCollections collections =
        Site.countNodes (Node.sitesInCollections scope collections)
  | [] => by
    rintro _ ⟨⟩ scope
    rfl
  | o :: rest => by
    rintro _ (_ | ⟨hnodes, hrest⟩) scope
    rw [Node.countCollections_cons, ShapesAll.countCollections_eq rest _ hrest scope,
      countNodes_eq fun n hn => Shapes.count_eq o n (hnodes n hn) scope, Node.sitesInCollections,
      Site.countNodes_cons, Site.countNodes_append, Nat.add_assoc]

end

theorem count_root (hnodes : ∀ n ∈ nodes, o.Shapes n) :
    (Node.root (.mk g nodes)).count =
      Site.countNodes ((Node.root (.mk g nodes)).sites scope) := by
  have hcount : (Node.root (.mk g nodes)).count = Node.countNodes nodes := by
    change 0 + (Node.countNodes nodes + 0) = _
    omega
  rw [hcount, countNodes_eq fun n hn => Shapes.count_eq o n (hnodes n hn) scope, Node.sites_root,
    Site.countNodes_cons]

end Count

end Outline

namespace Catalog

variable {c : Catalog}

theorem Coherent.forall₂_holds_hosts (hc : c.Coherent) (hg : g ∈ c.groups)
    (hnodes : ∀ n ∈ nodes, (c.outline g).Shapes n) (hh : h ∈ (c.outline g).groups) :
    List.Forall₂ Place.Holds ((Node.root (.mk g nodes)).hosts scope g h)
      (Site.ofGroup h ((Node.root (.mk g nodes)).sites scope)) := by
  rw [← group_outline c g]
  exact Outline.forall₂_holds_hosts hnodes (hc.linked_outline hg) (hc.nodup_names_outline hg) hh

end Catalog

end NestedViews
