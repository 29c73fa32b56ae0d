import NestedViews.Proofs.Assembly.Statistics

namespace NestedViews

open Effect

variable {c : Catalog} {g : Group} {n : Node} {nodes : List Node} {collections : List Collection}

namespace Node

/-- A row of a group, with a collection for each of the groups nested right under it, in the order
in which they were registered. -/
structure WellFormed (c : Catalog) (g : Group) (n : Node) : Prop where
  group : n.group = some g
  row : n.row.length = g.arity
  collections : n.collections.map Collection.group =
    c.groups.filter fun child => child.parent = some g.name
  nodup : (n.collections.map fun collection => collection.group.name).Nodup
  nodes : ∀ collection ∈ n.collections, ∀ m ∈ collection.nodes, m.group = some collection.group
  values : (g.elements.map fun e => n.value? e.name) = n.row.map some
  children? : ∀ collection ∈ n.collections,
    n.children? collection.group.name = some collection.nodes

def DocumentOf (c : Catalog) (requested : Group) (doc : Node) : Prop :=
  ∃ nodes, doc = .root (.mk requested nodes) ∧ doc.children? requested.name = some nodes ∧
    (∀ n ∈ nodes, n.WellFormed c requested) ∧
      ∀ p ∈ placesInNodes [] nodes, ∃ g ∈ c.groups, p.node.WellFormed c g

theorem mem_placesInCollections {scope : Scope} {p : Place} :
    p ∈ placesInCollections scope collections ↔
      ∃ collection ∈ collections, ∃ n ∈ collection.nodes, p ∈ n.places scope := by
  simp only [placesInCollections_eq, List.mem_flatMap]

theorem values_ofRow {row : Row} (hnodup : (g.elements.map Element.name).Nodup)
    (hrow : row.length = g.arity) :
    (g.elements.map fun e => (ofRow g row collections).value? e.name) = row.map some := by
  apply List.ext_getElem?
  intro i
  rw [List.getElem?_map, List.getElem?_map]
  cases he : g.elements[i]? with
  | none =>
    have hle : row.length ≤ i := hrow.trans_le (List.getElem?_eq_none_iff.mp he)
    rw [List.getElem?_eq_none hle]
    rfl
  | some e =>
    have hindex : g.elementIndex? e.name = some i :=
      GroupDefinition.elementIndex?_of_getElem? hnodup he
    obtain ⟨hi, _⟩ := List.getElem?_eq_some_iff.mp he
    obtain ⟨v, hvalue⟩ : ∃ v, row[i]? = some v :=
      ⟨_, List.getElem?_eq_getElem (hrow.symm ▸ hi : i < row.length)⟩
    have hread : (ofRow g row collections).value? e.name = row[i]? := by
      change (g.elementIndex? e.name).bind (fun i => row[i]?) = row[i]?
      rw [hindex]
      rfl
    rw [Option.map_some, hread, hvalue]
    rfl

end Node

namespace Outline

variable {outlines : List Outline}

theorem ShapesAll.map_group (h : ShapesAll outlines collections) :
    collections.map Collection.group = outlines.map Outline.group := by
  induction outlines generalizing collections with
  | nil =>
    cases h
    rfl
  | cons o rest ih =>
    obtain _ | ⟨_, hrest⟩ := h
    rw [List.map_cons, List.map_cons, ih hrest]
    rfl

theorem ShapesAll.exists_outline (h : ShapesAll outlines collections) {collection : Collection}
    (hmem : collection ∈ collections) :
    ∃ o ∈ outlines, o.group = collection.group ∧ ∀ n ∈ collection.nodes, o.Shapes n := by
  induction outlines generalizing collections with
  | nil =>
    cases h
    cases hmem
  | cons o rest ih =>
    obtain _ | ⟨hnodes, hrest⟩ := h
    cases hmem with
    | head => exact ⟨o, .head _, rfl, hnodes⟩
    | tail _ hmem =>
      obtain ⟨o', ho', hshapes⟩ := ih hrest hmem
      exact ⟨o', .tail _ ho', hshapes⟩

theorem Shapes.group_eq {o : Outline} (h : o.Shapes n) : n.group = some o.group := by
  obtain ⟨_, _⟩ := h
  rfl

end Outline

namespace Catalog.Coherent

variable (hc : c.Coherent)
include hc

theorem wellFormed_of_shapes (hg : g ∈ c.groups) (hn : (c.outline g).Shapes n) :
    n.WellFormed c g := by
  rw [hc.outline_eq hg] at hn
  obtain @⟨_, _, row, collections, hrow, hnested⟩ := hn
  have hgroups : collections.map Collection.group =
      c.groups.filter fun child => child.parent = some g.name := by
    rw [hnested.map_group, List.map_map, ← hc.children_eq]
    exact (List.map_congr_left fun child _ => c.group_outline child).trans (List.map_id _)
  have hnodup : (collections.map fun collection => collection.group.name).Nodup := by
    have hnames := congrArg (List.map Group.name) hgroups
    rw [List.map_map] at hnames
    exact hnames ▸ hc.names_nodup.sublist (List.filter_sublist.map _)
  refine ⟨rfl, hrow, hgroups, hnodup, ?_, ?_, ?_⟩
  · intro collection hmem m hm
    obtain ⟨o, _, hgroup, hshapes⟩ := hnested.exists_outline hmem
    exact hgroup ▸ (hshapes m hm).group_eq
  · exact Node.values_ofRow (GroupDefinition.nodup_elements_of_check (hc.checked g hg)) hrow
  · rintro ⟨group, nodes⟩ hmem
    exact Node.children?_of_mem hnodup hmem

theorem wellFormed_of_place (hg : g ∈ c.groups) (hn : (c.outline g).Shapes n) (scope : Scope) :
    ∀ p ∈ n.places scope, ∃ h ∈ c.groups, p.node.WellFormed c h := by
  revert n scope
  apply hc.induction _ hg
  intro g hg ih n hn scope p hp
  have hwell := hc.wellFormed_of_shapes hg hn
  rw [hc.outline_eq hg] at hn
  obtain @⟨_, _, row, collections, hrow, hnested⟩ := hn
  rw [Node.places_ofRow, List.mem_cons, Node.mem_placesInCollections] at hp
  rcases hp with rfl | ⟨collection, hmem, m, hm, hp⟩
  · exact ⟨g, hg, hwell⟩
  · obtain ⟨o, ho, _, hshapes⟩ := hnested.exists_outline hmem
    obtain ⟨child, hchild, rfl⟩ := List.mem_map.mp ho
    exact ih child hchild (hshapes m hm) _ p hp

theorem documentOf_of_shapes (hg : g ∈ c.groups) (hnodes : ∀ n ∈ nodes, (c.outline g).Shapes n) :
    (Node.root (.mk g nodes)).DocumentOf c g := by
  have hcollection : (Node.root (.mk g nodes)).children? g.name = some nodes := by
    apply Node.children?_of_mem
    · exact List.nodup_singleton _
    · exact .head _
  refine ⟨nodes, rfl, hcollection, fun n hn => hc.wellFormed_of_shapes hg (hnodes n hn), ?_⟩
  intro p hp
  rw [Node.placesInNodes_eq, List.mem_flatMap] at hp
  obtain ⟨n, hn, hp⟩ := hp
  exact hc.wellFormed_of_place hg (hnodes n hn) [] p hp

end Catalog.Coherent

namespace Assembler

variable {σ : Type} {a : Assembler σ} {r : Recorded σ} {world : σ} {scope : Scope}
variable {name : String} {rows : List Row}

theorem ends_assembleIn_documentOf (hc : a.catalog.Coherent) (hg : g ∈ a.catalog.groups) :
    Ends (a.recorded.assembleIn g scope) r (fun result _ => result.1.DocumentOf a.catalog g)
      fun _ _ => True := by
  apply (ends_assembleIn_shapes hc hg).imp
  rintro ⟨_, _⟩ _ ⟨nodes, hnodes, rfl, _⟩
  exact hc.documentOf_of_shapes hg hnodes

theorem ends_assembleWithStats_documentOf (hc : a.catalog.Coherent) :
    Ends (a.recorded.assembleWithStats name) r
      (fun result _ => ∃ g, a.catalog.group? name = some g ∧ result.1.DocumentOf a.catalog g)
      fun _ _ => True := by
  apply ends_assembleWithStats
  intro g hname
  apply (ends_assembleIn_documentOf hc (hc.group?_eq_some.mp hname).1).imp
  exact fun _ _ h => ⟨g, hname, h⟩

theorem ends_assembleWithin_documentOf (hc : a.catalog.Coherent) :
    Ends (a.recorded.assembleWithin name rows) r
      (fun doc _ => ∃ g, a.catalog.group? name = some g ∧ doc.DocumentOf a.catalog g)
      fun _ _ => True := by
  apply ends_assembleWithin
  intro g hname
  apply (ends_assembleIn_documentOf hc (hc.group?_eq_some.mp hname).1).imp
  exact fun _ _ h => ⟨g, hname, h⟩

inductive Gives (a : Assembler σ) (world : σ) (name : String) (doc : Node) : Prop
  | withStats {stats : Stats} (h : (a.assembleWithStats name world).1 = .ok (doc, stats))
  | whole (h : (a.assemble name world).1 = .ok doc)
  | within {rows : List Row} (h : (a.assembleWithin name rows world).1 = .ok doc)

theorem Gives.documentOf {doc : Node} (h : a.Gives world name doc) (hc : a.catalog.Built) :
    ∃ g, a.catalog.group? name = some g ∧ doc.DocumentOf a.catalog g := by
  cases h with
  | withStats hok =>
    obtain ⟨_, _, _, h⟩ := Recorded.exists_ok (mirrors_assembleWithStats a.mirrors_recorded name)
      (ends_assembleWithStats_documentOf hc.coherent) hok
    exact h
  | whole hok =>
    have hends : Ends (a.recorded.assemble name) ⟨world, []⟩
        (fun doc _ => ∃ g, a.catalog.group? name = some g ∧ doc.DocumentOf a.catalog g)
        fun _ _ => True := by
      rw [assemble_eq, ends_bind]
      exact ends_assembleWithStats_documentOf hc.coherent
    obtain ⟨_, _, _, h⟩ := Recorded.exists_ok (mirrors_assemble a.mirrors_recorded name) hends hok
    exact h
  | within hok =>
    obtain ⟨_, _, _, h⟩ := Recorded.exists_ok (mirrors_assembleWithin a.mirrors_recorded name _)
      (ends_assembleWithin_documentOf hc.coherent) hok
    exact h

theorem assembled_wellFormed (hc : a.catalog.Built) (world : σ) (name : String) :
    (∀ doc stats, (a.assembleWithStats name world).1 = .ok (doc, stats) →
      ∃ g, a.catalog.group? name = some g ∧ doc.DocumentOf a.catalog g) ∧
    (∀ doc, (a.assemble name world).1 = .ok doc →
      ∃ g, a.catalog.group? name = some g ∧ doc.DocumentOf a.catalog g) ∧
    ∀ rows doc, (a.assembleWithin name rows world).1 = .ok doc →
      ∃ g, a.catalog.group? name = some g ∧ doc.DocumentOf a.catalog g :=
  ⟨fun _ _ hok => (Gives.withStats hok).documentOf hc, fun _ hok => (Gives.whole hok).documentOf hc,
    fun _ _ hok => (Gives.within hok).documentOf hc⟩

theorem assembled_wellFormed_orders : ∃ doc g,
    (orderAssembler.assemble "orders" ()).1 = .ok doc ∧
      orderAssembler.catalog.group? "orders" = some g ∧ doc.DocumentOf orderAssembler.catalog g := by
  obtain ⟨doc, hok⟩ := exists_assemble_orders
  obtain ⟨g, hname, hdoc⟩ := (assembled_wellFormed built_orderAssembler () "orders").2.1 doc hok
  exact ⟨doc, g, hok, hname, hdoc⟩

end Assembler

end NestedViews
