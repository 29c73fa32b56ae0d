import NestedViews.Proofs.Assembly.Meaning
import NestedViews.Proofs.Document.Places

namespace NestedViews

variable {c : Catalog} {answer : String → List Value → Except Error (List Row)} {scope : Scope}
variable {g : Group} {groups : List Group} {nodes : List Node} {collections : List Collection}

/-- What is nested at a place, under a node of a group, is what the groups nested under that group
evaluate to there. -/
structure Place.Evaluated (c : Catalog) (answer : String → List Value → Except Error (List Row))
    (g : Group) (p : Place) : Prop where
  mem : g ∈ c.groups
  group_eq : p.node.group = some g
  nested : EvaluatesNested c answer p.scope (c.children g.name) p.node.collections
  around : ∀ child ∈ c.children g.name, c.Around child p.scope

namespace EvaluatesNested

theorem map_name (h : EvaluatesNested c answer scope groups collections) :
    collections.map (fun c => c.group.name) = groups.map Group.name := by
  induction groups generalizing collections with
  | nil =>
    rw [evaluatesNested_nil.mp h]
    rfl
  | cons g groups ih =>
    obtain ⟨nodes, rest, _, hrest, rfl⟩ := evaluatesNested_cons.mp h
    rw [List.map_cons, List.map_cons, ih hrest]
    rfl

theorem exists_mem (h : EvaluatesNested c answer scope groups collections) (hg : g ∈ groups) :
    ∃ nodes, .mk g nodes ∈ collections ∧ Evaluates c answer scope g nodes := by
  induction groups generalizing collections with
  | nil => cases hg
  | cons first groups ih =>
    obtain ⟨nodes, rest, hnodes, hrest, rfl⟩ := evaluatesNested_cons.mp h
    rcases List.mem_cons.mp hg with rfl | hg
    · exact ⟨nodes, .head _, hnodes⟩
    · obtain ⟨nodes', hmem, hnodes'⟩ := ih hrest hg
      exact ⟨nodes', .tail _ hmem, hnodes'⟩

theorem exists_of_place {p : Place} (h : EvaluatesNested c answer scope groups collections)
    (hp : p ∈ Node.placesInCollections scope collections) :
    ∃ g ∈ groups, ∃ nodes, Evaluates c answer scope g nodes ∧
      p ∈ Node.placesInNodes scope nodes := by
  induction groups generalizing collections with
  | nil =>
    rw [evaluatesNested_nil.mp h] at hp
    cases hp
  | cons g groups ih =>
    obtain ⟨nodes, rest, hnodes, hrest, rfl⟩ := evaluatesNested_cons.mp h
    rcases List.mem_append.mp hp with hp | hp
    · exact ⟨g, .head _, nodes, hnodes, hp⟩
    · obtain ⟨g', hg', nodes', hnodes', hp⟩ := ih hrest hp
      exact ⟨g', .tail _ hg', nodes', hnodes', hp⟩

end EvaluatesNested

theorem Evaluates.evaluated (hc : c.Coherent) (hg : g ∈ c.groups) (haround : c.Around g scope)
    (h : Evaluates c answer scope g nodes) :
    ∀ p ∈ Node.placesInNodes scope nodes, ∃ g, p.Evaluated c answer g := by
  revert scope nodes
  apply hc.induction _ hg
  intro g hg ih scope nodes haround h p hp
  obtain ⟨_, _, _, hrows⟩ := h
  rw [Node.placesInNodes_eq] at hp
  obtain ⟨n, hn, hp⟩ := List.mem_flatMap.mp hp
  obtain ⟨row, hrow, collections, hnested, rfl⟩ :=
    exists_of_forall₂ (evaluatesRows_iff.mp hrows).flip hn
  rw [← hc.children_eq] at hnested
  have hpush : ∀ child ∈ c.children g.name, c.Around child (⟨g, row⟩ :: scope) :=
    fun child hchild => haround.push hc hg hchild hrow
  rw [Node.places_ofRow] at hp
  rcases List.mem_cons.mp hp with rfl | hp
  · exact ⟨g, hg, rfl, hnested, hpush⟩
  · obtain ⟨child, hchild, nodes', hnodes', hp⟩ := hnested.exists_of_place hp
    exact ih child hchild (hpush child hchild) hnodes' p hp

theorem Place.Evaluated.exists_children {p : Place} {child : Group} (h : p.Evaluated c answer g)
    (hc : c.Coherent) (hchild : child ∈ c.children g.name) :
    ∃ nodes, p.node.children? child.name = some nodes ∧
      Evaluates c answer p.scope child nodes := by
  obtain ⟨nodes, hmem, hnodes⟩ := h.nested.exists_mem hchild
  refine ⟨nodes, Node.children?_of_mem ?_ hmem, hnodes⟩
  rw [h.nested.map_name, hc.children_eq]
  exact (List.filter_sublist.map _).nodup hc.names_nodup

namespace Assembler

variable {σ : Type} {a : Assembler σ} {inv : σ → Prop} {world world' : σ} {name : String}
variable {doc : Node}

theorem placeOf_rows (haround : c.Around g scope) :
    placeOf (c.ancestors g.name).reverse (scope.map Frame.row).reverse = scope := by
  have hlength : (scope.map Frame.group).length = (scope.map Frame.row).length := by simp
  rw [placeOf, ← haround.groups_eq, ← List.reverse_zipWith hlength, List.reverse_reverse,
    List.zipWith_map, List.zipWith_self]
  exact List.map_id scope

theorem fits_rows (haround : c.Around g scope) :
    List.Forall₂ (fun g row => row.length = g.arity) (c.ancestors g.name).reverse
      (scope.map Frame.row).reverse := by
  rw [List.forall₂_reverse_iff, ← haround.groups_eq, List.forall₂_map_left_iff,
    List.forall₂_map_right_iff, List.forall₂_same]
  exact haround.fits

/-- An assembly within rows of a document, whatever its strategy, succeeds with what is nested in
the document under these rows. -/
theorem assembleWithin_subtree (hc : a.catalog.Built) (hsteady : a.context.Steady answer inv)
    (hlimit : a.config.rowLimit = 0) (hworld : inv world)
    (hok : (a.assemble name world).1 = .ok doc) (hworld' : inv world') (s : Strategy) :
    ∀ place ∈ doc.places [], ∀ h, place.node.group = some h →
      ∀ g ∈ a.catalog.children h.name, ∃ nodes, place.node.children? g.name = some nodes ∧
        ((a.withStrategy s).assembleWithin g.name place.rows world').1 =
          .ok (.root (.mk g nodes)) := by
  intro place hplace h hgroup g hchild
  obtain ⟨requested, hname, hparent, nodes, hnodes, _, rfl⟩ :=
    (assemble_eq_ok hc.coherent hsteady hworld).mp hok
  have hrequested := (hc.coherent.group?_eq_some.mp hname).1
  rw [Node.places_root] at hplace
  rcases List.mem_cons.mp hplace with rfl | hplace
  · cases hgroup
  · obtain ⟨h', hevaluated⟩ := hnodes.evaluated hc.coherent hrequested
      (.nil hc.coherent hrequested hparent) place hplace
    cases hgroup.symm.trans hevaluated.group_eq
    obtain ⟨nodes', hchildren, hnodes'⟩ := hevaluated.exists_children hc.coherent hchild
    have haround := hevaluated.around g hchild
    have hg := (hc.coherent.mem_children.mp hchild).1
    refine ⟨nodes', hchildren, ?_⟩
    rw [assembleWithin_eq_ok (a := a.withStrategy s) hc.coherent hsteady hworld']
    refine ⟨g, hc.coherent.group?_of_mem hg, fits_rows haround, nodes', ?_, .inl hlimit, rfl⟩
    change Evaluates _ _ (placeOf (a.catalog.ancestors g.name).reverse place.rows) _ _
    rwa [Place.rows, placeOf_rows haround]

theorem assembleWithin_lines : ∃ doc, (orderAssembler.assemble "orders" ()).1 = .ok doc ∧
    ∃ place ∈ doc.places [], ∃ h, place.node.group = some h ∧ h.name = "orders.lines" ∧
      ∃ g ∈ orderAssembler.catalog.children h.name, ∃ nodes,
        place.node.children? g.name = some nodes ∧
          ((orderAssembler.withStrategy .batched).assembleWithin g.name place.rows ()).1 =
            .ok (.root (.mk g nodes)) := by
  have hfound : ((orderAssembler.assemble "orders" ()).1.toOption.bind fun doc =>
      (doc.places []).find? fun p => p.node.group.map Group.name = some "orders.lines").isSome := by
    cbv
  obtain ⟨place, hplace⟩ := Option.isSome_iff_exists.mp hfound
  obtain ⟨doc, hdoc, hfind⟩ := Option.bind_eq_some_iff.mp hplace
  obtain ⟨h, hgroup, hname⟩ : ∃ h, place.node.group = some h ∧ h.name = "orders.lines" := by
    simpa using List.find?_some hfind
  obtain ⟨g, hchild, _⟩ :
      ∃ g ∈ orderAssembler.catalog.children "orders.lines", g.name = "parcels" := by
    decide +kernel
  have hok : (orderAssembler.assemble "orders" ()).1 = .ok doc := eq_ok_of_toOption hdoc
  rw [← hname] at hchild
  have hmem := List.mem_of_find?_eq_some hfind
  obtain ⟨nodes, hnodes⟩ := assembleWithin_subtree built_orderAssembler steady_orderAssembler rfl
    trivial hok trivial .batched place hmem h hgroup g hchild
  exact ⟨doc, hok, place, hmem, h, hgroup, hname, g, hchild, nodes, hnodes⟩

end Assembler

end NestedViews
