import NestedViews.Proofs.Document
import NestedViews.Scope

namespace NestedViews

/-- The rows around what is nested under a node. The root of a document has no row. -/
def Scope.below (scope : Scope) (group : Option Group) (row : Row) : Scope :=
  match group with
  | some g => ⟨g, row⟩ :: scope
  | none => scope

structure Place where
  scope : Scope
  node : Node

structure Site where
  scope : Scope
  group : Group
  nodes : List Node

namespace Place

def rows (p : Place) : List Row :=
  (p.scope.map Frame.row).reverse

/-- The node of the place has the collection of the site. -/
def Holds (p : Place) (s : Site) : Prop :=
  s.scope = p.scope ∧ p.node.children? s.group.name = some s.nodes

def ofGroup (name : Option String) (places : List Place) : List Place :=
  places.filter fun p => p.node.group.map Group.name = name

end Place

namespace Site

def rows (s : Site) : List Row :=
  s.nodes.map Node.row

def ofGroup (g : Group) (sites : List Site) : List Site :=
  sites.filter fun s => s.group.name = g.name

end Site

namespace Node

mutual

def places (scope : Scope) : Node → List Place
  | .mk group row collections =>
    ⟨scope.below group row, .mk group row collections⟩ ::
      placesInCollections (scope.below group row) collections

def placesInCollections (scope : Scope) : List Collection → List Place
  | [] => []
  | .mk _ nodes :: rest => placesInNodes scope nodes ++ placesInCollections scope rest

def placesInNodes (scope : Scope) : List Node → List Place
  | [] => []
  | n :: rest => n.places scope ++ placesInNodes scope rest

end

mutual

def sites (scope : Scope) : Node → List Site
  | .mk group row collections => sitesInCollections (scope.below group row) collections

def sitesInCollections (scope : Scope) : List Collection → List Site
  | [] => []
  | .mk group nodes :: rest =>
    ⟨scope, group, nodes⟩ :: (sitesInNodes scope nodes ++ sitesInCollections scope rest)

def sitesInNodes (scope : Scope) : List Node → List Site
  | [] => []
  | n :: rest => n.sites scope ++ sitesInNodes scope rest

end

variable {scope : Scope} {g : Group} {row : Row} {nodes : List Node} {collections : List Collection}

@[simp] theorem places_ofRow : (ofRow g row collections).places scope =
    ⟨⟨g, row⟩ :: scope, ofRow g row collections⟩ ::
      placesInCollections (⟨g, row⟩ :: scope) collections := rfl

@[simp] theorem sites_ofRow : (ofRow g row collections).sites scope =
    sitesInCollections (⟨g, row⟩ :: scope) collections := rfl

theorem placesInNodes_eq : placesInNodes scope nodes = nodes.flatMap (places scope) :=
  eq_flatMap rfl (fun _ _ => rfl) nodes

theorem placesInCollections_eq : placesInCollections scope collections =
    collections.flatMap fun collection => collection.nodes.flatMap (places scope) := by
  refine eq_flatMap rfl ?_ collections
  rintro ⟨group, nodes⟩ rest
  rw [placesInCollections, placesInNodes_eq]
  rfl

theorem sitesInNodes_eq : sitesInNodes scope nodes = nodes.flatMap (sites scope) :=
  eq_flatMap rfl (fun _ _ => rfl) nodes

theorem places_root : (root (.mk g nodes)).places scope =
    ⟨scope, root (.mk g nodes)⟩ :: placesInNodes scope nodes := by
  change _ :: (placesInNodes scope nodes ++ []) = _
  rw [List.append_nil]
  rfl

theorem sites_root : (root (.mk g nodes)).sites scope =
    ⟨scope, g, nodes⟩ :: sitesInNodes scope nodes := by
  change _ :: (sitesInNodes scope nodes ++ []) = _
  rw [List.append_nil]
  rfl

def preorder (n : Node) : List Node :=
  (n.places []).map Place.node

theorem map_node_places (n : Node) : ∀ scope, (n.places scope).map Place.node = n.preorder := by
  suffices h : ∀ scope scope', (n.places scope).map Place.node = (n.places scope').map Place.node
    from fun scope => h scope []
  induction n using induction with
  | mk group row collections ih =>
    intro scope scope'
    simp only [places, List.map_cons, placesInCollections_eq, List.map_flatMap]
    congr 1
    refine List.flatMap_congr fun collection hmem => List.flatMap_congr fun n hn => ?_
    exact ih collection hmem n hn _ _

theorem preorder_mk {group : Option Group} : (mk group row collections).preorder =
    mk group row collections ::
      collections.flatMap fun collection => collection.nodes.flatMap preorder := by
  simp only [preorder, places, List.map_cons, placesInCollections_eq, List.map_flatMap]
  simp only [map_node_places]

theorem forall_mem_preorder {P : Node → Prop} {group : Option Group} :
    (∀ m ∈ (mk group row collections).preorder, P m) ↔ P (mk group row collections) ∧
      ∀ collection ∈ collections, ∀ n ∈ collection.nodes, ∀ m ∈ n.preorder, P m := by
  rw [preorder_mk, List.forall_mem_cons]
  simp only [List.mem_flatMap]
  refine and_congr_right fun _ => ⟨fun h collection hc n hn m hm => ?_, ?_⟩
  · exact h m ⟨collection, hc, n, hn, hm⟩
  · rintro h m ⟨collection, hc, n, hn, hm⟩
    exact h collection hc n hn m hm

/-- The places of a document that have a collection of a group, if another group was asked for. -/
def hosts (doc : Node) (scope : Scope) (requested g : Group) : List Place :=
  Place.ofGroup (if g.name = requested.name then none else g.parent) (doc.places scope)

end Node

end NestedViews
