import NestedViews.Document.Basic
import NestedViews.Proofs.Lookup
import NestedViews.Proofs.Success

namespace NestedViews

variable {g : Group} {row : Row} {nodes : List Node} {collections : List Collection}

namespace Node

@[elab_as_elim]
theorem induction {P : Node → Prop} (mk : ∀ group row collections,
      (∀ collection ∈ collections, ∀ n ∈ collection.nodes, P n) → P (.mk group row collections))
    (n : Node) : P n :=
  @Node.rec P (fun collection => ∀ n ∈ collection.nodes, P n)
    (fun collections => ∀ collection ∈ collections, ∀ n ∈ collection.nodes, P n)
    (fun nodes => ∀ n ∈ nodes, P n) mk (fun _ _ ih => ih) (by simp)
    (fun _ _ ih ihs => List.forall_mem_cons.mpr ⟨ih, ihs⟩) (by simp)
    (fun _ _ ih ihs => List.forall_mem_cons.mpr ⟨ih, ihs⟩) n

def countBelow (n : Node) : Nat :=
  countCollections n.collections

@[simp] theorem countNodes_nil : countNodes [] = 0 := rfl

@[simp] theorem countNodes_cons (n : Node) :
    countNodes (n :: nodes) = n.count + countNodes nodes := rfl

@[simp] theorem countCollections_nil : countCollections [] = 0 := rfl

@[simp] theorem countCollections_cons : countCollections (.mk g nodes :: collections) =
    countNodes nodes + countCollections collections := rfl

@[simp] theorem countBelow_ofRow :
    (ofRow g row collections).countBelow = countCollections collections := rfl

@[simp] theorem count_ofRow : (ofRow g row collections).count =
    1 + countCollections collections := rfl

theorem children?_of_mem {n : Node} (hnodup : (n.collections.map fun c => c.group.name).Nodup)
    (hmem : .mk g nodes ∈ n.collections) : n.children? g.name = some nodes := by
  have hfind : n.collections.find? (fun c => c.group.name = g.name) = some (.mk g nodes) :=
    find?_name hnodup hmem
  rw [children?, hfind]
  rfl

mutual

theorem same_refl : (n : Node) → n.same n
  | .mk group row collections => by simp [same, sameCollections_refl collections]

theorem sameCollections_refl : (collections : List Collection) →
    sameCollections collections collections
  | [] => rfl
  | .mk group nodes :: rest => by
    simp [sameCollections, sameNodes_refl nodes, sameCollections_refl rest]

theorem sameNodes_refl : (nodes : List Node) → sameNodes nodes nodes
  | [] => rfl
  | n :: rest => by simp [sameNodes, same_refl n, sameNodes_refl rest]

end

instance : ReflBEq Node := ⟨fun {n} => same_refl n⟩

end Node

end NestedViews
