import NestedViews.Proofs.Document

namespace NestedViews

mutual

/-- The document that is left when all collections of the named groups are removed, with what is
nested under them. -/
def Node.without (names : List String) : Node → Node
  | .mk group row collections => .mk group row (Node.withoutCollections names collections)

def Node.withoutCollections (names : List String) : List Collection → List Collection
  | [] => []
  | .mk group nodes :: rest =>
    if group.name ∈ names then Node.withoutCollections names rest
    else .mk group (Node.withoutNodes names nodes) :: Node.withoutCollections names rest

def Node.withoutNodes (names : List String) : List Node → List Node
  | [] => []
  | n :: rest => n.without names :: Node.withoutNodes names rest

end

namespace Node

variable {names : List String} {g : Group} {row : Row} {nodes : List Node}
variable {collections : List Collection}

@[simp] theorem without_ofRow : (ofRow g row collections).without names =
    ofRow g row (withoutCollections names collections) := rfl

theorem withoutCollections_cons_of_mem (hg : g.name ∈ names) :
    withoutCollections names (.mk g nodes :: collections) = withoutCollections names collections :=
  if_pos hg

theorem withoutCollections_cons_of_not_mem (hg : g.name ∉ names) :
    withoutCollections names (.mk g nodes :: collections) =
      .mk g (withoutNodes names nodes) :: withoutCollections names collections :=
  if_neg hg

theorem without_root (hg : g.name ∉ names) :
    (root (.mk g nodes)).without names = root (.mk g (withoutNodes names nodes)) := by
  rw [root, without, withoutCollections_cons_of_not_mem hg]
  rfl

mutual

theorem count_without_le : (n : Node) → (n.without names).count ≤ n.count
  | .mk _ _ collections => by
    rw [without, count, count]
    exact Nat.add_le_add_left (countCollections_without_le collections) _

theorem countCollections_without_le : (collections : List Collection) →
    countCollections (withoutCollections names collections) ≤ countCollections collections
  | [] => Nat.le_refl _
  | .mk g nodes :: rest => by
    have hrest := countCollections_without_le rest
    rw [countCollections_cons]
    by_cases hg : g.name ∈ names
    · rw [withoutCollections_cons_of_mem hg]
      exact Nat.le_add_left_of_le hrest
    · rw [withoutCollections_cons_of_not_mem hg, countCollections_cons]
      exact Nat.add_le_add (countNodes_without_le nodes) hrest

theorem countNodes_without_le : (nodes : List Node) →
    countNodes (withoutNodes names nodes) ≤ countNodes nodes
  | [] => Nat.le_refl _
  | n :: rest => Nat.add_le_add (count_without_le n) (countNodes_without_le rest)

end

end Node

end NestedViews
