import NestedViews.Proofs.Document

namespace NestedViews

mutual

inductive Node.Alike : Node → Node → Prop
  | node {group row collections collections'} : Node.AlikeCollections collections collections' →
      Node.Alike (.mk group row collections) (.mk group row collections')

inductive Node.AlikeNodes : List Node → List Node → Prop
  | nil : Node.AlikeNodes [] []
  | cons {n n' nodes nodes'} : Node.Alike n n' → Node.AlikeNodes nodes nodes' →
      Node.AlikeNodes (n :: nodes) (n' :: nodes')

/-- Collections that are alike one by one once they are put into some order. -/
inductive Node.AlikeCollections : List Collection → List Collection → Prop
  | nil : Node.AlikeCollections [] []
  | cons {group nodes nodes' rest rest'} : Node.AlikeNodes nodes nodes' →
      Node.AlikeCollections rest rest' →
      Node.AlikeCollections (.mk group nodes :: rest) (.mk group nodes' :: rest')
  | swap (first second : Collection) (rest : List Collection) :
      Node.AlikeCollections (first :: second :: rest) (second :: first :: rest)
  | trans {collections collections' collections''} :
      Node.AlikeCollections collections collections' →
      Node.AlikeCollections collections' collections'' →
      Node.AlikeCollections collections collections''

end

namespace Node

mutual

theorem Alike.refl : (n : Node) → n.Alike n
  | .mk _ _ collections => .node (AlikeCollections.refl collections)

theorem AlikeNodes.refl : (nodes : List Node) → AlikeNodes nodes nodes
  | [] => .nil
  | n :: rest => .cons (Alike.refl n) (AlikeNodes.refl rest)

theorem AlikeCollections.refl : (collections : List Collection) →
    AlikeCollections collections collections
  | [] => .nil
  | .mk _ nodes :: rest => .cons (AlikeNodes.refl nodes) (AlikeCollections.refl rest)

end

mutual

theorem Alike.symm {n n' : Node} : n.Alike n' → n'.Alike n
  | .node h => .node h.symm

theorem AlikeNodes.symm {nodes nodes' : List Node} : AlikeNodes nodes nodes' →
    AlikeNodes nodes' nodes
  | .nil => .nil
  | .cons h hrest => .cons h.symm hrest.symm

theorem AlikeCollections.symm {collections collections' : List Collection} :
    AlikeCollections collections collections' → AlikeCollections collections' collections
  | .nil => .nil
  | .cons h hrest => .cons h.symm hrest.symm
  | .swap first second rest => .swap second first rest
  | .trans h h' => .trans h'.symm h.symm

end

mutual

theorem Alike.count_eq {n n' : Node} : n.Alike n' → n.count = n'.count
  | .node h => by rw [count, count, h.count_eq]

theorem AlikeNodes.count_eq {nodes nodes' : List Node} : AlikeNodes nodes nodes' →
    countNodes nodes = countNodes nodes'
  | .nil => rfl
  | .cons h hrest => by rw [countNodes_cons, countNodes_cons, h.count_eq, hrest.count_eq]

theorem AlikeCollections.count_eq {collections collections' : List Collection} :
    AlikeCollections collections collections' →
      countCollections collections = countCollections collections'
  | .nil => rfl
  | .cons h hrest => by
    rw [countCollections_cons, countCollections_cons, h.count_eq, hrest.count_eq]
  | .swap (.mk _ _) (.mk _ _) _ => by
    simp only [countCollections_cons]
    exact Nat.add_left_comm _ _ _
  | .trans h h' => h.count_eq.trans h'.count_eq

end

variable {g : Group} {nodes nodes' : List Node}

theorem AlikeNodes.root (h : AlikeNodes nodes nodes') :
    (Node.root (.mk g nodes)).Alike (.root (.mk g nodes')) :=
  .node (.cons h .nil)

end Node

end NestedViews
