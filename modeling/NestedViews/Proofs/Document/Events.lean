import NestedViews.Document.Walk
import NestedViews.Proofs.Document

namespace NestedViews

mutual

def Node.events : Node → List Event
  | .mk none _ collections => Node.eventsInCollections collections
  | .mk (some group) row collections =>
    .enterNode group row :: ((group.elements.zip row).map (fun (element, v) => .value element v) ++
      (Node.eventsInCollections collections ++ [.leaveNode group]))

def Node.eventsInCollections : List Collection → List Event
  | [] => []
  | .mk group nodes :: rest =>
    .enterCollection group ::
      (Node.eventsInNodes nodes ++ .leaveCollection group :: Node.eventsInCollections rest)

def Node.eventsInNodes : List Node → List Event
  | [] => []
  | n :: rest => n.events ++ Node.eventsInNodes rest

end

namespace Node

theorem eventsInNodes_eq (nodes : List Node) : eventsInNodes nodes = nodes.flatMap events :=
  eq_flatMap rfl (fun _ _ => rfl) nodes

theorem eventsInCollections_eq (collections : List Collection) :
    eventsInCollections collections = collections.flatMap fun collection =>
      .enterCollection collection.group ::
        (collection.nodes.flatMap events ++ [.leaveCollection collection.group]) := by
  refine eq_flatMap rfl ?_ collections
  rintro ⟨group, nodes⟩ rest
  rw [eventsInCollections, eventsInNodes_eq, List.cons_append, List.append_assoc]
  rfl

variable {m : Type → Type} [Monad m] [LawfulMonad m] (visit : Event → m Unit)

mutual

theorem walk_eq : (n : Node) → n.walk visit = n.events.forM visit
  | .mk none _ collections => by
    rw [walk, events, walkCollections_eq collections]
  | .mk (some group) row collections => by
    rw [walk, events, walkCollections_eq collections]
    simp

theorem walkCollections_eq : (collections : List Collection) →
    walkCollections visit collections = (eventsInCollections collections).forM visit
  | [] => rfl
  | .mk group nodes :: rest => by
    rw [walkCollections, eventsInCollections, walkNodes_eq nodes, walkCollections_eq rest]
    simp

theorem walkNodes_eq : (nodes : List Node) →
    walkNodes visit nodes = (eventsInNodes nodes).forM visit
  | [] => rfl
  | n :: rest => by
    rw [walkNodes, eventsInNodes, walk_eq n, walkNodes_eq rest]
    simp

end

end Node

end NestedViews
