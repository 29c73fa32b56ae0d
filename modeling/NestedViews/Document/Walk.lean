import NestedViews.Document.Basic

namespace NestedViews

/-- What a walk meets. A node is entered before its values, these come before its collections, and
it is left after them. The root of a document is neither entered nor left. -/
inductive Event
  | enterCollection (group : Group)
  | enterNode (group : Group) (row : Row)
  | value (element : Element) (value : Value)
  | leaveNode (group : Group)
  | leaveCollection (group : Group)
  deriving DecidableEq, Repr

section

variable {m : Type → Type} [Monad m]

mutual

def Node.walk (visit : Event → m Unit) : Node → m Unit
  | .mk none _ collections => Node.walkCollections visit collections
  | .mk (some group) row collections => do
    visit (.enterNode group row)
    (group.elements.zip row).forM fun (element, v) => visit (.value element v)
    Node.walkCollections visit collections
    visit (.leaveNode group)

def Node.walkCollections (visit : Event → m Unit) : List Collection → m Unit
  | [] => pure ()
  | .mk group nodes :: rest => do
    visit (.enterCollection group)
    Node.walkNodes visit nodes
    visit (.leaveCollection group)
    Node.walkCollections visit rest

def Node.walkNodes (visit : Event → m Unit) : List Node → m Unit
  | [] => pure ()
  | n :: rest => do
    n.walk visit
    Node.walkNodes visit rest

end

end

end NestedViews
