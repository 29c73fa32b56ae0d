import NestedViews.Catalog.Basic
import NestedViews.Value.Basic

namespace NestedViews

mutual

/-- A row of a group with its collections. The root of a document is a node of no group. -/
inductive Node
  | mk (group : Option Group) (row : Row) (collections : List Collection)

inductive Collection
  | mk (group : Group) (nodes : List Node)

end

namespace Collection

def group : Collection → Group
  | .mk group _ => group

def nodes : Collection → List Node
  | .mk _ nodes => nodes

end Collection

namespace Node

def group : Node → Option Group
  | .mk group _ _ => group

def row : Node → Row
  | .mk _ row _ => row

def collections : Node → List Collection
  | .mk _ _ collections => collections

def ofRow (group : Group) (row : Row) (collections : List Collection) : Node :=
  .mk (some group) row collections

def root (collection : Collection) : Node :=
  .mk none [] [collection]

def isRoot (n : Node) : Bool :=
  n.group.isNone

def value? (n : Node) (element : String) : Option Value := do
  let group ← n.group
  n.row[← group.elementIndex? element]?

/-- The nodes of a group under a node. The group goes by its name, or by its short name if none
goes by that name. -/
def children? (n : Node) (name : String) : Option (List Node) :=
  ((n.collections.find? fun c => c.group.name = name).or
    (n.collections.find? fun c => c.group.name = name ∨ c.group.shortName = name)).map
      Collection.nodes

end Node

mutual

def Node.count : Node → Nat
  | .mk group _ collections => (if group.isSome then 1 else 0) + Node.countCollections collections

def Node.countCollections : List Collection → Nat
  | [] => 0
  | .mk _ nodes :: rest => Node.countNodes nodes + Node.countCollections rest

def Node.countNodes : List Node → Nat
  | [] => 0
  | n :: rest => n.count + Node.countNodes rest

end

mutual

def Node.depth : Node → Nat
  | .mk group _ collections => (if group.isSome then 1 else 0) + Node.depthCollections collections

def Node.depthCollections : List Collection → Nat
  | [] => 0
  | .mk _ nodes :: rest => max (Node.depthNodes nodes) (Node.depthCollections rest)

def Node.depthNodes : List Node → Nat
  | [] => 0
  | n :: rest => max n.depth (Node.depthNodes rest)

end

mutual

def Node.same : Node → Node → Bool
  | .mk group row collections, .mk group' row' collections' =>
    group.map Group.name == group'.map Group.name && row == row' &&
      Node.sameCollections collections collections'

def Node.sameCollections : List Collection → List Collection → Bool
  | [], [] => true
  | .mk group nodes :: rest, .mk group' nodes' :: rest' =>
    group.name == group'.name && Node.sameNodes nodes nodes' && Node.sameCollections rest rest'
  | _, _ => false

def Node.sameNodes : List Node → List Node → Bool
  | [], [] => true
  | n :: rest, n' :: rest' => n.same n' && Node.sameNodes rest rest'
  | _, _ => false

end

instance : BEq Node := ⟨Node.same⟩

end NestedViews
