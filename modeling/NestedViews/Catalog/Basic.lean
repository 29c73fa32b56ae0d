import NestedViews.Group.Plan
import NestedViews.Nesting.Basic

namespace NestedViews

structure Group where
  definition : GroupDefinition
  parent : Option String
  plan : Option Plan
  deriving DecidableEq, Repr

namespace Group

def name (g : Group) : String := g.definition.name

def shortName (g : Group) : String := NestedViews.shortName g.name

def elements (g : Group) : List Element := g.definition.elements

def arity (g : Group) : Nat := g.definition.arity

def isVirtual (g : Group) : Bool := g.plan.isSome

def elementIndex? (g : Group) (name : String) : Option Nat := g.definition.elementIndex? name

def element? (g : Group) (name : String) : Option Element := g.definition.element? name

end Group

structure Catalog where
  groups : List Group
  nesting : Nesting
  deriving DecidableEq, Repr

namespace Catalog

def names (c : Catalog) : List String :=
  c.groups.map Group.name

def group? (c : Catalog) (name : String) : Option Group :=
  c.groups.find? (·.name = name)

def group (c : Catalog) (name : String) : Except Error Group :=
  match c.group? name with
  | some g => .ok g
  | none => .error (.groupNotFound name)

def element? (c : Catalog) (name : String) : Option (Group × Nat) := do
  let (group, element) ← splitQualified? name
  let g ← c.group? group
  return (g, ← g.elementIndex? element)

def element (c : Catalog) (name : String) : Except Error (Group × Nat) :=
  match c.element? name with
  | some found => .ok found
  | none => .error (.elementNotFound name)

def children (c : Catalog) (name : String) : List Group :=
  (c.nesting.children name).filterMap c.group?

def ancestors (c : Catalog) (name : String) : List Group :=
  (c.nesting.ancestors name).filterMap c.group?

def roots (c : Catalog) : List Group :=
  (c.nesting.roots.filterMap c.group?).filter Group.isVirtual

end Catalog

end NestedViews
