import NestedViews.Catalog.Basic
import NestedViews.Document.Basic

namespace NestedViews

inductive Outline
  | mk (group : Group) (nested : List Outline)

namespace Outline

def group : Outline → Group
  | .mk group _ => group

def nested : Outline → List Outline
  | .mk _ nested => nested

end Outline

namespace Catalog

def outlineTo (c : Catalog) : Nat → Group → Outline
  | 0, group => .mk group []
  | levels + 1, group => .mk group ((c.children group.name).map (c.outlineTo levels))

/-- The outline of a group. Groups below each other are different ones, so there are fewer levels
than groups. -/
def outline (c : Catalog) (group : Group) : Outline :=
  c.outlineTo c.groups.length group

end Catalog

end NestedViews
