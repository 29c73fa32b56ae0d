import NestedViews.Group.Definition
import NestedViews.Query.Placeholder

namespace NestedViews

/-- Where the value of one parameter comes from. The parent itself is no level up. -/
structure Slot where
  binding : Binding
  group : String
  levelsUp : Nat
  position : Nat
  source : ValueType
  deriving DecidableEq, Repr

structure Plan where
  query : String
  slots : List Slot
  deriving DecidableEq, Repr

namespace Slot

def compile (group : String) (ancestors : List GroupDefinition) (b : Binding) :
    Except Error Slot := do
  let some (target, element) := splitQualified? b.element | throw (.elementNotFound b.element)
  let some levelsUp := ancestors.findIdx? (·.name = target)
    | throw (.schema (.notAncestor group b.element target))
  let some ancestor := ancestors[levelsUp]?
    | throw (.schema (.notAncestor group b.element target))
  let some position := ancestor.elementIndex? element | throw (.elementNotFound b.element)
  let some found := ancestor.elements[position]? | throw (.elementNotFound b.element)
  match b.expected with
  | some expected =>
    if !found.type.canBecome expected then
      throw (.schema (.neverCoerces group b.element found.type.name expected.name))
  | none => pure ()
  return ⟨b, target, levelsUp, position, found.type⟩

end Slot

namespace Plan

def compile (group : String) (template : QueryTemplate) (ancestors : List GroupDefinition) :
    Except Error Plan := do
  let found ← match Query.placeholders template.query with
    | .ok found => pure found
    | .error fault => throw (.schema (.inGroup group fault))
  if found.length ≠ template.bindings.length then
    throw (.schema (.placeholderCount group found.length template.bindings.length))
  return ⟨template.query, ← template.bindings.mapM (Slot.compile group ancestors)⟩

end Plan

end NestedViews
