import NestedViews.Catalog.Basic
import NestedViews.Value.Coercion

namespace NestedViews

structure Frame where
  group : Group
  row : Row
  deriving DecidableEq, Repr

/-- The rows around a place, nearest first. -/
abbrev Scope := List Frame

namespace Scope

def path (s : Scope) : List String :=
  (s.map fun f => f.group.name).reverse

def containsGroup (s : Scope) (name : String) : Bool :=
  s.any fun f => f.group.name = name

end Scope

def Group.checkRow (g : Group) (row : Row) : Except Error Unit :=
  if row.length = g.arity then .ok ()
  else .error (.binding (.rowLength g.name row.length g.arity))

namespace Slot

def convert (s : Slot) (v : Value) : Except Error Value :=
  match s.binding.expected with
  | none => .ok v
  | some type =>
    match v.coerce type with
    | .error (.typeMismatch expected actual _) =>
      .error (.typeMismatch expected actual s!"binding '{s.binding.element}' value {v.text}")
    | answer => answer

def read (s : Slot) (group : Group) (row : Row) : Except Error Value := do
  if group.name ≠ s.group then
    throw (.binding (.wrongGroup s.binding.element s.group group.name))
  group.checkRow row
  match row[s.position]? with
  | some v => s.convert v
  | none => throw (.binding (.noValue s.binding.element s.position))

def resolve (s : Slot) (scope : Scope) : Except Error Value :=
  match scope[s.levelsUp]? with
  | some frame => s.read frame.group frame.row
  | none => .error (.binding (.scopeTooShallow s.binding.element s.group scope.length))

end Slot

def Plan.parameters (p : Plan) (scope : Scope) : Except Error (List Value) :=
  p.slots.mapM (·.resolve scope)

end NestedViews
