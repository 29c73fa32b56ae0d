import NestedViews.Catalog.Basic
import NestedViews.Nesting.Parents

namespace NestedViews.Catalog

def register (definitions : List GroupDefinition) (d : GroupDefinition) :
    Except Error (List GroupDefinition) := do
  d.check
  if definitions.any (·.name = d.name) then throw (.schema (.duplicateGroup d.name))
  return definitions ++ [d]

def checkBinding (definitions : List GroupDefinition) (b : Binding) : Except Error Unit :=
  let found := do
    let (group, element) ← splitQualified? b.element
    let d ← definition? definitions group
    d.elementIndex? element
  match found with
  | some _ => .ok ()
  | none => .error (.elementNotFound b.element)

def compileGroup (definitions : List GroupDefinition) (n : Nesting) (d : GroupDefinition)
    (parent : Option String) : Except Error Group := do
  let ancestors := (n.ancestors d.name).filterMap (definition? definitions)
  return ⟨d, parent, ← d.template.mapM fun t => Plan.compile d.name t ancestors⟩

def build (definitions : List GroupDefinition) : Except Error Catalog := do
  definitions.forM fun d => d.bindings.forM (checkBinding definitions)
  let parents ← resolveParents definitions
  let placed := definitions.zip parents
  let n : Nesting := ⟨placed.map fun (d, parent) => ⟨d.name, parent⟩⟩
  if let some path := n.findCycle? then throw (.cyclic path)
  return ⟨← placed.mapM fun (d, parent) => compileGroup definitions n d parent, n⟩

def ofDefinitions (definitions : List GroupDefinition) : Except Error Catalog := do
  build (← definitions.foldlM register [])

end NestedViews.Catalog
