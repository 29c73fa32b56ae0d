import NestedViews.Error
import NestedViews.Group.Name
import NestedViews.Value.Type

namespace NestedViews

structure Element where
  name : String
  type : ValueType
  deriving DecidableEq, Repr

structure Binding where
  element : String
  expected : Option ValueType
  deriving DecidableEq, Repr

structure QueryTemplate where
  query : String
  bindings : List Binding
  deriving DecidableEq, Repr

structure GroupDefinition where
  name : String
  elements : List Element
  template : Option QueryTemplate
  parent : Option String
  deriving DecidableEq, Repr

def Element.make (name : String) (type : ValueType) : Except Error Element :=
  if name = "" then .error (.schema .emptyElementName)
  else if '.' ∈ name.toList then .error (.schema (.dottedElementName name))
  else .ok ⟨name, type⟩

namespace Binding

def group? (b : Binding) : Option String :=
  (splitQualified? b.element).map Prod.fst

def elementName? (b : Binding) : Option String :=
  (splitQualified? b.element).map Prod.snd

def text (b : Binding) : String :=
  match b.expected with
  | some type => s!"{b.element} AS {type.name}"
  | none => b.element

end Binding

def firstRepeat? (seen : List String) : List String → Option String
  | [] => none
  | x :: xs => if x ∈ seen then some x else firstRepeat? (x :: seen) xs

namespace GroupDefinition

def isVirtual (d : GroupDefinition) : Bool :=
  d.template.isSome

def arity (d : GroupDefinition) : Nat :=
  d.elements.length

def elementIndex? (d : GroupDefinition) (name : String) : Option Nat :=
  d.elements.findIdx? (·.name = name)

def element? (d : GroupDefinition) (name : String) : Option Element :=
  d.elements.find? (·.name = name)

def bindings (d : GroupDefinition) : List Binding :=
  (d.template.map QueryTemplate.bindings).getD []

def boundGroups (d : GroupDefinition) : List String :=
  (d.bindings.filterMap Binding.group?).eraseDups

def check (d : GroupDefinition) : Except Error Unit :=
  if d.name = "" then .error (.schema .emptyGroupName)
  else if d.elements = [] then .error (.schema (.noElements d.name))
  else match firstRepeat? [] (d.elements.map Element.name) with
    | some element => .error (.schema (.duplicateElement element d.name))
    | none =>
      if !d.isVirtual && d.parent.isSome then .error (.schema (.leafWithParent d.name))
      else .ok ()

def make (name : String) (elements : List Element) (template : Option QueryTemplate) :
    Except Error GroupDefinition := do
  let d : GroupDefinition := ⟨name, elements, template, none⟩
  d.check
  return d

def withParent (d : GroupDefinition) (parent : String) : GroupDefinition :=
  { d with parent := some parent }

end GroupDefinition

def definition? (definitions : List GroupDefinition) (name : String) : Option GroupDefinition :=
  definitions.find? (·.name = name)

end NestedViews
