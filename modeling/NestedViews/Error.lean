import NestedViews.Snapshot.Fault

namespace NestedViews

inductive SchemaFault
  | emptyElementName
  | dottedElementName (element : String)
  | emptyGroupName
  | noElements (group : String)
  | duplicateElement (element group : String)
  | leafWithParent (group : String)
  | duplicateGroup (group : String)
  | parentIsLeaf (group parent : String)
  | bindsToLeaf (group leaf : String)
  | separateBranches (group : String) (referenced : List String)
  | malformedQuery (line column : Nat) (atStart : Bool)
  | inGroup (group : String) (fault : SchemaFault)
  | placeholderCount (group : String) (placeholders bindings : Nat)
  | notAncestor (group element referenced : String)
  | neverCoerces (group element source expected : String)
  | needsRows (group parent : String)
  | wrongDepth (group : String) (levels rows : Nat)
  | notVirtual (group : String)
  | other (text : String)
  deriving DecidableEq, Repr

inductive BindingFault
  | wrongGroup (element expected actual : String)
  | rowLength (group : String) (actual expected : Nat)
  | scopeTooShallow (element group : String) (frames : Nat)
  | noValue (element : String) (position : Nat)
  | other (text : String)
  deriving DecidableEq, Repr

inductive ExecutionFault
  | unknownQuery (query : String)
  | batchLength (results vectors : Nat)
  | other (text : String)
  deriving DecidableEq, Repr

inductive CatalogFault
  | undecodable (fault : Snapshot.Fault)
  | other (text : String)
  deriving DecidableEq, Repr

inductive Error
  | groupNotFound (name : String)
  | elementNotFound (name : String)
  | schema (fault : SchemaFault)
  | cyclic (path : List String)
  | catalog (fault : CatalogFault)
  | binding (fault : BindingFault)
  | typeMismatch (expected actual detail : String)
  | execution (fault : ExecutionFault)
  | cancelled
  | rowLimit (limit : Nat)
  | assembly (group : String) (path : List String) (source : Error)
  | serialization (text : String)
  deriving DecidableEq, Repr, Inhabited

def SchemaFault.message : SchemaFault → String
  | .emptyElementName => "Element name cannot be empty"
  | .dottedElementName element => s!"Element name '{element}' cannot contain '.'"
  | .emptyGroupName => "Group name cannot be empty"
  | .noElements group => s!"Group '{group}' must have at least one element"
  | .duplicateElement element group => s!"Duplicate element name '{element}' in group '{group}'"
  | .leafWithParent group => s!"Leaf group '{group}' cannot declare a parent"
  | .duplicateGroup group => s!"Group '{group}' already exists"
  | .parentIsLeaf group parent => s!"Group '{group}' cannot nest under leaf group '{parent}'"
  | .bindsToLeaf group leaf =>
    s!"Group '{group}' binds to leaf group '{leaf}'; only virtual groups produce rows"
  | .separateBranches group referenced =>
    s!"Group '{group}' binds to groups on separate branches (" ++ ", ".intercalate referenced ++
      "); declare its parent explicitly"
  | .malformedQuery line column atStart =>
    s!"Malformed query template at line {line}, column {column}: expected " ++
      if atStart then "template"
      else "EOI, string_literal, quoted_identifier, line_comment, block_comment, " ++
        "placeholder, or text"
  | .inGroup group fault => s!"Group '{group}': {fault.message}"
  | .placeholderCount group placeholders bindings =>
    s!"Group '{group}': query has {placeholders} placeholder(s) but " ++
      s!"{bindings} binding(s) are declared"
  | .notAncestor group element referenced =>
    s!"Group '{group}': binding '{element}' references '{referenced}', which is not an ancestor"
  | .neverCoerces group element source expected =>
    s!"Group '{group}': binding '{element}' of type {source} can never be coerced to {expected}"
  | .needsRows group parent =>
    s!"Group '{group}' is nested under '{parent}' and needs enclosing rows"
  | .wrongDepth group levels rows =>
    s!"Group '{group}' is nested {levels} level(s) deep but " ++
      s!"{rows} enclosing row(s) were supplied"
  | .notVirtual group => s!"Group '{group}' is not virtual and cannot be assembled"
  | .other text => text

def BindingFault.message : BindingFault → String
  | .wrongGroup element expected actual =>
    s!"binding '{element}' expects a row of '{expected}', got a row of '{actual}'"
  | .rowLength group actual expected =>
    s!"row of '{group}' has {actual} value(s), expected {expected}"
  | .scopeTooShallow element group frames =>
    s!"binding '{element}' needs an enclosing row of '{group}' but " ++
      s!"the scope has {frames} frame(s)"
  | .noValue element position => s!"binding '{element}' reads position {position} of a shorter row"
  | .other text => text

def ExecutionFault.message : ExecutionFault → String
  | .unknownQuery query => s!"Unknown query: {query}"
  | .batchLength results vectors =>
    s!"batch returned {results} result set(s) for {vectors} parameter vector(s)"
  | .other text => text

def CatalogFault.message : CatalogFault → String
  | .undecodable fault => s!"Failed to deserialize catalog: {fault.message}"
  | .other text => text

namespace Error

def message : Error → String
  | .groupNotFound name => s!"Group not found: {name}"
  | .elementNotFound name => s!"Element not found: {name}"
  | .schema fault => s!"Schema error: {fault.message}"
  | .cyclic path => "Cyclic dependency: " ++ " -> ".intercalate path
  | .catalog fault => s!"Catalog error: {fault.message}"
  | .binding fault => s!"Binding resolution error: {fault.message}"
  | .typeMismatch expected actual detail =>
    s!"Type mismatch: expected {expected}, got {actual} ({detail})"
  | .execution fault => s!"Execution error: {fault.message}"
  | .cancelled => "Assembly cancelled"
  | .rowLimit limit => s!"Row limit exceeded: more than {limit} rows produced"
  | .assembly group path source =>
    s!"Failed to assemble group '{group}' at path '" ++ "/".intercalate path ++
      s!"': {source.message}"
  | .serialization text => s!"Serialization error: {text}"

/-- Notes where an error arose. An error that carries a place keeps it, so the innermost place is
reported; cancellation has no place. -/
def located (group : String) (path : List String) : Error → Error
  | .assembly g p source => .assembly g p source
  | .cancelled => .cancelled
  | e => .assembly group path e

def rootCause : Error → Error
  | .assembly _ _ source => source.rootCause
  | e => e

end Error

end NestedViews
