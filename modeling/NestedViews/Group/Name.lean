/-! Qualified names. The last dot of a qualified name separates an element, or the short name of a
group, from what it belongs to. -/

namespace NestedViews

def splitLastDot : List Char → Option (List Char × List Char)
  | [] => none
  | c :: cs =>
    match splitLastDot cs with
    | some (before, behind) => some (c :: before, behind)
    | none => if c = '.' then some ([], cs) else none

def splitQualified? (name : String) : Option (String × String) :=
  match splitLastDot name.toList with
  | some (group, element) =>
    if group = [] ∨ element = [] then none
    else some (String.ofList group, String.ofList element)
  | none => none

def shortName (name : String) : String :=
  match splitLastDot name.toList with
  | some (_, last) => String.ofList last
  | none => name

end NestedViews
