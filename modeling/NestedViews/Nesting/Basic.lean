namespace NestedViews

structure NestingEntry where
  name : String
  parent : Option String
  deriving DecidableEq, Repr

/-- Groups with their parents, in the order in which they were added. A group that is added again
keeps its last parent. -/
structure Nesting where
  entries : List NestingEntry
  deriving DecidableEq, Repr

/-- The cycle that closes when a climb, given from its last group back to its first, meets a group
again: from that group inward back to itself. -/
def closedPath (climbed : List String) (again : String) : List String :=
  again :: climbed.takeWhile (· ≠ again) ++ [again]

namespace Nesting

def empty : Nesting := ⟨[]⟩

def add (n : Nesting) (name : String) (parent : Option String) : Nesting :=
  ⟨n.entries ++ [⟨name, parent⟩]⟩

def parent? (n : Nesting) (name : String) : Option String :=
  (n.entries.filterMap fun e => if e.name = name then e.parent else none).getLast?

def children (n : Nesting) (name : String) : List String :=
  (n.entries.filter (·.parent = some name)).map NestingEntry.name

theorem parent?_add (n : Nesting) (name added : String) (parent : Option String) :
    (n.add added parent).parent? name =
      if added = name then parent.or (n.parent? name) else n.parent? name := by
  cases parent <;> by_cases h : added = name <;> simp [parent?, add, h]

theorem children_add (n : Nesting) (name added : String) (parent : Option String) :
    (n.add added parent).children name =
      n.children name ++ if parent = some name then [added] else [] := by
  by_cases h : parent = some name <;> simp [children, add, h]

def roots (n : Nesting) : List String :=
  (n.entries.map NestingEntry.name).filter fun name => (n.parent? name).isNone

def climb (n : Nesting) : Nat → List String → String → List String
  | 0, _, _ => []
  | steps + 1, met, name =>
    match n.parent? name with
    | none => []
    | some parent =>
      if parent ∈ met then [] else parent :: n.climb steps (parent :: met) parent

def ancestors (n : Nesting) (name : String) : List String :=
  n.climb n.entries.length [name] name

def loopFrom? (n : Nesting) : Nat → List String → String → Option (List String)
  | 0, _, _ => none
  | steps + 1, met, name =>
    match n.parent? name with
    | none => none
    | some parent =>
      if parent ∈ met then some (closedPath met parent)
      else n.loopFrom? steps (parent :: met) parent

def findCycle? (n : Nesting) : Option (List String) :=
  n.entries.findSome? fun e => n.loopFrom? n.entries.length [e.name] e.name

end Nesting

end NestedViews
