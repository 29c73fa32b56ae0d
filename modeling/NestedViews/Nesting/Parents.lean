import NestedViews.Group.Definition
import NestedViews.Nesting.Basic

/-! The parent of each group: declared, or else the deepest of the groups that its query binds to.
To find the deepest one, the parents of those groups are needed first. -/

namespace NestedViews

structure ParentSearch where
  found : List (String × Option String)
  pending : List String
  deriving DecidableEq, Repr

abbrev Search := ExceptT Error (StateM ParentSearch)

namespace ParentSearch

def empty : ParentSearch := ⟨[], []⟩

def during (name : String) (step : Search α) : Search α :=
  ExceptT.mk do
    modify fun s => { s with pending := name :: s.pending }
    let answer ← step.run
    modify fun s => { s with pending := s.pending.tail }
    return answer

def record (name : String) (parent : Option String) : Search Unit :=
  modify fun s => { s with found := (name, parent) :: s.found }

def extend (parentOf : String → Search (Option String)) :
    Nat → List String → Option String → Search (List String)
  | _, chain, none => return chain
  | 0, chain, some _ => return chain
  | steps + 1, chain, some parent => do
    if parent ∈ (← get).pending then throw (.cyclic (parent :: chain ++ [parent]))
    if parent ∈ chain then return chain
    extend parentOf steps (parent :: chain) (← parentOf parent)

def chainTo (parentOf : String → Search (Option String)) (steps : Nat) (group : String) :
    Search (List String) := do
  extend parentOf steps [group] (← parentOf group)

def isLeaf (definitions : List GroupDefinition) (name : String) : Bool :=
  ((definition? definitions name).map fun d => !d.isVirtual).getD false

def declared (definitions : List GroupDefinition) (d : GroupDefinition) (parent : String) :
    Except Error String :=
  match definition? definitions parent with
  | none => .error (.groupNotFound parent)
  | some target =>
    if target.isVirtual then .ok parent else .error (.schema (.parentIsLeaf d.name parent))

/-- The deepest of several groups: the one whose chain has them all. -/
def deepest (parentOf : String → Search (Option String)) (steps : Nat) (group : String)
    (bound : List String) : Search String := do
  let chains ← bound.mapM (chainTo parentOf steps)
  match (bound.zip chains).find? fun (_, chain) => bound.all (· ∈ chain) with
  | some (deepest, _) => return deepest
  | none => throw (.schema (.separateBranches group bound))

def infer (definitions : List GroupDefinition) (parentOf : String → Search (Option String))
    (d : GroupDefinition) : Search (Option String) :=
  match d.parent with
  | some parent => return some (← liftM (declared definitions d parent))
  | none =>
    match d.boundGroups.find? (isLeaf definitions) with
    | some leaf => throw (.schema (.bindsToLeaf d.name leaf))
    | none =>
      match d.boundGroups with
      | [] => return none
      | [group] => return some group
      | bound => return some (← deepest parentOf (definitions.length + 1) d.name bound)

/-- The parent of a name; a name without a definition has none. The searches under way are for
different definitions, so `depth` counts those that none is under way for. -/
def parentOf (definitions : List GroupDefinition) : Nat → String → Search (Option String)
  | 0, _ => return none
  | depth + 1, name => do
    let s ← get
    match s.found.lookup name with
    | some parent => return parent
    | none =>
      if name ∈ s.pending then throw (.cyclic (closedPath s.pending name))
      match definition? definitions name with
      | none => return none
      | some d =>
        let parent ← during name (infer definitions (parentOf definitions depth) d)
        record name parent
        return parent

end ParentSearch

def resolveParents (definitions : List GroupDefinition) : Except Error (List (Option String)) :=
  ((definitions.mapM fun d =>
    ParentSearch.parentOf definitions (definitions.length + 1) d.name).run .empty).1

end NestedViews
