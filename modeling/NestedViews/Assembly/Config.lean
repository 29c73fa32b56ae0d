namespace NestedViews

inductive Strategy
  | auto
  | depthFirst
  | batched
  deriving DecidableEq, Repr, Inhabited

/-- How to assemble. Of the groups nested under the same rows, `concurrency` ones may be under way
at once; a row limit of zero is no limit. -/
structure Config where
  strategy : Strategy := .auto
  concurrency : Nat := 1
  rowLimit : Nat := 0
  deriving DecidableEq, Repr

namespace Config

def withConcurrency (c : Config) (concurrency : Nat) : Config :=
  { c with concurrency := max concurrency 1 }

def strategyFor (c : Config) (batches : Bool) : Strategy :=
  match c.strategy with
  | .auto => if batches then .batched else .depthFirst
  | strategy => strategy

end Config

structure Stats where
  calls : Nat
  batches : Nat
  vectors : Nat
  rows : Nat
  deriving DecidableEq, Repr

def Stats.zero : Stats := ⟨0, 0, 0, 0⟩

end NestedViews
