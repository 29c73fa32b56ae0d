import NestedViews.Assembly.Config
import NestedViews.Executor.Suspending
import NestedViews.Scope

namespace NestedViews

variable {σ : Type}

structure Progress (σ : Type) where
  world : σ
  stats : Stats

/-- A part of an assembly. What was done stays done when it fails. -/
abbrev Run (σ : Type) := ExceptT Error (StateM (Progress σ))

structure Context (σ : Type) where
  executor : Executor σ
  cancelled : σ → Bool
  rowLimit : Nat

namespace Run

def ofEffect (effect : Effect σ α) : Run σ α :=
  fun p =>
    let (result, world) := effect p.world
    (result, { p with world })

def located (group : Group) (path : List String) (step : Run σ α) : Run σ α :=
  step.adapt (Error.located group.name path)

def countCall (vectors : Nat) (batched : Bool) : Run σ Unit :=
  modify fun p =>
    { p with stats :=
        { p.stats with
          calls := p.stats.calls + 1
          batches := p.stats.batches + if batched then 1 else 0
          vectors := p.stats.vectors + vectors } }

end Run

namespace Context

def checkCancelled (c : Context σ) : Run σ Unit := do
  if c.cancelled (← get).world then throw .cancelled

def addRows (c : Context σ) (count : Nat) : Run σ Unit := do
  modify fun p => { p with stats := { p.stats with rows := p.stats.rows + count } }
  if 0 < c.rowLimit ∧ c.rowLimit < (← get).stats.rows then throw (.rowLimit c.rowLimit)

def prepare (c : Context σ) (group : Group) (path : List String) : Run σ Plan := do
  c.checkCancelled
  if group.name ∈ path then throw (.cyclic (path ++ [group.name]))
  match group.plan with
  | some plan => return plan
  | none => throw (.schema (.notVirtual group.name))

def execute (c : Context σ) (query : String) (vector : List Value) : Run σ (List Row) := do
  c.checkCancelled
  Run.countCall 1 false
  Run.ofEffect (c.executor.execute query vector)

def executeBatch (c : Context σ) (query : String) (vectors : List (List Value)) :
    Run σ (List (List Row)) := do
  c.checkCancelled
  Run.countCall vectors.length true
  let answers ← Run.ofEffect (c.executor.executeBatch query vectors)
  if answers.length ≠ vectors.length then
    throw (.execution (.batchLength answers.length vectors.length))
  return answers

def executeAll (c : Context σ) (query : String) (vectors : List (List Value)) :
    Run σ (List (List Row)) := do
  if vectors.length = 1 ∨ !c.executor.answersBatches (← get).world then
    vectors.mapM (c.execute query)
  else c.executeBatch query vectors

end Context

/-- What an assembly works with when calls may be suspended, and how many of the groups nested under
the same rows may be under way at once. -/
structure Resolver (σ : Type) where
  executor : SuspendingExecutor σ
  cancelled : σ → Bool
  rowLimit : Nat
  concurrency : Nat

namespace Async

def located (group : Group) (path : List String) (step : Async (Progress σ) α) :
    Async (Progress σ) α :=
  step.adapt (Error.located group.name path)

def ofCall (call : Async σ α) : Async (Progress σ) α :=
  Future.within Progress.world (fun p world => { p with world }) call

end Async

namespace Resolver

def context (r : Resolver σ) : Context σ :=
  ⟨r.executor.blocking, r.cancelled, r.rowLimit⟩

def prepare (r : Resolver σ) (group : Group) (path : List String) : Async (Progress σ) Plan :=
  .ofEffect (r.context.prepare group path)

def addRows (r : Resolver σ) (count : Nat) : Async (Progress σ) Unit :=
  .ofEffect (r.context.addRows count)

def execute (r : Resolver σ) (query : String) (vector : List Value) :
    Async (Progress σ) (List Row) := do
  .ofEffect r.context.checkCancelled
  .ofEffect (Run.countCall 1 false)
  .ofCall (r.executor.execute query vector)

def executeBatch (r : Resolver σ) (query : String) (vectors : List (List Value)) :
    Async (Progress σ) (List (List Row)) := do
  .ofEffect r.context.checkCancelled
  .ofEffect (Run.countCall vectors.length true)
  let answers ← .ofCall (r.executor.executeBatch query vectors)
  if answers.length ≠ vectors.length then
    throw (.execution (.batchLength answers.length vectors.length))
  return answers

def executeAll (r : Resolver σ) (query : String) (vectors : List (List Value)) :
    Async (Progress σ) (List (List Row)) := do
  let progress ← .ofEffect get
  if vectors.length = 1 ∨ !r.executor.answersBatches progress.world then
    vectors.mapM (r.execute query)
  else r.executeBatch query vectors

def gather (r : Resolver σ) (parts : List (Async (Progress σ) α)) : Async (Progress σ) (List α) :=
  Future.gather (max r.concurrency 1) (fun p => r.executor.turns p.world) parts.length parts

end Resolver

end NestedViews
