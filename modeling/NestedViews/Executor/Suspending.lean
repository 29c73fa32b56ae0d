import NestedViews.Executor.Basic
import NestedViews.Future

namespace NestedViews

variable {σ : Type}

abbrev Async (σ : Type) := ExceptT Error (Future σ)

def Async.ofEffect (effect : Effect σ α) : Async σ α :=
  .step (fun s => (effect s).2) fun s => .ready (effect s).1

def Async.run (x : Async σ α) : Effect σ α :=
  Future.run x

structure SuspendingExecutor (σ : Type) where
  answersBatches : σ → Bool
  execute : String → List Value → Async σ (List Row)
  executeBatch : String → List (List Value) → Async σ (List (List Row))
  /-- While a group waits for a call, the groups next to it, by their positions after it, that go on
  in turn before the call is looked at again. -/
  turns : σ → List Nat

def SuspendingExecutor.blocking (e : SuspendingExecutor σ) : Executor σ where
  answersBatches := e.answersBatches
  execute query vector := (e.execute query vector).run
  executeBatch query vectors := (e.executeBatch query vectors).run

def Executor.suspending (e : Executor σ) : SuspendingExecutor σ where
  answersBatches := e.answersBatches
  execute query vector := .ofEffect (e.execute query vector)
  executeBatch query vectors := .ofEffect (e.executeBatch query vectors)
  turns _ := []

end NestedViews
