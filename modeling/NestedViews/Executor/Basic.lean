import NestedViews.Error
import NestedViews.Value.Basic

/-! What runs the queries. An executor is known only by its answers, which may depend on everything
that was asked before. -/

namespace NestedViews

/-- A computation on the world `σ` of an executor. What was done stays done when it fails. -/
abbrev Effect (σ : Type) := ExceptT Error (StateM σ)

structure Executor (σ : Type) where
  answersBatches : σ → Bool
  execute : String → List Value → Effect σ (List Row)
  executeBatch : String → List (List Value) → Effect σ (List (List Row))

namespace Executor

variable {σ : Type}

def answering (answer : String → List Value → Except Error (List Row)) (batch : Bool) :
    Executor σ where
  answersBatches _ := batch
  execute query vector := liftM (answer query vector)
  executeBatch query vectors := liftM (vectors.mapM (answer query))

def oneByOne (e : Executor σ) : Executor σ :=
  { e with executeBatch := fun query vectors => vectors.mapM (e.execute query) }

def withoutBatches (e : Executor σ) : Executor σ :=
  { e.oneByOne with answersBatches := fun _ => false }

def resizing (trim pad : Nat) (e : Executor σ) : Executor σ :=
  { e with
    executeBatch := fun query vectors => do
      let answers ← e.executeBatch query vectors
      return answers.take (answers.length - trim) ++ List.replicate pad [] }

end Executor

end NestedViews
