import NestedViews.Executor.Basic

namespace NestedViews

structure Call where
  query : String
  vectors : List (List Value)
  batched : Bool
  deriving DecidableEq, Repr

structure Logged (σ : Type) where
  world : σ
  calls : List Call

namespace Logged

variable {σ : Type}

def vectorsFor (l : Logged σ) (query : String) : List (List Value) :=
  (l.calls.filter (·.query = query)).flatMap Call.vectors

def passOn (call : Call) (answer : Effect σ α) : Effect (Logged σ) α :=
  fun l =>
    let (result, world) := answer l.world
    (result, ⟨world, l.calls ++ [call]⟩)

end Logged

structure Watched (σ : Type) where
  world : σ
  count : Nat
  cancelled : Bool

namespace Watched

variable {σ : Type}

def passOn (cancelAt : Option Nat) (answer : Effect σ α) : Effect (Watched σ) α :=
  fun w =>
    let (result, world) := answer w.world
    (result, ⟨world, w.count + 1, w.cancelled || cancelAt == some (w.count + 1)⟩)

end Watched

namespace Executor

variable {σ : Type}

def logged (e : Executor σ) : Executor (Logged σ) where
  answersBatches l := e.answersBatches l.world
  execute query vector := Logged.passOn ⟨query, [vector], false⟩ (e.execute query vector)
  executeBatch query vectors := Logged.passOn ⟨query, vectors, true⟩ (e.executeBatch query vectors)

def watched (cancelAt : Option Nat) (e : Executor σ) : Executor (Watched σ) where
  answersBatches w := e.answersBatches w.world
  execute query vector := Watched.passOn cancelAt (e.execute query vector)
  executeBatch query vectors := Watched.passOn cancelAt (e.executeBatch query vectors)

end Executor

end NestedViews
