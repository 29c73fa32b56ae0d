namespace NestedViews

/-- A computation on a world. Where it is pending, others may go on before it does. -/
inductive Future (σ α : Type)
  | ready (result : α)
  | step (act : σ → σ) (next : σ → Future σ α)
  | pending (rest : Future σ α)

namespace Future

variable {σ τ ε α β : Type}

def bind : Future σ α → (α → Future σ β) → Future σ β
  | ready a, f => f a
  | step act next, f => step act fun s => (next s).bind f
  | pending rest, f => pending (rest.bind f)

instance : Monad (Future σ) where
  pure := ready
  bind := bind

def run : Future σ α → StateM σ α
  | ready a, s => (a, s)
  | step act next, s => (next s).run (act s)
  | pending rest, s => rest.run s

def poll : Future σ α → Future σ (Future σ α)
  | ready a => ready (ready a)
  | step act next => step act fun s => (next s).poll
  | pending rest => ready rest

def within (view : τ → σ) (update : τ → σ → τ) : Future σ α → Future τ α
  | ready a => ready a
  | step act next =>
    step (fun t => update t (act (view t))) fun t => (next (view t)).within view update
  | pending rest => pending (rest.within view update)

def pollAt : List (Future σ α) → Nat → Future σ (List (Future σ α))
  | [], _ => return []
  | future :: futures, 0 => return (← future.poll) :: futures
  | future :: futures, i + 1 => return future :: (← pollAt futures i)

def pollEach (futures : List (Future σ α)) : List Nat → Future σ (List (Future σ α))
  | [] => return futures
  | i :: turns => do pollEach (← pollAt futures i) turns

/-- The result of the first of several futures, and what is left of the others. While the first one
is pending, those others get their turns that may be under way next to it. -/
def await (width : Nat) (turns : σ → List Nat) :
    Future σ α → List (Future σ α) → Future σ (α × List (Future σ α))
  | ready a, others => ready (a, others)
  | step act next, others => step act fun s => (next s).await width turns others
  | pending rest, others => do
    let world ← step id ready
    let others ← pollEach others ((turns world).filter (· + 1 < width))
    pending (rest.await width turns others)

/-- The results of a number of futures in their order, or the error of the first one that has one.
An error counts when all futures before it have their results, and ends those after it. -/
def gather (width : Nat) (turns : σ → List Nat) :
    Nat → List (Future σ (Except ε α)) → Future σ (Except ε (List α))
  | count + 1, first :: others => do
    let (result, others) ← first.await width turns others
    match result with
    | .error e => return .error e
    | .ok a => return (← gather width turns count others).map (a :: ·)
  | _, _ => return .ok []

end Future

end NestedViews
