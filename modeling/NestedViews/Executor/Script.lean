import NestedViews.Executor.Basic

namespace NestedViews

inductive Answer
  | rows (rows : List Row)
  | failure (message : String)
  deriving DecidableEq, Repr

structure QueryScript where
  answers : List (List Value × Answer)
  fallback : Option (List Row)
  deriving DecidableEq, Repr

/-- What is written down for each query; the latest entry of a query holds all of it. -/
structure Script where
  queries : List (String × QueryScript)
  deriving DecidableEq, Repr

namespace Script

def empty : Script := ⟨[]⟩

def update (s : Script) (query : String) (change : QueryScript → QueryScript) : Script :=
  ⟨(query, change ((s.queries.lookup query).getD ⟨[], none⟩)) :: s.queries⟩

def withAnswer (s : Script) (query : String) (vector : List Value) (answer : Answer) : Script :=
  s.update query fun q => { q with answers := (vector, answer) :: q.answers }

def withFallback (s : Script) (query : String) (rows : List Row) : Script :=
  s.update query fun q => { q with fallback := some rows }

def answer (s : Script) (query : String) (vector : List Value) : Except Error (List Row) :=
  match s.queries.lookup query with
  | none => .error (.execution (.unknownQuery query))
  | some q =>
    match q.answers.lookup vector with
    | some (.rows rows) => .ok rows
    | some (.failure message) => .error (.execution (.other message))
    | none => .ok (q.fallback.getD [])

end Script

end NestedViews
