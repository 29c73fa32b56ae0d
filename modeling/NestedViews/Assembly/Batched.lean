import NestedViews.Assembly.Outline
import NestedViews.Assembly.Run

namespace NestedViews

variable {σ : Type}

def rowScopes (group : Group) : List Scope → List (List Row) → List Scope
  | scope :: scopes, rows :: answers =>
    rows.map (fun row => ⟨group, row⟩ :: scope) ++ rowScopes group scopes answers
  | _, _ => []

/-- Gives each row its collections, which come in one list for the rows of all places. -/
def attach (group : Group) : List (List Row) → List (List Collection) → List (List Node)
  | [], _ => []
  | rows :: answers, collections =>
    List.zipWith (Node.ofRow group) rows (collections.take rows.length) ::
      attach group answers (collections.drop rows.length)

def collate (scopes : List Scope) (columns : List (List Collection)) : List (List Collection) :=
  columns.foldr (List.zipWith (· :: ·)) (scopes.map fun _ => [])

mutual

def Outline.resolveLevel (r : Resolver σ) :
    Outline → List Scope → List String → Async (Progress σ) (List (List Node))
  | .mk group nested, scopes, path => Async.located group path do
    let plan ← r.prepare group path
    if scopes.isEmpty then return []
    let vectors ← liftM (scopes.mapM plan.parameters)
    let answers ← r.executeAll plan.query vectors
    answers.forM fun rows => do
      r.addRows rows.length
      rows.forM fun row => liftM (group.checkRow row)
    let places := rowScopes group scopes answers
    let columns ← r.gather (Outline.resolveLevels r nested places (path ++ [group.name]))
    return attach group answers (collate places columns)

def Outline.resolveLevels (r : Resolver σ) :
    List Outline → List Scope → List String → List (Async (Progress σ) (List Collection))
  | [], _, _ => []
  | o :: rest, scopes, path =>
    (do return (← o.resolveLevel r scopes path).map (.mk o.group)) ::
      Outline.resolveLevels r rest scopes path

end

end NestedViews
