import NestedViews.Assembly.Outline
import NestedViews.Assembly.Run

namespace NestedViews

variable {σ : Type}

mutual

def Outline.resolve (r : Resolver σ) :
    Outline → Scope → List String → Async (Progress σ) (List Node)
  | .mk group nested, scope, path => Async.located group path do
    let plan ← r.prepare group path
    let vector ← liftM (plan.parameters scope)
    let rows ← r.execute plan.query vector
    r.addRows rows.length
    rows.mapM fun row => do
      liftM (group.checkRow row)
      let collections ←
        r.gather (Outline.resolveNested r nested (⟨group, row⟩ :: scope) (path ++ [group.name]))
      return .ofRow group row collections

def Outline.resolveNested (r : Resolver σ) :
    List Outline → Scope → List String → List (Async (Progress σ) Collection)
  | [], _, _ => []
  | o :: rest, scope, path =>
    (do return .mk o.group (← o.resolve r scope path)) :: Outline.resolveNested r rest scope path

end

end NestedViews
