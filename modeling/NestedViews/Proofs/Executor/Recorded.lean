import NestedViews.Executor.Watched
import NestedViews.Proofs.Assembly.Mirrors
import NestedViews.Proofs.Assembly.Steps

namespace NestedViews

structure Exchange where
  call : Call
  answer : Except Error (List (List Row))

structure Recorded (σ : Type) where
  world : σ
  exchanges : List Exchange

variable {σ α : Type}

namespace Recorded

def passOn (call : Call) (rows : α → List (List Row)) (answer : Effect σ α) :
    Effect (Recorded σ) α :=
  fun r =>
    let (result, world) := answer r.world
    (result, ⟨world, r.exchanges ++ [⟨call, result.map rows⟩]⟩)

theorem mirrors_passOn (call : Call) (rows : α → List (List Row)) (answer : Effect σ α) :
    Effect.Mirrors world (passOn call rows answer) answer :=
  fun _ => rfl

open Effect in
@[simp] theorem ends_passOn {call : Call} {rows : α → List (List Row)} {answer : Effect σ α}
    {r : Recorded σ} {good : α → Recorded σ → Prop} {bad : Error → Recorded σ → Prop} :
    Ends (passOn call rows answer) r good bad ↔
      Ends answer r.world (fun a w => good a ⟨w, r.exchanges ++ [⟨call, .ok (rows a)⟩]⟩)
        fun e w => bad e ⟨w, r.exchanges ++ [⟨call, .error e⟩]⟩ :=
  ends_wrap (fun (result, w) => (result, ⟨w, r.exchanges ++ [⟨call, result.map rows⟩]⟩)) rfl
    (fun _ _ => rfl) fun _ _ => rfl

end Recorded

def Executor.recorded (e : Executor σ) : Executor (Recorded σ) where
  answersBatches r := e.answersBatches r.world
  execute query vector := Recorded.passOn ⟨query, [vector], false⟩ ([·]) (e.execute query vector)
  executeBatch query vectors :=
    Recorded.passOn ⟨query, vectors, true⟩ id (e.executeBatch query vectors)

def Assembler.recorded (a : Assembler σ) : Assembler (Recorded σ) :=
  a.through Recorded.world a.executor.recorded

theorem Assembler.mirrors_recorded (a : Assembler σ) :
    a.recorded.context.Mirrors Recorded.world a.context where
  answersBatches _ := rfl
  execute _ _ := Recorded.mirrors_passOn _ _ _
  executeBatch _ _ := Recorded.mirrors_passOn _ _ _
  cancelled _ := rfl
  rowLimit := rfl

theorem Recorded.exists_ok {x : Effect (Recorded σ) α} {y : Effect σ α} {world : σ} {b : α}
    {good : α → Recorded σ → Prop} (hmirrors : Effect.Mirrors Recorded.world x y)
    (hends : Effect.Ends x ⟨world, []⟩ good fun _ _ => True) (hok : (y world).1 = .ok b) :
    ∃ r, x ⟨world, []⟩ = (.ok b, r) ∧ r.world = (y world).2 ∧ good b r := by
  obtain ⟨r, hrun, hworld⟩ := hmirrors.exists_ok ⟨world, []⟩ hok
  exact ⟨r, hrun, hworld, hends.of_run hrun⟩

end NestedViews
