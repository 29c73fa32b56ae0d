import NestedViews.Proofs.Assembly.Cancellation
import NestedViews.Proofs.Assembly.Meaning

namespace NestedViews

open Effect

variable {σ α β : Type}

namespace Effect

def Refines (x y : Effect σ α) : Prop :=
  ∀ s, Ends x s (fun a s' => y s = (.ok a, s')) fun _ _ => True

namespace Refines

theorem refl (x : Effect σ α) : Refines x x := by
  intro s
  unfold Ends
  rcases x s with ⟨_ | _, _⟩
  · trivial
  · rfl

theorem bind {x y : Effect σ α} {f g : α → Effect σ β} (h : Refines x y)
    (hf : ∀ a, Refines (f a) (g a)) : Refines (x >>= f) (y >>= g) := by
  intro s
  rw [ends_bind]
  apply (h s).imp
  intro a t hy
  apply (hf a t).imp
  intro b s' hg
  rw [bind_eq_of_ok hy, hg]

theorem compositional : Compositional fun α => @Refines σ α :=
  ⟨fun _ => refl _, bind⟩

end Refines

end Effect

namespace Context

variable (c : Context σ)

end Context

/-- In the worlds of an invariant, which calls keep, an executor answers by a function of query and
parameters. -/
structure Executor.Pure (e : Executor σ) (answer : String → List Value → Except Error (List Row))
    (inv : σ → Prop) : Prop where
  execute : ∀ w, inv w → ∀ query vector,
    (e.execute query vector w).1 = answer query vector ∧ inv (e.execute query vector w).2
  executeBatch : ∀ w, inv w → ∀ query vectors,
    (e.executeBatch query vectors w).1 = vectors.mapM (answer query) ∧
      inv (e.executeBatch query vectors w).2

namespace Assembler

variable {a : Assembler σ} {answer : String → List Value → Except Error (List Row)}
variable {inv : σ → Prop} {world w w' : σ} {name : String} {rows : List Row} {doc doc' : Node}
variable {s t : Strategy}

end Assembler

end NestedViews
