import Mathlib
import NestedViews.Executor.Suspending
import NestedViews.Proofs.Compositional
import NestedViews.Proofs.Effect

namespace NestedViews

variable {σ τ α β : Type} {alone : Prop} {width count : Nat} {turns : σ → List Nat}

namespace Future

def Prompt : Future σ α → Prop
  | ready _ => True
  | step _ next => ∀ s, (next s).Prompt
  | pending _ => False

instance : LawfulMonad (Future σ) := by
  apply LawfulMonad.mk' (Future σ)
  · intro α x
    change x.bind ready = x
    induction x with
    | ready a => rfl
    | step act next ih => exact congrArg (step act) (funext ih)
    | pending rest ih => exact congrArg pending ih
  · exact fun _ _ => rfl
  · intro α β γ x f g
    change (x.bind f).bind g = x.bind fun a => (f a).bind g
    induction x with
    | ready a => rfl
    | step act next ih => exact congrArg (step act) (funext ih)
    | pending rest ih => exact congrArg pending ih

theorem run_bind (x : Future σ α) (f : α → Future σ β) (s : σ) :
    (x >>= f).run s = (f (x.run s).1).run (x.run s).2 := by
  change (x.bind f).run s = _
  induction x generalizing s with
  | ready a => rfl
  | step act next ih => exact ih s (act s)
  | pending rest ih => exact ih s

theorem Prompt.bind {x : Future σ α} {f : α → Future σ β} (h : x.Prompt)
    (hf : ∀ a, (f a).Prompt) : (x >>= f).Prompt := by
  change (x.bind f).Prompt
  induction x with
  | ready a => exact hf a
  | step act next ih => exact fun s => ih s (h s)
  | pending rest => exact h.elim

theorem run_within (view : τ → σ) (update : τ → σ → τ) (hview : ∀ t s, view (update t s) = s)
    (hself : ∀ t, update t (view t) = t) (htwice : ∀ t s s', update (update t s) s' = update t s')
    (x : Future σ α) (t : τ) :
    (x.within view update).run t = ((x.run (view t)).1, update t (x.run (view t)).2) := by
  induction x generalizing t with
  | ready a => exact congrArg (Prod.mk a) (hself t).symm
  | step act next ih =>
    have hrun := ih (view t) (update t (act (view t)))
    rw [hview, htwice] at hrun
    exact hrun
  | pending rest ih => exact ih t

theorem Prompt.within {view : τ → σ} {update : τ → σ → τ} {x : Future σ α} (h : x.Prompt) :
    (x.within view update).Prompt := by
  induction x with
  | ready a => trivial
  | step act next ih => exact fun t => ih (view t) (h (view t))
  | pending rest => exact h.elim

theorem await_pending (rest : Future σ α) (others : List (Future σ α)) :
    (pending rest).await width turns others =
      step id fun s => pollEach others ((turns s).filter (· + 1 < width)) >>= fun others =>
        pending (rest.await width turns others) :=
  rfl

theorem await_of_prompt {first : Future σ α} (others : List (Future σ α)) (h : first.Prompt) :
    first.await width turns others = first >>= fun a => pure (a, others) := by
  change _ = first.bind fun a => ready (a, others)
  induction first with
  | ready a => rfl
  | step act next ih => exact congrArg (step act) (funext fun s => ih s (h s))
  | pending rest => exact h.elim

theorem run_await_of_le (first : Future σ α) (others : List (Future σ α)) (h : width ≤ 1) (s : σ) :
    (first.await width turns others).run s = (((first.run s).1, others), (first.run s).2) := by
  induction first generalizing s with
  | ready a => rfl
  | step act next ih => exact ih s (act s)
  | pending rest ih =>
    have hnone : (turns s).filter (· + 1 < width) = [] := by
      rw [List.filter_eq_nil_iff]
      simp only [decide_eq_true_eq]
      omega
    rw [await_pending, run, id, hnone]
    exact ih s

theorem run_await (turns : σ → List Nat) {first : Future σ α} (others : List (Future σ α))
    (h : width ≤ 1 ∨ first.Prompt) (s : σ) :
    (first.await width turns others).run s = (((first.run s).1, others), (first.run s).2) := by
  obtain hwidth | hprompt := h
  · exact run_await_of_le first others hwidth s
  · rw [await_of_prompt others hprompt, run_bind]
    rfl

end Future

namespace Async

theorem run_bind (x : Async σ α) (f : α → Async σ β) :
    (x >>= f).run = x.run >>= fun a => (f a).run := by
  funext s
  refine (Future.run_bind x _ s).trans ?_
  rcases hrun : Future.run x s with ⟨e | a, s'⟩
  · exact (Effect.bind_eq_of_error hrun).symm
  · exact (Effect.bind_eq_of_ok (f := fun a => (f a).run) hrun).symm

/-- A future does what an effect does, and nothing goes on in between: there is no room for others,
or it is never pending. -/
structure Performs (alone : Prop) (x : Async σ α) (y : Effect σ α) : Prop where
  run_eq : x.run = y
  prompt : alone ∨ Future.Prompt x

namespace Performs

variable {x : Async σ α} {y : Effect σ α}

theorem ofEffect (y : Effect σ α) : Performs alone (.ofEffect y) y :=
  ⟨rfl, .inr fun _ => trivial⟩

theorem compositional (alone : Prop) : Compositional fun α => @Performs σ α alone where
  liftM _ := ⟨rfl, .inr trivial⟩
  bind := by
    intro α β x y f g h hf
    constructor
    · rw [run_bind, h.run_eq]
      exact congrArg _ (funext fun a => (hf a).run_eq)
    · by_cases halone : alone
      · exact .inl halone
      · refine .inr ((h.prompt.resolve_left halone).bind fun result => ?_)
        cases result with
        | error e => trivial
        | ok a => exact (hf a).prompt.resolve_left halone

theorem gather_nil :
    Performs alone (Future.gather width turns 0 [] : Async σ (List α)) (pure []) :=
  (compositional alone).pure []

theorem gather_cons {others : List (Async σ α)} {ys : Effect σ (List α)}
    (hwidth : alone → width ≤ 1) (h : Performs alone x y)
    (hothers : Performs alone (Future.gather width turns count others) ys) :
    Performs alone (Future.gather width turns (count + 1) (x :: others))
      (do return (← y) :: (← ys)) := by
  constructor
  · funext s
    have hfirst := Future.run_await turns others (h.prompt.imp_left hwidth) s
    refine (Future.run_bind _ _ s).trans ?_
    rw [hfirst, ← h.run_eq, ← hothers.run_eq]
    rcases hrun : Future.run x s with ⟨e | a, s'⟩
    · exact (Effect.bind_eq_of_error hrun).symm
    · refine Eq.trans ?_ (Effect.bind_eq_of_ok hrun).symm
      refine (Future.run_bind _ _ s').trans ?_
      rcases hrest : Future.run (Future.gather width turns count others) s' with ⟨e | as, s''⟩
      · exact (Effect.bind_eq_of_error hrest).symm
      · exact (Effect.bind_eq_of_ok (f := fun as => pure (a :: as)) hrest).symm
  · by_cases halone : alone
    · exact .inl halone
    · have hprompt := h.prompt.resolve_left halone
      refine .inr ?_
      change ((Future.await _ _ x others) >>= _ : Future σ _).Prompt
      rw [Future.await_of_prompt others hprompt, bind_assoc]
      refine hprompt.bind fun result => ?_
      cases result with
      | error e => trivial
      | ok a => exact (hothers.prompt.resolve_left halone).bind fun _ => trivial

end Performs

end Async

end NestedViews
