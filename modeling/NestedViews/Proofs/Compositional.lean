import Mathlib
import NestedViews.Error

namespace NestedViews

variable {m n : Type → Type} [Monad m] [Monad n] {α β : Type}

structure Compositional (R : ∀ ⦃α : Type⦄, ExceptT Error m α → ExceptT Error n α → Prop) :
    Prop where
  liftM : ∀ {α : Type} (answer : Except Error α), R (liftM answer) (liftM answer)
  bind : ∀ {α β : Type} {x : ExceptT Error m α} {y : ExceptT Error n α}
    {f : α → ExceptT Error m β} {g : α → ExceptT Error n β},
    R x y → (∀ a, R (f a) (g a)) → R (x >>= f) (y >>= g)

namespace Compositional

variable {R : ∀ ⦃α : Type⦄, ExceptT Error m α → ExceptT Error n α → Prop}

theorem ite (_ : Compositional R) {p : Prop} [Decidable p] {x x' : ExceptT Error m α}
    {y y' : ExceptT Error n α} (hx : R x y) (hx' : R x' y') :
    R (if p then x else x') (if p then y else y') := by
  split
  · exact hx
  · exact hx'

variable (h : Compositional R)
include h

theorem pure (a : α) : R (pure a) (pure a) :=
  h.liftM (.ok a)

theorem throw (e : Error) : R (throw e : ExceptT Error m α) (throw e) :=
  h.liftM (.error e)

theorem mapM [LawfulMonad m] [LawfulMonad n] {f : β → ExceptT Error m α}
    {g : β → ExceptT Error n α} {bs : List β} (hf : ∀ b, R (f b) (g b)) :
    R (bs.mapM f) (bs.mapM g) := by
  induction bs with
  | nil => exact h.pure []
  | cons b bs ih =>
    rw [List.mapM_cons, List.mapM_cons]
    exact h.bind (hf b) fun a => h.bind ih fun as => h.pure (a :: as)

theorem forM {f : β → ExceptT Error m Unit} {g : β → ExceptT Error n Unit} {bs : List β}
    (hf : ∀ b, R (f b) (g b)) : R (bs.forM f) (bs.forM g) := by
  induction bs with
  | nil => exact h.pure ()
  | cons b bs ih => exact h.bind (hf b) fun _ => ih

end Compositional

end NestedViews
