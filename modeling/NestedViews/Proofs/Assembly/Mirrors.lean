import NestedViews.Proofs.Assembly.Relations

namespace NestedViews

variable {σ τ α β : Type}

namespace Effect

/-- A computation goes like another one in the states that are seen of its own. -/
def Mirrors (view : τ → σ) (x : Effect τ α) (y : Effect σ α) : Prop :=
  ∀ t, y (view t) = ((x t).1, view (x t).2)

namespace Mirrors

variable {view : τ → σ} {x : Effect τ α} {y : Effect σ α}

theorem liftM (answer : Except Error α) :
    Mirrors view (liftM answer : Effect τ α) (liftM answer) := by
  cases answer <;> exact fun _ => rfl

theorem bind {f : α → Effect τ β} {g : α → Effect σ β} (h : Mirrors view x y)
    (hf : ∀ a, Mirrors view (f a) (g a)) : Mirrors view (x >>= f) (y >>= g) := by
  intro t
  change ExceptT.bindCont g (y (view t)).1 (y (view t)).2 =
    ((ExceptT.bindCont f (x t).1 (x t).2).1, view (ExceptT.bindCont f (x t).1 (x t).2).2)
  rw [h t]
  rcases x t with ⟨_ | a, t'⟩
  · rfl
  · exact hf a t'

theorem compositional (view : τ → σ) : Compositional (fun _ => Mirrors view) :=
  ⟨liftM, bind⟩

theorem get_bind {f : τ → Effect τ β} {g : σ → Effect σ β}
    (h : ∀ t, Mirrors view (f t) (g (view t))) : Mirrors view (get >>= f) (get >>= g) :=
  fun t => h t t

theorem exists_ok {a : α} (h : Mirrors view x y) (t : τ) (hok : (y (view t)).1 = .ok a) :
    ∃ t', x t = (.ok a, t') ∧ view t' = (y (view t)).2 := by
  rw [h t] at hok ⊢
  exact ⟨(x t).2, Prod.ext hok rfl, rfl⟩

theorem modify {f : τ → τ} {g : σ → σ} (h : ∀ t, view (f t) = g (view t)) :
    Mirrors view (modify f : Effect τ PUnit) (modify g) :=
  fun t => Prod.ext rfl (h t).symm

end Mirrors

end Effect

open Effect

def Progress.view (view : τ → σ) (p : Progress τ) : Progress σ :=
  ⟨view p.world, p.stats⟩

structure Context.Mirrors (view : τ → σ) (c : Context τ) (d : Context σ) : Prop where
  answersBatches : ∀ t, c.executor.answersBatches t = d.executor.answersBatches (view t)
  execute : ∀ query vector,
    Effect.Mirrors view (c.executor.execute query vector) (d.executor.execute query vector)
  executeBatch : ∀ query vectors,
    Effect.Mirrors view (c.executor.executeBatch query vectors)
      (d.executor.executeBatch query vectors)
  cancelled : ∀ t, c.cancelled t = d.cancelled (view t)
  rowLimit : c.rowLimit = d.rowLimit

namespace Run

variable {view : τ → σ}

theorem mirrors_ofEffect {x : Effect τ α} {y : Effect σ α} (h : Effect.Mirrors view x y) :
    Effect.Mirrors (Progress.view view) (ofEffect x) (ofEffect y) := by
  intro p
  change ((y (view p.world)).1, Progress.mk (y (view p.world)).2 p.stats) = _
  rw [h p.world]
  rfl

theorem mirrors_located {x : Run τ α} {y : Run σ α} (h : Effect.Mirrors (Progress.view view) x y)
    (group : Group) (path : List String) :
    Effect.Mirrors (Progress.view view) (located group path x) (located group path y) := by
  intro p
  change ((y (p.view view)).1.mapError (Error.located group.name path), (y (p.view view)).2) = _
  rw [h p]
  rfl

theorem mirrors_countCall (vectors : Nat) (batched : Bool) :
    Effect.Mirrors (Progress.view view) (countCall vectors batched)
      (countCall vectors batched) :=
  Effect.Mirrors.modify fun _ => rfl

end Run

namespace Context.Mirrors

variable {view : τ → σ} {c : Context τ} {d : Context σ}

theorem mirrors_checkCancelled (h : c.Mirrors view d) :
    Effect.Mirrors (Progress.view view) c.checkCancelled d.checkCancelled := by
  have hcomp := Effect.Mirrors.compositional (Progress.view view)
  apply Effect.Mirrors.get_bind
  intro p
  rw [h.cancelled]
  exact hcomp.ite (hcomp.throw _) (hcomp.pure ())

theorem mirrors_addRows (h : c.Mirrors view d) (count : Nat) :
    Effect.Mirrors (Progress.view view) (c.addRows count) (d.addRows count) := by
  have hcomp := Effect.Mirrors.compositional (Progress.view view)
  apply Effect.Mirrors.bind
  · exact Effect.Mirrors.modify fun _ => rfl
  · intro _
    apply Effect.Mirrors.get_bind
    intro p
    rw [h.rowLimit]
    exact hcomp.ite (hcomp.throw _) (hcomp.pure ())

theorem mirrors_execute (h : c.Mirrors view d) (query : String) (vector : List Value) :
    Effect.Mirrors (Progress.view view) (c.execute query vector) (d.execute query vector) := by
  apply h.mirrors_checkCancelled.bind
  intro _
  apply (Run.mirrors_countCall 1 false).bind
  intro _
  exact Run.mirrors_ofEffect (h.execute query vector)

theorem mirrors_executeBatch (h : c.Mirrors view d) (query : String) (vectors : List (List Value)) :
    Effect.Mirrors (Progress.view view) (c.executeBatch query vectors)
      (d.executeBatch query vectors) := by
  have hcomp := Effect.Mirrors.compositional (Progress.view view)
  apply h.mirrors_checkCancelled.bind
  intro _
  apply (Run.mirrors_countCall vectors.length true).bind
  intro _
  apply (Run.mirrors_ofEffect (h.executeBatch query vectors)).bind
  intro answers
  exact hcomp.ite (hcomp.bind (hcomp.throw _) fun _ => hcomp.pure answers)
    (hcomp.pure answers)

theorem mirrors_executeAll (h : c.Mirrors view d) (query : String) (vectors : List (List Value)) :
    Effect.Mirrors (Progress.view view) (c.executeAll query vectors)
      (d.executeAll query vectors) := by
  have hcomp := Effect.Mirrors.compositional (Progress.view view)
  apply Effect.Mirrors.get_bind
  intro p
  rw [h.answersBatches]
  exact hcomp.ite (hcomp.mapM fun vector => h.mirrors_execute query vector)
    (h.mirrors_executeBatch query vectors)

theorem relates (h : c.Mirrors view d) :
    Context.Relates (fun _ => Effect.Mirrors (Progress.view view)) c d where
  toCompositional := Effect.Mirrors.compositional (Progress.view view)
  located := Run.mirrors_located
  checkCancelled := h.mirrors_checkCancelled
  addRows := h.mirrors_addRows
  execute := h.mirrors_execute
  executeAll := h.mirrors_executeAll

end Context.Mirrors

namespace Assembler

variable {view : τ → σ} {a : Assembler σ} {executor : Executor τ}

def through (a : Assembler σ) (view : τ → σ) (executor : Executor τ) : Assembler τ :=
  ⟨a.catalog, executor, a.config, fun t => a.cancelled (view t)⟩

theorem mirrors_start {x : Run τ α} {y : Run σ α}
    (h : Effect.Mirrors (Progress.view view) x y) :
    Effect.Mirrors view (Run.start x) (Run.start y) := by
  intro t
  let p : Progress τ := ⟨t, .zero⟩
  change ((y (p.view view)).1.map fun a => (a, (y (p.view view)).2.stats),
    (y (p.view view)).2.world) = _
  rw [h p]
  rfl

variable (h : (a.through view executor).context.Mirrors view a.context)
include h

theorem mirrors_assembleIn (group : Group) (scope : Scope) :
    Effect.Mirrors view ((a.through view executor).assembleIn group scope)
      (a.assembleIn group scope) := by
  rw [assembleIn_eq, assembleIn_eq]
  apply Effect.Mirrors.get_bind
  intro t
  have hstrategy : (a.through view executor).strategy t = a.strategy (view t) :=
    congrArg a.config.strategyFor (h.answersBatches t)
  rw [hstrategy]
  exact (mirrors_start (relates_nodes h.relates rfl _ group scope)).bind
    fun result => (Effect.Mirrors.compositional view).pure _

theorem relates_through : Relates (fun _ => Effect.Mirrors view) (a.through view executor) a where
  toCompositional := Effect.Mirrors.compositional view
  catalog := rfl
  assembleIn := mirrors_assembleIn h

theorem mirrors_assembleWithStats (name : String) :
    Effect.Mirrors view ((a.through view executor).assembleWithStats name)
      (a.assembleWithStats name) :=
  (relates_through h).assembleWithStats name

theorem mirrors_assemble (name : String) :
    Effect.Mirrors view ((a.through view executor).assemble name) (a.assemble name) :=
  (relates_through h).assemble name

theorem mirrors_assembleWithin (name : String) (rows : List Row) :
    Effect.Mirrors view ((a.through view executor).assembleWithin name rows)
      (a.assembleWithin name rows) :=
  (relates_through h).assembleWithin name rows

end Assembler

end NestedViews
