import NestedViews.Proofs.Assembly.Overlap.Invariants
import NestedViews.Proofs.Future.Follows

namespace NestedViews

open Async

variable {σ τ α : Type} {l : Lockstep τ σ}

def Lockstep.progress (l : Lockstep τ σ) : Lockstep (Progress τ) (Progress σ) :=
  ⟨Progress.view l.view, fun p => l.apart p.world, l.mayFail⟩

structure Resolver.Follows (l : Lockstep τ σ) (r : Resolver τ) (r' : Resolver σ) : Prop where
  answersBatches : ∀ t, ¬ l.apart t →
    r.executor.answersBatches t = r'.executor.answersBatches (l.view t)
  execute : ∀ query vector,
    Async.Follows l (r.executor.execute query vector) (r'.executor.execute query vector)
  executeBatch : ∀ query vectors,
    Async.Follows l (r.executor.executeBatch query vectors)
      (r'.executor.executeBatch query vectors)
  turns : ∀ t, ¬ l.apart t → r.executor.turns t = r'.executor.turns (l.view t)
  cancelled : ∀ t, ¬ l.apart t →
    r.cancelled t = r'.cancelled (l.view t) ∨ l.mayFail ∧ r.cancelled t
  rowLimit : r.rowLimit = r'.rowLimit
  concurrency : r.concurrency = r'.concurrency

namespace Resolver.Follows

variable {r : Resolver τ} {r' : Resolver σ}

theorem compositional (l : Lockstep τ σ) :
    Compositional fun α => @Async.Follows (Progress σ) (Progress τ) α l.progress :=
  follows_compositional _

theorem follows_ofCall {x : Async τ α} {y : Async σ α} (h : Async.Follows l x y) :
    Async.Follows l.progress (ofCall x) (ofCall y) :=
  h.within l.progress (fun _ => id) id (fun _ => rfl) (fun _ _ => rfl) fun _ => rfl

theorem follows_of_flag (h : r.Follows l r') {x : Run τ α} {y : Run σ α} {answer : Except Error α}
    (hx : ∀ p, x p = (if r.cancelled p.world then .error .cancelled else answer, p))
    (hy : ∀ p, y p = (if r'.cancelled p.world then .error .cancelled else answer, p)) :
    Async.Follows l.progress (.ofEffect x) (.ofEffect y) := by
  apply follows_ofEffect
  intro p hp
  rw [hx, hy]
  refine ⟨rfl, ?_⟩
  obtain hsame | ⟨hmay, hup⟩ := h.cancelled p.world hp
  · rw [hsame]
    exact .inl rfl
  · rw [if_pos hup]
    exact .inr ⟨hmay, _, rfl⟩

theorem checkCancelled (h : r.Follows l r') :
    Async.Follows l.progress (.ofEffect r.context.checkCancelled)
      (.ofEffect r'.context.checkCancelled) :=
  h.follows_of_flag r.context.checkCancelled_eq r'.context.checkCancelled_eq

theorem prepare (h : r.Follows l r') (group : Group) (path : List String) :
    Async.Follows l.progress (r.prepare group path) (r'.prepare group path) := by
  obtain ⟨answer, hanswer⟩ := Context.exists_prepare_eq group path
  exact h.follows_of_flag (hanswer r.context) (hanswer r'.context)

theorem addRows (h : r.Follows l r') (count : Nat) :
    Async.Follows l.progress (r.addRows count) (r'.addRows count) := by
  have hcomp := Effect.Mirrors.compositional (Progress.view l.view)
  have hlimit : r.context.rowLimit = r'.context.rowLimit := h.rowLimit
  apply follows_of_mirrors
  apply Effect.Mirrors.bind
  · exact Effect.Mirrors.modify fun _ => rfl
  · intro _
    apply Effect.Mirrors.get_bind
    intro p
    rw [hlimit]
    exact hcomp.ite (hcomp.throw _) (hcomp.pure ())

theorem countCall (vectors : Nat) (batched : Bool) :
    Async.Follows l.progress (.ofEffect (Run.countCall vectors batched))
      (.ofEffect (Run.countCall vectors batched)) :=
  follows_of_mirrors (Run.mirrors_countCall vectors batched)

theorem follows_execute (h : r.Follows l r') (query : String) (vector : List Value) :
    Async.Follows l.progress (r.execute query vector) (r'.execute query vector) := by
  have hcomp := compositional l
  apply hcomp.bind h.checkCancelled
  intro _
  apply hcomp.bind (countCall 1 false)
  intro _
  exact follows_ofCall (h.execute query vector)

theorem follows_executeBatch (h : r.Follows l r') (query : String)
    (vectors : List (List Value)) :
    Async.Follows l.progress (r.executeBatch query vectors) (r'.executeBatch query vectors) := by
  have hcomp := compositional l
  apply hcomp.bind h.checkCancelled
  intro _
  apply hcomp.bind (countCall vectors.length true)
  intro _
  apply hcomp.bind (follows_ofCall (h.executeBatch query vectors))
  intro answers
  exact hcomp.ite (hcomp.bind (hcomp.throw _) fun _ => hcomp.pure answers) (hcomp.pure answers)

theorem executeAll (h : r.Follows l r') (query : String) (vectors : List (List Value)) :
    Async.Follows l.progress (r.executeAll query vectors) (r'.executeAll query vectors) := by
  have hcomp := compositional l
  apply follows_get_bind
  intro p hp
  rw [h.answersBatches p.world hp]
  exact hcomp.ite (hcomp.mapM (h.follows_execute query)) (h.follows_executeBatch query vectors)

theorem gather (h : r.Follows l r') {parts : List (Async (Progress τ) α)}
    {parts' : List (Async (Progress σ) α)}
    (hparts : List.Forall₂ (Async.Follows l.progress) parts parts') :
    Async.Follows l.progress (r.gather parts) (r'.gather parts') := by
  unfold Resolver.gather
  rw [h.concurrency, ← hparts.length_eq]
  exact Future.Follows.gather (l := l.progress) (fun p hp => h.turns p.world hp) hparts le_rfl

mutual

theorem resolve (h : Resolver.Follows l r r') : (o : Outline) → (scope : Scope) →
    (path : List String) →
      Async.Follows l.progress (o.resolve r scope path) (o.resolve r' scope path)
  | .mk group nested, scope, path => by
    have hcomp := compositional l
    rw [Outline.resolve, Outline.resolve]
    apply follows_located
    apply hcomp.bind (h.prepare group path)
    intro plan
    apply hcomp.bind (hcomp.liftM (plan.parameters scope))
    intro vector
    apply hcomp.bind (h.follows_execute plan.query vector)
    intro rows
    apply hcomp.bind (h.addRows rows.length)
    intro _
    apply hcomp.mapM
    intro row
    apply hcomp.bind (hcomp.liftM (group.checkRow row))
    intro _
    exact hcomp.bind
      (h.gather (h.resolveNested nested (⟨group, row⟩ :: scope) (path ++ [group.name])))
      fun collections => hcomp.pure _

theorem resolveNested (h : Resolver.Follows l r r') : (outlines : List Outline) →
    (scope : Scope) → (path : List String) →
      List.Forall₂ (Async.Follows l.progress) (Outline.resolveNested r outlines scope path)
        (Outline.resolveNested r' outlines scope path)
  | [], _, _ => by
    rw [Outline.resolveNested, Outline.resolveNested]
    exact .nil
  | o :: rest, scope, path => by
    have hcomp := compositional l
    rw [Outline.resolveNested, Outline.resolveNested]
    exact .cons (hcomp.bind (h.resolve o scope path) fun nodes => hcomp.pure _)
      (h.resolveNested rest scope path)

end

mutual

theorem resolveLevel (h : Resolver.Follows l r r') : (o : Outline) → (scopes : List Scope) →
    (path : List String) →
      Async.Follows l.progress (o.resolveLevel r scopes path) (o.resolveLevel r' scopes path)
  | .mk group nested, scopes, path => by
    have hcomp := compositional l
    rw [Outline.resolveLevel, Outline.resolveLevel]
    apply follows_located
    apply hcomp.bind (h.prepare group path)
    intro plan
    apply hcomp.ite (hcomp.pure [])
    apply hcomp.bind (hcomp.liftM (scopes.mapM plan.parameters))
    intro vectors
    apply hcomp.bind (h.executeAll plan.query vectors)
    intro answers
    apply hcomp.bind
    · apply hcomp.forM
      intro rows
      apply hcomp.bind (h.addRows rows.length)
      intro _
      exact hcomp.forM fun row => hcomp.liftM (group.checkRow row)
    · intro _
      exact hcomp.bind (h.gather (h.resolveLevels nested (rowScopes group scopes answers)
        (path ++ [group.name]))) fun columns => hcomp.pure _

theorem resolveLevels (h : Resolver.Follows l r r') : (outlines : List Outline) →
    (scopes : List Scope) → (path : List String) →
      List.Forall₂ (Async.Follows l.progress) (Outline.resolveLevels r outlines scopes path)
        (Outline.resolveLevels r' outlines scopes path)
  | [], _, _ => by
    rw [Outline.resolveLevels, Outline.resolveLevels]
    exact .nil
  | o :: rest, scopes, path => by
    have hcomp := compositional l
    rw [Outline.resolveLevels, Outline.resolveLevels]
    exact .cons (hcomp.bind (h.resolveLevel o scopes path) fun column => hcomp.pure _)
      (h.resolveLevels rest scopes path)

end

end Resolver.Follows

namespace Effect

/-- A run goes like another one, or fails, or the two change their worlds each in its way from
somewhere on. -/
structure Follows (l : Lockstep τ σ) (R : τ → τ → Prop) (R' : σ → σ → Prop) (x : Effect τ α)
    (y : Effect σ α) : Prop where
  changes : ∀ t, R t (x t).2
  changes' : ∀ s, R' s (y s).2
  goes : ∀ t, ¬ l.apart t → (l.mayFail ∧ ∃ e, (x t).1 = .error e) ∨
    y (l.view t) = ((x t).1, l.view (x t).2) ∨
      ∃ t', l.apart t' ∧ R t' (x t).2 ∧ R' (l.view t') (y (l.view t)).2

theorem changes_bind {R : σ → σ → Prop} [IsPreorder σ R] (x : Effect σ α) {f : α → Effect σ β}
    (hf : ∀ a s, R s (f a s).2) (s : σ) : R (x s).2 ((x >>= f) s).2 := by
  rcases hx : x s with ⟨e | a, s'⟩
  · rw [bind_eq_of_error hx]
    exact refl_of R s'
  · rw [bind_eq_of_ok hx]
    exact hf a s'

theorem Follows.compositional (l : Lockstep τ σ) (R : τ → τ → Prop) (R' : σ → σ → Prop)
    [IsPreorder τ R] [IsPreorder σ R'] : Compositional fun α => @Follows σ τ α l R R' where
  liftM answer := by
    cases answer <;> exact ⟨refl_of R, refl_of R', fun _ _ => .inr (.inl rfl)⟩
  bind := by
    intro α β x y f g h hf
    have hrest := changes_bind (R := R) x fun a => (hf a).changes
    have hrest' := changes_bind (R := R') y fun a => (hf a).changes'
    refine ⟨fun t => trans_of R (h.changes t) (hrest t),
      fun s => trans_of R' (h.changes' s) (hrest' s), fun t ht => ?_⟩
    obtain ⟨hmay, e, hfails⟩ | hsame | ⟨t', happart, hreaches, hreaches'⟩ := h.goes t ht
    · exact .inl ⟨hmay, e, congrArg Prod.fst (bind_eq_of_error (Prod.ext hfails rfl))⟩
    · rcases hx : x t with ⟨e | a, t'⟩ <;> rw [hx] at hsame
      · rw [bind_eq_of_error hx, bind_eq_of_error hsame]
        exact .inr (.inl rfl)
      · rw [bind_eq_of_ok hx, bind_eq_of_ok hsame]
        by_cases happart : l.apart t'
        · exact .inr (.inr ⟨t', happart, (hf a).changes t', (hf a).changes' (l.view t')⟩)
        · exact (hf a).goes t' happart
    · exact .inr (.inr ⟨t', happart, trans_of R hreaches (hrest t),
        trans_of R' hreaches' (hrest' (l.view t))⟩)

end Effect

namespace SuspendingAssembler

variable {R : τ → τ → Prop} {R' : σ → σ → Prop} {bare located : Error → τ → Prop}
variable {bare' located' : Error → σ → Prop}

theorem follows_start [IsPreorder τ R] [IsPreorder σ R'] {x : Async (Progress τ) α}
    {y : Async (Progress σ) α} (h : Async.Follows l.progress x y)
    (hx : Resolver.Fails R located x) (hy : Resolver.Fails R' located' y) :
    Effect.Follows l R R' (Run.start x.run) (Run.start y.run) := by
  refine ⟨fun t => (hx ⟨t, .zero⟩).reaches.run.2, fun s => (hy ⟨s, .zero⟩).reaches.run.2,
    fun t ht => ?_⟩
  let p : Progress τ := ⟨t, .zero⟩
  have hrun := h.run (t := p) ht ((hx p).mono fun _ _ _ => trivial)
    ((hy (p.view l.view)).mono fun _ _ _ => trivial)
  obtain ⟨hmay, e, hfails⟩ | ⟨hsame, hview⟩ | ⟨p', happart, hreaches, hreaches'⟩ := hrun
  · refine .inl ⟨hmay, e, ?_⟩
    change (x.run p).1.map _ = _
    rw [Async.run, hfails]
    rfl
  · have hy' : y.run (p.view l.view) = ((x.run p).1, (x.run p).2.view l.view) :=
      Prod.ext hsame.symm hview.symm
    refine .inr (.inl ?_)
    change ((y.run (p.view l.view)).1.map fun a => (a, (y.run (p.view l.view)).2.stats),
      (y.run (p.view l.view)).2.world) = _
    rw [hy']
    rfl
  · exact .inr (.inr ⟨p'.world, happart, hreaches, hreaches'⟩)

variable {a : SuspendingAssembler τ} {b : SuspendingAssembler σ}

theorem follows_nodes (h : a.resolver.Follows l b.resolver) (hcatalog : a.catalog = b.catalog)
    (strategy : Strategy) (g : Group) (scope : Scope) :
    Async.Follows l.progress (a.nodes strategy g scope) (b.nodes strategy g scope) := by
  unfold nodes
  rw [hcatalog]
  have hat := h.resolve (b.catalog.outline g) scope scope.path
  cases strategy with
  | auto => exact hat
  | depthFirst => exact hat
  | batched =>
    have hcomp := Resolver.Follows.compositional l
    exact hcomp.bind (h.resolveLevel (b.catalog.outline g) [scope] scope.path)
      fun columns => hcomp.pure columns.flatten

theorem relates_follows [IsPreorder τ R] [IsPreorder σ R'] (h : a.resolver.Follows l b.resolver)
    (hcatalog : a.catalog = b.catalog) (hconfig : a.config = b.config)
    (hkeeps : a.resolver.Keeps R (fun _ _ => True) fun _ _ => True)
    (hkeeps' : b.resolver.Keeps R' (fun _ _ => True) fun _ _ => True) :
    Relates (fun _ => Effect.Follows l R R') a b := by
  have hcomp := Effect.Follows.compositional l R R'
  refine ⟨hcomp, hcatalog, fun g scope => ⟨fun t => ?_, fun s => ?_, fun t ht => ?_⟩⟩
  · have hends := ends_assembleIn_keeps hkeeps g scope
      (fun _ _ _ _ _ _ => trivial) t
    exact (hends.mono (fun _ _ => id) fun _ _ => And.left).snd
  · have hends := ends_assembleIn_keeps hkeeps' g scope
      (fun _ _ _ _ _ _ => trivial) s
    exact (hends.mono (fun _ _ => id) fun _ _ => And.left).snd
  · have hstrategy : a.strategy t = b.strategy (l.view t) := by
      unfold strategy
      rw [hconfig]
      exact congrArg b.config.strategyFor (h.answersBatches t ht)
    have hnodes := follows_nodes h hcatalog (a.strategy t) g scope
    have hstart := follows_start hnodes (fails_nodes hkeeps _ fun _ _ _ _ _ _ => trivial)
      (fails_nodes hkeeps' _ fun _ _ _ _ _ _ => trivial)
    have hin : b.assembleIn g scope (l.view t) =
        (Run.start (b.nodes (a.strategy t) g scope).run >>= fun result =>
          pure (.root (.mk g result.1), result.2)) (l.view t) := by
      rw [hstrategy]
      rfl
    rw [hin]
    exact (hcomp.bind hstart fun result => hcomp.pure _).goes t ht

end SuspendingAssembler

section Through

variable {view : τ → σ} {a : SuspendingAssembler σ} {executor : SuspendingExecutor τ}

def Lockstep.seen (view : τ → σ) : Lockstep τ σ :=
  ⟨view, fun _ => False, False⟩

instance isPreorder_true : IsPreorder σ fun _ _ => True where
  refl _ := trivial
  trans _ _ _ _ _ := trivial

theorem Resolver.keeps_true (r : Resolver σ) :
    r.Keeps (fun _ _ => True) (fun _ _ => True) fun _ _ => True where
  preorder := inferInstance
  stable _ _ _ _ _ := trivial
  bare_of_located _ _ _ := trivial
  bare_of_unplaced _ _ _ := trivial
  execute _ _ _ _ := (Future.Ensures.of_true _ _).mono fun _ _ _ _ _ => trivial
  executeBatch _ _ _ _ := (Future.Ensures.of_true _ _).mono fun _ _ _ _ _ => trivial

theorem Effect.Follows.mirrors {R : τ → τ → Prop} {R' : σ → σ → Prop} {x : Effect τ α}
    {y : Effect σ α} (h : Follows (.seen view) R R' x y) : Mirrors view x y := by
  intro t
  obtain ⟨hmay, _⟩ | hsame | ⟨_, hapart, _⟩ := h.goes t id
  · exact hmay.elim
  · exact hsame
  · exact hapart.elim

def SuspendingAssembler.through (a : SuspendingAssembler σ) (view : τ → σ)
    (executor : SuspendingExecutor τ) : SuspendingAssembler τ :=
  ⟨a.catalog, executor, a.config, fun t => a.cancelled (view t)⟩

theorem SuspendingAssembler.relates_through
    (h : (a.through view executor).resolver.Follows (.seen view) a.resolver) :
    Relates (fun _ => Effect.Mirrors view) (a.through view executor) a := by
  have hfollows := relates_follows h rfl rfl (Resolver.keeps_true _) (Resolver.keeps_true _)
  exact ⟨Effect.Mirrors.compositional view, rfl,
    fun g scope => (hfollows.assembleIn g scope).mirrors⟩

end Through

end NestedViews
