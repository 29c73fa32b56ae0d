import NestedViews.Assembly.Assembler
import NestedViews.Proofs.Future

namespace NestedViews

open Async

variable {σ α : Type}

mutual

def Outline.assembleAt (c : Context σ) : Outline → Scope → List String → Run σ (List Node)
  | .mk group nested, scope, path => Run.located group path do
    let plan ← c.prepare group path
    let vector ← liftM (plan.parameters scope)
    let rows ← c.execute plan.query vector
    c.addRows rows.length
    rows.mapM fun row => do
      liftM (group.checkRow row)
      let collections ←
        Outline.assembleNested c nested (⟨group, row⟩ :: scope) (path ++ [group.name])
      return .ofRow group row collections

def Outline.assembleNested (c : Context σ) :
    List Outline → Scope → List String → Run σ (List Collection)
  | [], _, _ => return []
  | o :: rest, scope, path => do
    let nodes ← o.assembleAt c scope path
    return .mk o.group nodes :: (← Outline.assembleNested c rest scope path)

end

mutual

def Outline.assembleAll (c : Context σ) :
    Outline → List Scope → List String → Run σ (List (List Node))
  | .mk group nested, scopes, path => Run.located group path do
    let plan ← c.prepare group path
    if scopes.isEmpty then return []
    let vectors ← liftM (scopes.mapM plan.parameters)
    let answers ← c.executeAll plan.query vectors
    answers.forM fun rows => do
      c.addRows rows.length
      rows.forM fun row => liftM (group.checkRow row)
    let collections ←
      Outline.assembleColumns c nested (rowScopes group scopes answers) (path ++ [group.name])
    return attach group answers collections

def Outline.assembleColumns (c : Context σ) :
    List Outline → List Scope → List String → Run σ (List (List Collection))
  | [], scopes, _ => return scopes.map fun _ => []
  | o :: rest, scopes, path => do
    let column ← o.assembleAll c scopes path
    let others ← Outline.assembleColumns c rest scopes path
    return List.zipWith (fun nodes collections => .mk o.group nodes :: collections) column others

end

structure SuspendingExecutor.Prompt (e : SuspendingExecutor σ) : Prop where
  execute : ∀ query vector, Future.Prompt (e.execute query vector)
  executeBatch : ∀ query vectors, Future.Prompt (e.executeBatch query vectors)

namespace Async

variable {alone : Prop}

theorem performs_located {x : Async (Progress σ) α} {y : Run σ α} (h : Performs alone x y)
    (group : Group) (path : List String) :
    Performs alone (located group path x) (Run.located group path y) := by
  constructor
  · funext p
    rw [← h.run_eq]
    exact Future.run_bind x _ p
  · exact h.prompt.imp_right fun hprompt => hprompt.bind fun _ => trivial

theorem performs_ofCall {x : Async σ α} (h : alone ∨ Future.Prompt x) :
    Performs alone (ofCall x) (Run.ofEffect x.run) where
  run_eq := by
    funext p
    exact Future.run_within Progress.world (fun p world => { p with world }) (fun _ _ => rfl)
      (fun _ => rfl) (fun _ _ _ => rfl) x p
  prompt := h.imp_right Future.Prompt.within

end Async

namespace Resolver

variable {r : Resolver σ}

/-- There is room for one group at a time only, or no group ever waits for a call. -/
def Sequential (r : Resolver σ) : Prop :=
  r.concurrency ≤ 1 ∨ r.executor.Prompt

theorem width_le (h : r.concurrency ≤ 1) : max r.concurrency 1 ≤ 1 :=
  max_le h (le_refl 1)

theorem performs_compositional (r : Resolver σ) :
    Compositional fun α => @Performs (Progress σ) α (r.concurrency ≤ 1) :=
  Performs.compositional _

theorem performs_execute (h : r.Sequential) (query : String) (vector : List Value) :
    Performs (r.concurrency ≤ 1) (r.execute query vector) (r.context.execute query vector) := by
  have hcomp := r.performs_compositional
  apply hcomp.bind (.ofEffect _)
  intro _
  apply hcomp.bind (.ofEffect _)
  intro _
  exact performs_ofCall (h.imp_right fun hprompt => hprompt.execute query vector)

theorem performs_executeBatch (h : r.Sequential) (query : String) (vectors : List (List Value)) :
    Performs (r.concurrency ≤ 1) (r.executeBatch query vectors)
      (r.context.executeBatch query vectors) := by
  have hcomp := r.performs_compositional
  apply hcomp.bind (.ofEffect _)
  intro _
  apply hcomp.bind (.ofEffect _)
  intro _
  apply hcomp.bind (performs_ofCall (h.imp_right fun hprompt => hprompt.executeBatch query vectors))
  intro answers
  exact hcomp.ite (hcomp.bind (hcomp.throw _) fun _ => hcomp.pure answers) (hcomp.pure answers)

theorem performs_executeAll (h : r.Sequential) (query : String) (vectors : List (List Value)) :
    Performs (r.concurrency ≤ 1) (r.executeAll query vectors)
      (r.context.executeAll query vectors) := by
  have hcomp := r.performs_compositional
  apply hcomp.bind (.ofEffect (get : Run σ (Progress σ)))
  intro p
  exact hcomp.ite (hcomp.mapM (performs_execute h query)) (performs_executeBatch h query vectors)

end Resolver

namespace Outline

open Resolver

variable {r : Resolver σ}

mutual

theorem performs_resolve (h : r.Sequential) : (o : Outline) → (scope : Scope) →
    (path : List String) →
      Performs (r.concurrency ≤ 1) (o.resolve r scope path) (o.assembleAt r.context scope path)
  | .mk group nested, scope, path => by
    have hcomp := r.performs_compositional
    rw [resolve, assembleAt]
    apply performs_located
    apply hcomp.bind (.ofEffect _)
    intro plan
    apply hcomp.bind (hcomp.liftM (plan.parameters scope))
    intro vector
    apply hcomp.bind (performs_execute h plan.query vector)
    intro rows
    apply hcomp.bind (.ofEffect _)
    intro _
    apply hcomp.mapM
    intro row
    apply hcomp.bind (hcomp.liftM (group.checkRow row))
    intro _
    exact hcomp.bind
      (performs_resolveNested h nested (⟨group, row⟩ :: scope) (path ++ [group.name]))
      fun collections => hcomp.pure _

theorem performs_resolveNested (h : r.Sequential) : (outlines : List Outline) → (scope : Scope) →
    (path : List String) →
      Performs (r.concurrency ≤ 1) (r.gather (resolveNested r outlines scope path))
        (assembleNested r.context outlines scope path)
  | [], _, _ => Performs.gather_nil
  | o :: rest, scope, path => by
    have hcomp := r.performs_compositional
    have hfirst := hcomp.bind (performs_resolve h o scope path) fun nodes =>
      hcomp.pure (Collection.mk o.group nodes)
    have hrest := performs_resolveNested h rest scope path
    have hboth : Performs (r.concurrency ≤ 1) (r.gather (_ :: resolveNested r rest scope path)) _ :=
      .gather_cons width_le hfirst hrest
    rw [resolveNested, assembleNested]
    simpa only [bind_assoc, pure_bind] using hboth

end

mutual

theorem performs_resolveLevel (h : r.Sequential) : (o : Outline) → (scopes : List Scope) →
    (path : List String) →
      Performs (r.concurrency ≤ 1) (o.resolveLevel r scopes path)
        (o.assembleAll r.context scopes path)
  | .mk group nested, scopes, path => by
    have hcomp := r.performs_compositional
    rw [resolveLevel, assembleAll]
    apply performs_located
    apply hcomp.bind (.ofEffect _)
    intro plan
    apply hcomp.ite (hcomp.pure [])
    apply hcomp.bind (hcomp.liftM (scopes.mapM plan.parameters))
    intro vectors
    apply hcomp.bind (performs_executeAll h plan.query vectors)
    intro answers
    apply hcomp.bind
    · apply hcomp.forM
      intro rows
      apply hcomp.bind (.ofEffect _)
      intro _
      exact hcomp.forM fun row => hcomp.liftM (group.checkRow row)
    · intro _
      obtain ⟨columns, hcolumns, heq⟩ :=
        performs_resolveLevels h nested (rowScopes group scopes answers) (path ++ [group.name])
      rw [heq]
      simpa only [bind_assoc, pure_bind] using hcomp.bind hcolumns fun columns => hcomp.pure _

theorem performs_resolveLevels (h : r.Sequential) : (outlines : List Outline) →
    (scopes : List Scope) → (path : List String) →
      ∃ columns, Performs (r.concurrency ≤ 1) (r.gather (resolveLevels r outlines scopes path))
        columns ∧ assembleColumns r.context outlines scopes path =
          do return collate scopes (← columns)
  | [], scopes, _ => ⟨pure [], Performs.gather_nil, by rw [assembleColumns, pure_bind]; rfl⟩
  | o :: rest, scopes, path => by
    have hcomp := r.performs_compositional
    have hfirst := hcomp.bind (performs_resolveLevel h o scopes path) fun column =>
      hcomp.pure (column.map (Collection.mk o.group))
    obtain ⟨columns, hrest, heq⟩ := performs_resolveLevels h rest scopes path
    have hboth : Performs (r.concurrency ≤ 1)
        (r.gather (_ :: resolveLevels r rest scopes path)) _ := .gather_cons width_le hfirst hrest
    rw [resolveLevels, assembleColumns, heq]
    refine ⟨_, hboth, ?_⟩
    simp only [bind_assoc, pure_bind, collate, List.foldr_cons, List.zipWith_map_left]

end

end Outline

namespace Assembler

variable (a : Assembler σ)

def context : Context σ :=
  ⟨a.executor, a.cancelled, a.config.rowLimit⟩

def nodes (strategy : Strategy) (group : Group) (scope : Scope) : Run σ (List Node) :=
  let outline := a.catalog.outline group
  match strategy with
  | .batched => do return (← outline.assembleAll a.context [scope] scope.path).flatten
  | _ => outline.assembleAt a.context scope scope.path

end Assembler

namespace SuspendingAssembler

variable {a : SuspendingAssembler σ}

def blocking (a : SuspendingAssembler σ) : Assembler σ :=
  ⟨a.catalog, a.executor.blocking, a.config, a.cancelled⟩

theorem run_nodes (h : a.resolver.Sequential) (strategy : Strategy) (group : Group)
    (scope : Scope) :
    (a.nodes strategy group scope).run = a.blocking.nodes strategy group scope := by
  have hat := (Outline.performs_resolve h (a.catalog.outline group) scope scope.path).run_eq
  cases strategy with
  | auto => exact hat
  | depthFirst => exact hat
  | batched =>
    have hcomp := a.resolver.performs_compositional
    have hall := Outline.performs_resolveLevel h (a.catalog.outline group) [scope] scope.path
    exact (hcomp.bind hall fun columns => hcomp.pure columns.flatten).run_eq

theorem assembleIn_eq (h : a.resolver.Sequential) (group : Group) (scope : Scope) :
    a.assembleIn group scope = do
      let (nodes, stats) ← Run.start (a.blocking.nodes (a.strategy (← get)) group scope)
      return (.root (.mk group nodes), stats) := by
  simp only [assembleIn, run_nodes h]

theorem prompt_suspending (e : Executor σ) : e.suspending.Prompt where
  execute _ _ _ := trivial
  executeBatch _ _ _ := trivial

end SuspendingAssembler

namespace Assembler

variable (a : Assembler σ)

theorem assembleIn_eq (group : Group) (scope : Scope) :
    a.assembleIn group scope = do
      let (nodes, stats) ← Run.start (a.nodes (a.strategy (← get)) group scope)
      return (.root (.mk group nodes), stats) :=
  SuspendingAssembler.assembleIn_eq (a := a.suspending)
    (.inr (SuspendingAssembler.prompt_suspending a.executor)) group scope

theorem assembleWithStats_eq (root : String) : a.assembleWithStats root = (do
    let group ← liftM (a.catalog.group root)
    match group.parent with
    | some parent => throw (.schema (.needsRows root parent))
    | none => a.assembleIn group []) :=
  rfl

theorem assemble_eq (root : String) : a.assemble root = do
    return (← a.assembleWithStats root).1 := rfl

theorem assembleXml_eq (root tag : String) : a.assembleXml root tag = do
    return (← a.assemble root).toXml tag := rfl

theorem assembleWithin_eq (name : String) (rows : List Row) : a.assembleWithin name rows = do
    let group ← liftM (a.catalog.group name)
    let ancestors := (a.catalog.ancestors group.name).reverse
    if ancestors.length ≠ rows.length then
      throw (.schema (.wrongDepth group.name ancestors.length rows.length))
    let scope ← liftM (scopeOf [] ancestors rows)
    return (← a.assembleIn group scope).1 := rfl

end Assembler

namespace SuspendingAssembler

variable {a : SuspendingAssembler σ} (h : a.resolver.Sequential)
include h

theorem assembleIn_blocking : a.assembleIn = a.blocking.assembleIn := by
  funext group scope
  rw [assembleIn_eq h, Assembler.assembleIn_eq]
  rfl

theorem assembleWithStats_blocking : a.assembleWithStats = a.blocking.assembleWithStats := by
  funext root
  simp only [assembleWithStats, Assembler.assembleWithStats_eq, assembleIn_blocking h]
  rfl

theorem assemble_blocking : a.assemble = a.blocking.assemble := by
  funext root
  rw [assemble, assembleWithStats_blocking h, Assembler.assemble_eq]

theorem assembleXml_blocking : a.assembleXml = a.blocking.assembleXml := by
  funext root tag
  rw [assembleXml, assemble_blocking h, Assembler.assembleXml_eq]

theorem assembleWithin_blocking : a.assembleWithin = a.blocking.assembleWithin := by
  funext name rows
  simp only [assembleWithin, Assembler.assembleWithin_eq, assembleIn_blocking h]
  rfl

end SuspendingAssembler

end NestedViews
