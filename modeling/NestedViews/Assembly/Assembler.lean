import NestedViews.Assembly.Batched
import NestedViews.Assembly.DepthFirst
import NestedViews.Document.Xml

namespace NestedViews

variable {σ : Type}

def Run.start (run : Run σ α) : Effect σ (α × Stats) :=
  fun world =>
    let (result, progress) := run ⟨world, .zero⟩
    (result.map fun a => (a, progress.stats), progress.world)

/-- The place with a row of each ancestor around it, outermost first, below an outer place. -/
def scopeOf (outer : Scope) : List Group → List Row → Except Error Scope
  | group :: groups, row :: rows => do
    group.checkRow row
    scopeOf (⟨group, row⟩ :: outer) groups rows
  | _, _ => .ok outer

structure SuspendingAssembler (σ : Type) where
  catalog : Catalog
  executor : SuspendingExecutor σ
  config : Config
  cancelled : σ → Bool

namespace SuspendingAssembler

def strategy (a : SuspendingAssembler σ) (world : σ) : Strategy :=
  a.config.strategyFor (a.executor.answersBatches world)

def resolver (a : SuspendingAssembler σ) : Resolver σ :=
  ⟨a.executor, a.cancelled, a.config.rowLimit, a.config.concurrency⟩

def nodes (a : SuspendingAssembler σ) (strategy : Strategy) (group : Group) (scope : Scope) :
    Async (Progress σ) (List Node) :=
  let outline := a.catalog.outline group
  match strategy with
  | .batched => do return (← outline.resolveLevel a.resolver [scope] scope.path).flatten
  | _ => outline.resolve a.resolver scope scope.path

def assembleIn (a : SuspendingAssembler σ) (group : Group) (scope : Scope) :
    Effect σ (Node × Stats) := do
  let (nodes, stats) ← Run.start (a.nodes (a.strategy (← get)) group scope).run
  return (.root (.mk group nodes), stats)

def assembleWithStats (a : SuspendingAssembler σ) (root : String) : Effect σ (Node × Stats) := do
  let group ← liftM (a.catalog.group root)
  match group.parent with
  | some parent => throw (.schema (.needsRows root parent))
  | none => a.assembleIn group []

def assemble (a : SuspendingAssembler σ) (root : String) : Effect σ Node := do
  return (← a.assembleWithStats root).1

def assembleXml (a : SuspendingAssembler σ) (root tag : String) : Effect σ String := do
  return (← a.assemble root).toXml tag

def assembleWithin (a : SuspendingAssembler σ) (name : String) (rows : List Row) :
    Effect σ Node := do
  let group ← liftM (a.catalog.group name)
  let ancestors := (a.catalog.ancestors group.name).reverse
  if ancestors.length ≠ rows.length then
    throw (.schema (.wrongDepth group.name ancestors.length rows.length))
  let scope ← liftM (scopeOf [] ancestors rows)
  return (← a.assembleIn group scope).1

end SuspendingAssembler

/-- An assembler whose executor answers every call at once. -/
structure Assembler (σ : Type) where
  catalog : Catalog
  executor : Executor σ
  config : Config
  cancelled : σ → Bool

namespace Assembler

def suspending (a : Assembler σ) : SuspendingAssembler σ :=
  ⟨a.catalog, a.executor.suspending, a.config, a.cancelled⟩

def strategy (a : Assembler σ) : σ → Strategy :=
  a.suspending.strategy

def assembleIn (a : Assembler σ) : Group → Scope → Effect σ (Node × Stats) :=
  a.suspending.assembleIn

def assembleWithStats (a : Assembler σ) : String → Effect σ (Node × Stats) :=
  a.suspending.assembleWithStats

def assemble (a : Assembler σ) : String → Effect σ Node :=
  a.suspending.assemble

def assembleXml (a : Assembler σ) : String → String → Effect σ String :=
  a.suspending.assembleXml

def assembleWithin (a : Assembler σ) : String → List Row → Effect σ Node :=
  a.suspending.assembleWithin

end Assembler

end NestedViews
