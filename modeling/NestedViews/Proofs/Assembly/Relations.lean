import NestedViews.Proofs.Assembly.Sequential

/-! Relations between computations that are kept when computations are put together. Such a relation
holds between two assemblies if it holds between their single steps. -/

namespace NestedViews

variable {σ τ α β : Type}

structure Context.Relates (R : ∀ ⦃α : Type⦄, Run τ α → Run σ α → Prop) (c : Context τ)
    (d : Context σ) : Prop extends Compositional R where
  located : ∀ {α : Type} {x : Run τ α} {y : Run σ α}, R x y → ∀ (group : Group) (path : List String),
    R (Run.located group path x) (Run.located group path y)
  checkCancelled : R c.checkCancelled d.checkCancelled
  addRows : ∀ count, R (c.addRows count) (d.addRows count)
  execute : ∀ query vector, R (c.execute query vector) (d.execute query vector)
  executeAll : ∀ query vectors, R (c.executeAll query vectors) (d.executeAll query vectors)

namespace Context.Relates

variable {R : ∀ ⦃α : Type⦄, Run τ α → Run σ α → Prop} {c : Context τ} {d : Context σ}

theorem prepare (h : c.Relates R d) (group : Group) (path : List String) :
    R (c.prepare group path) (d.prepare group path) := by
  apply h.bind h.checkCancelled
  intro _
  cases group.plan with
  | none => exact h.ite (h.bind (h.throw _) fun _ => h.throw _) (h.throw _)
  | some plan => exact h.ite (h.bind (h.throw _) fun _ => h.pure plan) (h.pure plan)

mutual

theorem assembleAt (h : Relates R c d) : (o : Outline) → (scope : Scope) →
    (path : List String) → R (o.assembleAt c scope path) (o.assembleAt d scope path)
  | .mk group nested, scope, path => by
    rw [Outline.assembleAt, Outline.assembleAt]
    apply h.located
    apply h.bind (h.prepare group path)
    intro plan
    apply h.bind (h.liftM (plan.parameters scope))
    intro vector
    apply h.bind (h.execute plan.query vector)
    intro rows
    apply h.bind (h.addRows rows.length)
    intro _
    apply h.mapM
    intro row
    apply h.bind (h.liftM (group.checkRow row))
    intro _
    exact h.bind (h.assembleNested nested (⟨group, row⟩ :: scope) (path ++ [group.name]))
      fun collections => h.pure _

theorem assembleNested (h : Relates R c d) : (outlines : List Outline) → (scope : Scope) →
    (path : List String) →
      R (Outline.assembleNested c outlines scope path) (Outline.assembleNested d outlines scope path)
  | [], _, _ => h.pure []
  | o :: rest, scope, path => by
    rw [Outline.assembleNested, Outline.assembleNested]
    apply h.bind (h.assembleAt o scope path)
    intro nodes
    exact h.bind (h.assembleNested rest scope path) fun collections => h.pure _

end

mutual

theorem assembleAll (h : Relates R c d) : (o : Outline) → (scopes : List Scope) →
    (path : List String) → R (o.assembleAll c scopes path) (o.assembleAll d scopes path)
  | .mk group nested, scopes, path => by
    rw [Outline.assembleAll, Outline.assembleAll]
    apply h.located
    apply h.bind (h.prepare group path)
    intro plan
    apply h.ite (h.pure [])
    apply h.bind (h.liftM (scopes.mapM plan.parameters))
    intro vectors
    apply h.bind (h.executeAll plan.query vectors)
    intro answers
    apply h.bind
    · apply h.forM
      intro rows
      apply h.bind (h.addRows rows.length)
      intro _
      exact h.forM fun row => h.liftM (group.checkRow row)
    · intro _
      exact h.bind (h.assembleColumns nested (rowScopes group scopes answers)
        (path ++ [group.name])) fun collections => h.pure _

theorem assembleColumns (h : Relates R c d) : (outlines : List Outline) →
    (scopes : List Scope) → (path : List String) →
      R (Outline.assembleColumns c outlines scopes path)
        (Outline.assembleColumns d outlines scopes path)
  | [], _, _ => h.pure _
  | o :: rest, scopes, path => by
    rw [Outline.assembleColumns, Outline.assembleColumns]
    apply h.bind (h.assembleAll o scopes path)
    intro column
    exact h.bind (h.assembleColumns rest scopes path) fun others => h.pure _

end

end Context.Relates

/-- A relation that holds between what two assemblers do at a place, once they have found it. -/
structure SuspendingAssembler.Relates (R : ∀ ⦃α : Type⦄, Effect τ α → Effect σ α → Prop)
    (a : SuspendingAssembler τ) (b : SuspendingAssembler σ) : Prop extends Compositional R where
  catalog : a.catalog = b.catalog
  assembleIn : ∀ group scope, R (a.assembleIn group scope) (b.assembleIn group scope)

namespace SuspendingAssembler.Relates

variable {R : ∀ ⦃α : Type⦄, Effect τ α → Effect σ α → Prop} {a : SuspendingAssembler τ}
variable {b : SuspendingAssembler σ} (h : Relates R a b)
include h

theorem assembleWithStats (name : String) :
    R (a.assembleWithStats name) (b.assembleWithStats name) := by
  unfold SuspendingAssembler.assembleWithStats
  rw [h.catalog]
  apply h.bind (h.liftM (b.catalog.group name))
  intro group
  cases group.parent with
  | some parent => exact h.throw _
  | none => exact h.assembleIn group []

theorem assemble (name : String) : R (a.assemble name) (b.assemble name) :=
  h.bind (h.assembleWithStats name) fun result => h.pure result.1

theorem assembleXml (name tag : String) : R (a.assembleXml name tag) (b.assembleXml name tag) :=
  h.bind (h.assemble name) fun doc => h.pure (doc.toXml tag)

theorem assembleWithin (name : String) (rows : List Row) :
    R (a.assembleWithin name rows) (b.assembleWithin name rows) := by
  unfold SuspendingAssembler.assembleWithin
  rw [h.catalog]
  apply h.bind (h.liftM (b.catalog.group name))
  intro group
  have hplaced : ∀ scope, R (do return (← a.assembleIn group scope).1)
      (do return (← b.assembleIn group scope).1) :=
    fun scope => h.bind (h.assembleIn group scope) fun result => h.pure result.1
  have hscope := h.bind (h.liftM (scopeOf [] (b.catalog.ancestors group.name).reverse rows)) hplaced
  exact h.ite (h.bind (h.throw _) fun _ => hscope) hscope

end SuspendingAssembler.Relates

structure SuspendingAssembler.AtEntries (P : ∀ ⦃α : Type⦄, Effect τ α → Effect σ α → Prop)
    (a : SuspendingAssembler τ) (b : SuspendingAssembler σ) : Prop where
  assembleWithStats : ∀ name, P (a.assembleWithStats name) (b.assembleWithStats name)
  assemble : ∀ name, P (a.assemble name) (b.assemble name)
  assembleXml : ∀ name tag, P (a.assembleXml name tag) (b.assembleXml name tag)
  assembleWithin : ∀ name rows, P (a.assembleWithin name rows) (b.assembleWithin name rows)

theorem SuspendingAssembler.Relates.atEntries
    {R : ∀ ⦃α : Type⦄, Effect τ α → Effect σ α → Prop} {a : SuspendingAssembler τ}
    {b : SuspendingAssembler σ} (h : Relates R a b) : AtEntries R a b :=
  ⟨h.assembleWithStats, h.assemble, h.assembleXml, h.assembleWithin⟩

theorem SuspendingAssembler.AtEntries.mono
    {P Q : ∀ ⦃α : Type⦄, Effect τ α → Effect σ α → Prop} {a : SuspendingAssembler τ}
    {b : SuspendingAssembler σ} (h : AtEntries P a b)
    (hPQ : ∀ (α : Type) (x : Effect τ α) (y : Effect σ α), P x y → Q x y) : AtEntries Q a b :=
  ⟨fun name => hPQ _ _ _ (h.assembleWithStats name), fun name => hPQ _ _ _ (h.assemble name),
    fun name tag => hPQ _ _ _ (h.assembleXml name tag),
    fun name rows => hPQ _ _ _ (h.assembleWithin name rows)⟩

namespace Assembler

abbrev Relates (R : ∀ ⦃α : Type⦄, Effect τ α → Effect σ α → Prop) (a : Assembler τ)
    (b : Assembler σ) : Prop :=
  SuspendingAssembler.Relates R a.suspending b.suspending

theorem relates_nodes {R : ∀ ⦃α : Type⦄, Run τ α → Run σ α → Prop} {a : Assembler τ}
    {b : Assembler σ} (h : Context.Relates R a.context b.context) (hcatalog : a.catalog = b.catalog)
    (s : Strategy) (group : Group) (scope : Scope) :
    R (a.nodes s group scope) (b.nodes s group scope) := by
  unfold nodes
  rw [hcatalog]
  cases s with
  | auto => exact h.assembleAt (b.catalog.outline group) scope scope.path
  | depthFirst => exact h.assembleAt (b.catalog.outline group) scope scope.path
  | batched =>
    exact h.bind (h.assembleAll (b.catalog.outline group) [scope] scope.path)
      fun columns => h.pure columns.flatten

end Assembler

end NestedViews
