import NestedViews.Proofs.Assembly.Meaning

namespace NestedViews

open Effect

variable {σ : Type}

inductive Refused (c : Catalog) (name : String) : Error → Prop
  | unknown : c.group? name = none → Refused c name (.groupNotFound name)
  | nested {g parent} : c.group? name = some g → g.parent = some parent →
      Refused c name (.schema (.needsRows name parent))

inductive RefusedWithin (c : Catalog) (name : String) (rows : List Row) : Error → Prop
  | unknown : c.group? name = none → RefusedWithin c name rows (.groupNotFound name)
  | depth {g} : c.group? name = some g → (c.ancestors g.name).length ≠ rows.length →
      RefusedWithin c name rows
        (.schema (.wrongDepth g.name (c.ancestors g.name).length rows.length))
  | row {g before ancestor row after} : c.group? name = some g →
      (c.ancestors g.name).length = rows.length →
      (c.ancestors g.name).reverse.zip rows = before ++ (ancestor, row) :: after →
      (∀ q ∈ before, q.2.length = q.1.arity) → row.length ≠ ancestor.arity →
      RefusedWithin c name rows
        (.binding (.rowLength ancestor.name row.length ancestor.arity))

namespace Assembler

def Enters (c : Catalog) (name : String) (g : Group) (scope : Scope) : Prop :=
  c.group? name = some g ∧ g.parent = none ∧ scope = []

def EntersWithin (c : Catalog) (name : String) (rows : List Row) (g : Group) (scope : Scope) :
    Prop :=
  c.group? name = some g ∧
    List.Forall₂ (fun g row => row.length = g.arity) (c.ancestors g.name).reverse rows ∧
      scope = placeOf (c.ancestors g.name).reverse rows

variable {a : Assembler σ} {world : σ} {g : Group} {scope : Scope} {err : Error} {name : String}
variable {rows : List Row} {bad : Error → σ → Prop}

theorem Enters.around {c : Catalog} (h : Enters c name g scope) (hc : c.Coherent) :
    g ∈ c.groups ∧ c.Around g scope := by
  obtain ⟨hname, hparent, rfl⟩ := h
  have hg := (hc.group?_eq_some.mp hname).1
  exact ⟨hg, .nil hc hg hparent⟩

theorem EntersWithin.around {c : Catalog} (h : EntersWithin c name rows g scope)
    (hc : c.Coherent) : g ∈ c.groups ∧ c.Around g scope := by
  obtain ⟨hname, hfits, rfl⟩ := h
  exact ⟨(hc.group?_eq_some.mp hname).1, around_placeOf hfits⟩

theorem scopeOf_eq_error {outer : Scope} {groups : List Group}
    (h : scopeOf outer groups rows = .error err) :
    ∃ before ancestor row after, groups.zip rows = before ++ (ancestor, row) :: after ∧
      (∀ q ∈ before, q.2.length = q.1.arity) ∧ row.length ≠ ancestor.arity ∧
        err = .binding (.rowLength ancestor.name row.length ancestor.arity) := by
  induction groups generalizing outer rows with
  | nil => cases rows <;> cases h
  | cons ancestor groups ih =>
    cases rows with
    | nil => cases h
    | cons row rows =>
      rw [scopeOf, Group.checkRow] at h
      by_cases hrow : row.length = ancestor.arity
      · rw [if_pos hrow] at h
        obtain ⟨before, ancestor', row', after, hsplit, hbefore, hmisfit, rfl⟩ := ih h
        refine ⟨(ancestor, row) :: before, ancestor', row', after, ?_, ?_, hmisfit, rfl⟩
        · rw [List.zip_cons_cons, hsplit, List.cons_append]
        · exact List.forall_mem_cons.mpr ⟨hrow, hbefore⟩
      · rw [if_neg hrow] at h
        cases h
        exact ⟨[], ancestor, row, groups.zip rows, rfl, by simp, hrow, rfl⟩

theorem strategy_ne_auto (a : Assembler σ) (world : σ) : a.strategy world ≠ .auto := by
  change a.config.strategyFor (a.executor.answersBatches world) ≠ .auto
  rw [Config.strategyFor]
  cases a.config.strategy with
  | auto => cases a.executor.answersBatches world <;> simp
  | depthFirst => simp
  | batched => simp

theorem ends_assembleIn_strategies {good : Node × Stats → σ → Prop}
    (hdepthFirst : a.strategy world = .depthFirst →
      Ends ((a.catalog.outline g).assembleAt a.context scope scope.path) ⟨world, .zero⟩
        (fun nodes p => good (.root (.mk g nodes), p.stats) p.world) fun e p => bad e p.world)
    (hbatched : a.strategy world = .batched →
      Ends ((a.catalog.outline g).assembleAll a.context [scope] scope.path) ⟨world, .zero⟩
        (fun columns p => good (.root (.mk g columns.flatten), p.stats) p.world)
        fun e p => bad e p.world) :
    Ends (a.assembleIn g scope) world good bad := by
  simp only [assembleIn_eq, nodes, ends_bind, ends_get, ends_start, ends_pure]
  cases hstrategy : a.strategy world with
  | auto => exact absurd hstrategy (a.strategy_ne_auto world)
  | depthFirst => exact hdepthFirst hstrategy
  | batched => exact (ends_bind _ _).mpr (hbatched hstrategy)

end Assembler

namespace SuspendingAssembler

open Assembler

variable {a : SuspendingAssembler σ} {world : σ} {name : String} {rows : List Row}
variable {bad : Error → σ → Prop}

theorem ends_assembleWithStats_enters {good : Node × Stats → σ → Prop}
    (hrefused : ∀ err, Refused a.catalog name err → bad err world)
    (henters : ∀ g scope, Enters a.catalog name g scope →
      Ends (a.assembleIn g scope) world good bad) :
    Ends (a.assembleWithStats name) world good bad := by
  simp only [assembleWithStats, ends_bind, ends_liftM, Catalog.group]
  cases hname : a.catalog.group? name with
  | none => exact hrefused _ (.unknown hname)
  | some g =>
    dsimp only
    cases hparent : g.parent with
    | some parent => exact hrefused _ (.nested hname hparent)
    | none => exact henters g [] ⟨hname, hparent, rfl⟩

theorem ends_assembleWithin_enters {good : Node → σ → Prop}
    (hrefused : ∀ err, RefusedWithin a.catalog name rows err → bad err world)
    (henters : ∀ g scope, EntersWithin a.catalog name rows g scope →
      Ends (a.assembleIn g scope) world (fun result w => good result.1 w) bad) :
    Ends (a.assembleWithin name rows) world good bad := by
  simp only [assembleWithin, ends_bind, ends_liftM, Catalog.group]
  cases hname : a.catalog.group? name with
  | none => exact hrefused _ (.unknown hname)
  | some g =>
    dsimp only
    rw [List.length_reverse]
    split
    · rename_i hlength
      exact hrefused _ (.depth hname hlength)
    · rename_i hlength
      rw [not_not] at hlength
      rw [ends_bind, ends_liftM]
      cases hscope : scopeOf [] (a.catalog.ancestors g.name).reverse rows with
      | error err =>
        obtain ⟨before, ancestor, row, after, hsplit, hbefore, hmisfit, rfl⟩ :=
          scopeOf_eq_error hscope
        exact hrefused _ (.row hname hlength hsplit hbefore hmisfit)
      | ok scope =>
        have hlength' : (a.catalog.ancestors g.name).reverse.length = rows.length := by
          rwa [List.length_reverse]
        obtain ⟨hfits, rfl⟩ := (scopeOf_eq_ok hlength').mp hscope
        rw [List.append_nil]
        simp only [ends_bind, ends_pure]
        exact henters g _ ⟨hname, hfits, rfl⟩

end SuspendingAssembler

namespace Assembler

variable {a : Assembler σ} {world : σ} {g : Group} {scope : Scope} {name : String}
variable {rows : List Row} {bad : Error → σ → Prop}

theorem ends_assembleWithStats_enters {good : Node × Stats → σ → Prop}
    (hrefused : ∀ err, Refused a.catalog name err → bad err world)
    (henters : ∀ g scope, Enters a.catalog name g scope →
      Ends (a.assembleIn g scope) world good bad) :
    Ends (a.assembleWithStats name) world good bad :=
  SuspendingAssembler.ends_assembleWithStats_enters (a := a.suspending) hrefused henters

theorem ends_assembleWithin_enters {good : Node → σ → Prop}
    (hrefused : ∀ err, RefusedWithin a.catalog name rows err → bad err world)
    (henters : ∀ g scope, EntersWithin a.catalog name rows g scope →
      Ends (a.assembleIn g scope) world (fun result w => good result.1 w) bad) :
    Ends (a.assembleWithin name rows) world good bad :=
  SuspendingAssembler.ends_assembleWithin_enters (a := a.suspending) hrefused henters

theorem Enters.ends {good : Node × Stats → σ → Prop} (h : Enters a.catalog name g scope)
    (hends : Ends (a.assembleIn g scope) world good bad) :
    Ends (a.assembleWithStats name) world good bad := by
  obtain ⟨hname, hparent, rfl⟩ := h
  simp only [assembleWithStats_eq, ends_bind, ends_liftM, Catalog.group, hname, hparent]
  exact hends

theorem EntersWithin.ends {good : Node → σ → Prop} (h : EntersWithin a.catalog name rows g scope)
    (hends : Ends (a.assembleIn g scope) world (fun result w => good result.1 w) bad) :
    Ends (a.assembleWithin name rows) world good bad := by
  obtain ⟨hname, hfits, rfl⟩ := h
  have hlength := hfits.length_eq
  have hscope : scopeOf [] (a.catalog.ancestors g.name).reverse rows = .ok
      (placeOf (a.catalog.ancestors g.name).reverse rows) :=
    (scopeOf_eq_ok hlength).mpr ⟨hfits, (List.append_nil _).symm⟩
  simp only [assembleWithin_eq, ends_bind, ends_liftM, Catalog.group, hname, hlength, ne_eq,
    not_true_eq_false, if_false, hscope, ends_pure]
  exact hends

end Assembler

end NestedViews
