import NestedViews.Proofs.Assembly.FailFast
import NestedViews.Proofs.Assembly.FaultRuns

namespace NestedViews

open Effect

variable {σ : Type} {c : Catalog} {answer : String → List Value → Except Error (List Row)}
variable {inv : σ → Prop} {g h : Group} {scope inner : Scope} {vector : List Value}
variable {rows : List Row} {e : Error}

structure SingleFault (c : Catalog) (answer : String → List Value → Except Error (List Row))
    (g : Group) (scope : Scope) (h : Group) (inner : Scope) (e : Error) : Prop where
  leadsTo : LeadsTo c answer g scope h inner
  failsAt : FailsAt answer h inner e
  only : ∀ h' inner' e', LeadsTo c answer g scope h' inner' → FailsAt answer h' inner' e' →
    h' = h ∧ inner' = inner

namespace SingleFault

theorem exists_plan (hfault : SingleFault c answer g scope h inner e) : ∃ p, g.plan = some p := by
  cases hfault.leadsTo with
  | here => exact hfault.failsAt.exists_plan
  | nested hrows =>
    obtain ⟨p, _, hp, _⟩ := hrows
    exact ⟨p, hp⟩

theorem eq_of_faulty {err : Error} (hfault : SingleFault c answer g scope h inner e)
    (herr : Faulty c answer g scope err) : err = e.located h.name (c.pathTo h) := by
  obtain ⟨h', inner', e', hleads, hfails, rfl⟩ := herr
  obtain ⟨rfl, rfl⟩ := hfault.only _ _ _ hleads hfails
  rw [hfails.unique hfault.failsAt]

theorem not_evaluates {nodes : List Node} (hfault : SingleFault c answer g scope h inner e)
    (hc : c.Coherent) (hg : g ∈ c.groups) (haround : c.Around g scope) :
    ¬ Evaluates c answer scope g nodes := by
  intro hnodes
  obtain ⟨nodes', hnodes'⟩ := hnodes.exists_of_leadsTo hc hg haround hfault.leadsTo
  obtain ⟨hh, haround'⟩ := hfault.leadsTo.around hc hg haround
  exact hnodes'.not_failsAt hc hh haround' hfault.failsAt

theorem of_execution {plan : Plan} (hplan : g.plan = some plan)
    (hvector : plan.parameters scope = .ok vector) (hfailed : answer plan.query vector = .error e) :
    SingleFault c answer g scope g scope e where
  leadsTo := .here
  failsAt := .execution hplan hvector hfailed
  only _ _ _ hleads _ := hleads.eq_of_execution hplan hvector hfailed

theorem nested {row : Row} {child : Group} (hrows : g.Gets answer scope rows)
    (hfits : ∀ row ∈ rows, row.length = g.arity) (hrow : row ∈ rows)
    (hchild : child ∈ c.children g.name)
    (hothers : ∀ row' ∈ rows, ∀ child' ∈ c.children g.name, ∀ err,
      Faulty c answer child' (⟨g, row'⟩ :: scope) err → row' = row ∧ child' = child)
    (hfault : SingleFault c answer child (⟨g, row⟩ :: scope) h inner e) :
    SingleFault c answer g scope h inner e where
  leadsTo := .nested hrows hrow (hfits row hrow) hchild hfault.leadsTo
  failsAt := hfault.failsAt
  only h' inner' e' hleads hfails := by
    cases hleads with
    | here => exact absurd hfails (FailsAt.not_of_fits hrows hfits)
    | nested hrows' hrow' _ hchild' hleads =>
      obtain rfl := hrows.unique hrows'
      obtain ⟨rfl, rfl⟩ := hothers _ hrow' _ hchild' _ ⟨h', inner', e', hleads, hfails, rfl⟩
      exact hfault.only h' inner' e' hleads hfails

end SingleFault

namespace Assembler

variable {a : Assembler σ} {world : σ}

theorem ends_assembleIn_singleFault (hc : a.catalog.Coherent)
    (hsteady : a.context.Steady answer inv) (hworld : inv world) (hlimit : a.config.rowLimit = 0)
    (hg : g ∈ a.catalog.groups) (haround : a.catalog.Around g scope)
    (hfault : SingleFault a.catalog answer g scope h inner e) :
    Ends (a.assembleIn g scope) world (fun _ _ => False)
      fun err _ => err = e.located h.name (a.catalog.pathTo h) := by
  have hplan := hfault.exists_plan
  have hfails : Ends (a.assembleIn g scope) world (fun _ _ => True)
      fun err _ => Faulty a.catalog answer g scope err := by
    apply ends_assembleIn_strategies
    · intro _
      rw [haround.path_eq]
      exact (ends_assembleAt_faulty hc hsteady hlimit hg hplan hworld).imp fun _ _ _ => trivial
    · intro _
      rw [haround.path_eq]
      apply (ends_assembleAll_faulty hc hsteady hlimit hg hplan hworld).mono
      · exact fun _ _ _ => trivial
      · rintro err _ ⟨_, hscope, hfaulty⟩
        obtain rfl := List.mem_singleton.mp hscope
        exact hfaulty
  apply ((ends_assembleIn hc hsteady hworld hg haround).and hfails).mono
  · rintro result _ ⟨hunique, _⟩
    obtain ⟨nodes, hnodes, _⟩ := (hunique result.1).mpr rfl
    exact hfault.not_evaluates hc hg haround hnodes
  · exact fun _ _ h => hfault.eq_of_faulty h.2

/-- If just one place of a document is at fault, all strategies report it, with its group, the path
to that and what it fails for. Only an error of the executor that has a place already or is a
cancellation is passed on as it is. -/
theorem single_fault (hc : a.catalog.Built) (hsteady : a.context.Steady answer inv)
    (hworld : inv world) (hlimit : a.config.rowLimit = 0)
    (hfault : SingleFault a.catalog answer g scope h inner e) :
    ∃ err, (e.Unplaced → e ≠ .cancelled → err = .assembly h.name (a.catalog.pathTo h) e) ∧
      (¬ e.Unplaced ∨ e = .cancelled → err = e) ∧
      ∀ s,
        (∀ name, Enters a.catalog name g scope →
          ((a.withStrategy s).assembleWithStats name world).1 = .error err ∧
          ((a.withStrategy s).assemble name world).1 = .error err ∧
          ∀ tag, ((a.withStrategy s).assembleXml name tag world).1 = .error err) ∧
        ∀ name rows, EntersWithin a.catalog name rows g scope →
          ((a.withStrategy s).assembleWithin name rows world).1 = .error err := by
  have hends : ∀ s, g ∈ a.catalog.groups → a.catalog.Around g scope →
      Ends ((a.withStrategy s).assembleIn g scope) world (fun _ _ => False)
        fun err _ => err = e.located h.name (a.catalog.pathTo h) := fun s hg haround =>
    ends_assembleIn_singleFault (a := a.withStrategy s) hc.coherent hsteady hworld hlimit hg haround
      hfault
  refine ⟨e.located h.name (a.catalog.pathTo h), ?_, ?_, fun s => ⟨fun name henters => ?_,
    fun name rows henters => ?_⟩⟩
  · intro hunplaced hne
    cases e with
    | assembly group path source => exact absurd rfl (hunplaced group path source)
    | cancelled => exact absurd rfl hne
    | _ => rfl
  · rintro (hplaced | rfl)
    · exact Error.located_of_not_unplaced hplaced
    · rfl
  · obtain ⟨hg, haround⟩ := henters.around hc.coherent
    have hstats := henters.ends (a := a.withStrategy s) (hends s hg haround)
    have hassemble : Ends ((a.withStrategy s).assemble name) world (fun _ _ => False)
        fun err _ => err = e.located h.name (a.catalog.pathTo h) := by
      rw [assemble_eq, ends_bind]
      exact hstats.imp fun _ _ => False.elim
    refine ⟨hstats.fst_eq_error, hassemble.fst_eq_error, fun tag => Ends.fst_eq_error ?_⟩
    rw [assembleXml_eq, ends_bind]
    exact hassemble.imp fun _ _ => False.elim
  · obtain ⟨hg, haround⟩ := henters.around hc.coherent
    exact (henters.ends (a := a.withStrategy s) (hends s hg haround)).fst_eq_error

def orderGroup : Group :=
  ⟨⟨"orders", [⟨"id", .int64⟩, ⟨"placed", .date⟩],
      some ⟨"SELECT id, placed FROM orders", []⟩, none⟩,
    none, some ⟨"SELECT id, placed FROM orders", []⟩⟩

def lineGroup : Group :=
  ⟨⟨"orders.lines", [⟨"sku", .string⟩],
      some ⟨"SELECT sku FROM lines WHERE order_id = ?", [⟨"orders.id", none⟩]⟩, none⟩,
    some "orders",
    some ⟨"SELECT sku FROM lines WHERE order_id = ?",
      [⟨⟨"orders.id", none⟩, "orders", 0, 0, .int64⟩]⟩⟩

def failingAnswer : String → List Value → Except Error (List Row) :=
  (orderScript.withAnswer "SELECT sku FROM lines WHERE order_id = ?" [.int64 7]
    (.failure "lines are gone")).answer

theorem singleFault_lineGroup : SingleFault failingAssembler.catalog failingAnswer orderGroup []
    lineGroup [⟨orderGroup, [.int64 7, .date 19000]⟩] (.execution (.other "lines are gone")) := by
  have hchildren : failingAssembler.catalog.children "orders" = [lineGroup] := by decide +kernel
  have hfailed : failingAnswer "SELECT sku FROM lines WHERE order_id = ?" [.int64 7] =
      .error (.execution (.other "lines are gone")) := by decide +kernel
  have horders : failingAnswer "SELECT id, placed FROM orders" [] =
      .ok [[.int64 7, .date 19000]] := by decide +kernel
  have hrows : orderGroup.Gets failingAnswer [] [[.int64 7, .date 19000]] :=
    ⟨_, [], rfl, rfl, horders⟩
  have hparameters : Plan.parameters ⟨"SELECT sku FROM lines WHERE order_id = ?",
      [⟨⟨"orders.id", none⟩, "orders", 0, 0, .int64⟩]⟩ [⟨orderGroup, [.int64 7, .date 19000]⟩] =
        .ok [.int64 7] := rfl
  refine .nested hrows (by decide) (.head _) ?_ ?_
    (.of_execution rfl hparameters hfailed)
  · exact hchildren ▸ .head _
  · intro row hrow child hchild _ _
    rw [orderGroup, Group.name, hchildren] at hchild
    exact ⟨List.mem_singleton.mp hrow, List.mem_singleton.mp hchild⟩

theorem single_fault_orders :
    SingleFault failingAssembler.catalog failingAnswer orderGroup [] lineGroup
        [⟨orderGroup, [.int64 7, .date 19000]⟩] (.execution (.other "lines are gone")) ∧
      ((failingAssembler.withStrategy .depthFirst).assemble "orders" ()).1 =
        .error (.assembly "orders.lines" ["orders"] (.execution (.other "lines are gone"))) ∧
      ((failingAssembler.withStrategy .batched).assemble "orders" ()).1 =
        .error (.assembly "orders.lines" ["orders"] (.execution (.other "lines are gone"))) := by
  have hsteady : failingAssembler.context.Steady failingAnswer fun _ => True :=
    Context.steady_answering failingAnswer true 0
  have hbuilt : failingAssembler.catalog.Built := built_orderAssembler
  have henters : Enters failingAssembler.catalog "orders" orderGroup [] :=
    ⟨by decide +kernel, rfl, rfl⟩
  have hpath : failingAssembler.catalog.pathTo lineGroup = ["orders"] := by decide +kernel
  obtain ⟨err, hnoted, _, hreports⟩ :=
    single_fault hbuilt hsteady trivial rfl singleFault_lineGroup
  rw [hnoted (fun _ _ _ => Error.noConfusion) Error.noConfusion, hpath] at hreports
  exact ⟨singleFault_lineGroup, ((hreports .depthFirst).1 "orders" henters).2.1,
    ((hreports .batched).1 "orders" henters).2.1⟩

end Assembler

end NestedViews
