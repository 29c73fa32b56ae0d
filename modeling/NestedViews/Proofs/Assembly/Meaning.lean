import NestedViews.Proofs.Assembly.Sequential
import NestedViews.Executor.Script
import NestedViews.Proofs.Assembly.Batched
import NestedViews.Proofs.Assembly.DepthFirst

namespace NestedViews

open Run Effect

variable {σ : Type}

namespace Assembler

variable {a : Assembler σ} {answer : String → List Value → Except Error (List Row)}
variable {inv : σ → Prop} {g : Group} {scope : Scope} {world : σ} {name : String} {rows : List Row}
variable {doc : Node}

@[simp] theorem ends_start {α : Type} {good : α × Stats → σ → Prop} {bad : Error → σ → Prop}
    (run : Run σ α) :
    Ends (Run.start run) world good bad ↔
      Ends run ⟨world, .zero⟩ (fun a p => good (a, p.stats) p.world) fun e p => bad e p.world :=
  ends_wrap (fun (result, p) => (result.map fun a => (a, p.stats), p.world)) rfl
    (fun _ _ => rfl) fun _ _ => rfl

theorem settles_nodes (hc : a.catalog.Coherent) (hsteady : a.context.Steady answer inv)
    (hg : g ∈ a.catalog.groups) (haround : a.catalog.Around g scope) (s : Strategy) :
    Settles inv a.config.rowLimit (a.nodes s g scope) (Evaluates a.catalog answer scope g)
      Node.countNodes := by
  have hdepthFirst := settles_assembleAt hc hsteady hg haround
  have haround' : ∀ s ∈ [scope], a.catalog.Around g s := by simpa
  have hbatched := settles_assembleAll hc hsteady hg haround' (by simp)
  rw [← haround.path_eq] at hdepthFirst hbatched
  cases s with
  | auto => exact hdepthFirst
  | depthFirst => exact hdepthFirst
  | batched =>
    refine hbatched.map ?_ ?_
    · intro nodes
      simp [List.forall₂_cons_left_iff]
    · intro columns hcolumns
      obtain ⟨nodes, _, _, hrest, rfl⟩ := List.forall₂_cons_left_iff.mp hcolumns
      obtain rfl := List.forall₂_nil_left_iff.mp hrest
      simp

/-- A document holds the nodes that a group evaluates to at a place, if they are not too many. -/
def Yields (a : Assembler σ) (answer : String → List Value → Except Error (List Row)) (g : Group)
    (scope : Scope) (doc : Node) : Prop :=
  ∃ nodes, Evaluates a.catalog answer scope g nodes ∧
    Within a.config.rowLimit (Node.countNodes nodes) ∧ doc = .root (.mk g nodes)

theorem ends_assembleIn (hc : a.catalog.Coherent) (hsteady : a.context.Steady answer inv)
    (hworld : inv world) (hg : g ∈ a.catalog.groups) (haround : a.catalog.Around g scope) :
    Ends (a.assembleIn g scope) world
      (fun result _ => ∀ doc, a.Yields answer g scope doc ↔ doc = result.1)
      fun _ _ => ∀ doc, ¬ a.Yields answer g scope doc := by
  simp only [assembleIn_eq, ends_bind, ends_get, ends_start, ends_pure]
  have hsettles := settles_nodes hc hsteady hg haround (a.strategy world)
  apply (hsettles ⟨world, .zero⟩ hworld (.inr (Nat.zero_le _))).mono
  · rintro nodes p ⟨_, hrows, hwithin, hunique⟩ doc
    rw [hrows] at hwithin
    constructor
    · rintro ⟨nodes', hnodes', _, rfl⟩
      rw [(hunique nodes').mp hnodes']
    · rintro rfl
      exact ⟨nodes, (hunique nodes).mpr rfl, Nat.zero_add (Node.countNodes nodes) ▸ hwithin, rfl⟩
  · rintro e p h doc ⟨nodes, hnodes, hwithin, rfl⟩
    exact h nodes hnodes ((Nat.zero_add (Node.countNodes nodes)).symm ▸ hwithin)

theorem assemble_eq_ok (hc : a.catalog.Coherent) (hsteady : a.context.Steady answer inv)
    (hworld : inv world) : (a.assemble name world).1 = .ok doc ↔
      ∃ g, a.catalog.group? name = some g ∧ g.parent = none ∧ a.Yields answer g [] doc := by
  apply Ends.fst_eq_ok
  simp only [assemble_eq, assembleWithStats_eq, ends_bind, ends_liftM, ends_pure, Catalog.group]
  cases hname : a.catalog.group? name with
  | none => simp
  | some g =>
    have hg := (hc.group?_eq_some.mp hname).1
    cases hparent : g.parent with
    | some parent => simp [hparent]
    | none =>
      simp only [Option.some.injEq, exists_eq_left', hparent, true_and]
      exact ends_assembleIn hc hsteady hworld hg (.nil hc hg hparent)

def placeOf (groups : List Group) (rows : List Row) : Scope :=
  (List.zipWith Frame.mk groups rows).reverse

theorem scopeOf_eq_ok {outer : Scope} {groups : List Group} (h : groups.length = rows.length) :
    scopeOf outer groups rows = .ok scope ↔
      List.Forall₂ (fun g row => row.length = g.arity) groups rows ∧
        scope = placeOf groups rows ++ outer := by
  induction groups generalizing outer rows with
  | nil =>
    obtain rfl := List.length_eq_zero_iff.mp h.symm
    simp [scopeOf, placeOf, eq_comm]
  | cons g groups ih =>
    cases rows with
    | nil => cases h
    | cons row rows =>
      rw [scopeOf, bind_eq_ok]
      simp only [ih (Nat.succ.inj h), List.forall₂_cons, placeOf, List.zipWith_cons_cons,
        List.reverse_cons, List.append_assoc, List.singleton_append]
      constructor
      · rintro ⟨_, hrow, hrows, hscope⟩
        exact ⟨⟨Group.checkRow_eq_ok.mp hrow, hrows⟩, hscope⟩
      · rintro ⟨⟨hrow, hrows⟩, hscope⟩
        exact ⟨(), Group.checkRow_eq_ok.mpr hrow, hrows, hscope⟩

theorem zipWith_frame {groups : List Group}
    (h : List.Forall₂ (fun g row => row.length = g.arity) groups rows) :
    (List.zipWith Frame.mk groups rows).map Frame.group = groups ∧
      ∀ f ∈ List.zipWith Frame.mk groups rows, f.row.length = f.group.arity := by
  induction h with
  | nil => simp
  | cons hrow _ ih =>
    obtain ⟨hgroups, hfits⟩ := ih
    exact ⟨by simp [hgroups], List.forall_mem_cons.mpr ⟨hrow, hfits⟩⟩

theorem around_placeOf {c : Catalog} (h : List.Forall₂ (fun g row => row.length = g.arity)
    (c.ancestors g.name).reverse rows) :
    c.Around g (placeOf (c.ancestors g.name).reverse rows) := by
  obtain ⟨hgroups, hfits⟩ := zipWith_frame h
  refine ⟨?_, fun f hf => hfits f (List.mem_reverse.mp hf)⟩
  rw [placeOf, List.map_reverse, hgroups, List.reverse_reverse]

theorem assembleWithin_eq_ok (hc : a.catalog.Coherent) (hsteady : a.context.Steady answer inv)
    (hworld : inv world) : (a.assembleWithin name rows world).1 = .ok doc ↔
      ∃ g, a.catalog.group? name = some g ∧
        List.Forall₂ (fun g row => row.length = g.arity) (a.catalog.ancestors g.name).reverse rows ∧
          a.Yields answer g (placeOf (a.catalog.ancestors g.name).reverse rows) doc := by
  apply Ends.fst_eq_ok
  simp only [assembleWithin_eq, ends_bind, ends_liftM, Catalog.group]
  cases hname : a.catalog.group? name with
  | none => simp
  | some g =>
    have hg := (hc.group?_eq_some.mp hname).1
    simp only [Option.some.injEq, exists_eq_left']
    split
    · rename_i hlength
      rintro doc ⟨hfits, _⟩
      exact hlength hfits.length_eq
    · rename_i hlength
      rw [not_not] at hlength
      rw [ends_bind, ends_liftM]
      cases hscope : scopeOf [] (a.catalog.ancestors g.name).reverse rows with
      | error e =>
        rintro doc ⟨hfits, _⟩
        rw [(scopeOf_eq_ok hlength).mpr ⟨hfits, rfl⟩] at hscope
        cases hscope
      | ok scope =>
        obtain ⟨hfits, rfl⟩ := (scopeOf_eq_ok hlength).mp hscope
        rw [List.append_nil]
        simp only [ends_bind, ends_pure, hfits, true_and]
        exact ends_assembleIn hc hsteady hworld hg (around_placeOf hfits)

/-- The assembly of a root group succeeds just with the document that its group evaluates to. -/
theorem assemble_ok_iff_evaluates (hc : a.catalog.Built) (hsteady : a.context.Steady answer inv)
    (hworld : inv world) (hlimit : a.config.rowLimit = 0) (hg : g ∈ a.catalog.groups)
    (hparent : g.parent = none) :
    (a.assemble g.name world).1 = .ok doc ↔
      ∃ nodes, Evaluates a.catalog answer [] g nodes ∧ doc = .root (.mk g nodes) := by
  rw [assemble_eq_ok hc.coherent hsteady hworld, hc.coherent.group?_of_mem hg]
  simp [hparent, Yields, Within, hlimit]

def orderScript : Script :=
  ((Script.empty.withFallback "SELECT id, placed FROM orders" [[.int64 7, .date 19000]]).withAnswer
    "SELECT sku FROM lines WHERE order_id = ?" [.int64 7]
      (.rows [[.string "cup"], [.string "jug"]])).withFallback
    "SELECT code FROM parcels WHERE sku = ? AND sent >= ?" [[.string "A1"]]

def orderAssembler : Assembler Unit :=
  ⟨Catalog.orderCatalog, .answering orderScript.answer true, { strategy := .depthFirst },
    fun _ => false⟩

theorem built_orderAssembler : orderAssembler.catalog.Built := by
  dsimp only [orderAssembler]
  exact Catalog.built_orderCatalog

theorem steady_orderAssembler :
    orderAssembler.context.Steady orderScript.answer fun _ => True := by
  dsimp only [context, orderAssembler]
  exact Context.steady_answering orderScript.answer true 0

theorem exists_assemble_orders :
    ∃ doc, (orderAssembler.assemble "orders" ()).1 = .ok doc := by
  apply exists_ok_of_isSome
  cbv

theorem evaluates_orders : ∃ g ∈ orderAssembler.catalog.groups, g.name = "orders" ∧
    ∃ nodes doc, Evaluates orderAssembler.catalog orderScript.answer [] g nodes ∧
      doc = .root (.mk g nodes) ∧ (orderAssembler.assemble "orders" ()).1 = .ok doc := by
  obtain ⟨g, hg, hname, hparent⟩ :
      ∃ g ∈ orderAssembler.catalog.groups, g.name = "orders" ∧ g.parent = none := by
    decide +kernel
  obtain ⟨doc, hdoc⟩ := exists_assemble_orders
  have hiff : (orderAssembler.assemble g.name ()).1 = .ok doc ↔ _ :=
    assemble_ok_iff_evaluates built_orderAssembler steady_orderAssembler trivial rfl hg hparent
  rw [hname] at hiff
  obtain ⟨nodes, hnodes, hroot⟩ := hiff.mp hdoc
  exact ⟨g, hg, hname, nodes, doc, hnodes, hroot, hdoc⟩

def withStrategy (a : Assembler σ) (strategy : Strategy) : Assembler σ :=
  { a with config := { a.config with strategy } }

def Agree : Except Error Node → Except Error Node → Prop
  | .ok doc, .ok doc' => doc = doc' ∧ doc == doc'
  | .error _, .error _ => True
  | _, _ => False

theorem agree_of_iff {x y : Except Error Node} (h : ∀ doc, x = .ok doc ↔ y = .ok doc) :
    Agree x y := by
  cases x with
  | ok doc =>
    rw [(h doc).mp rfl]
    exact ⟨rfl, BEq.rfl⟩
  | error e =>
    cases y with
    | ok doc => cases (h doc).mpr rfl
    | error e' => trivial

theorem strategies_agree (hc : a.catalog.Built) (hsteady : a.context.Steady answer inv)
    (hworld : inv world) (s t : Strategy) (name : String) :
    Agree ((a.withStrategy s).assemble name world).1 ((a.withStrategy t).assemble name world).1 ∧
      ∀ rows, Agree ((a.withStrategy s).assembleWithin name rows world).1
        ((a.withStrategy t).assembleWithin name rows world).1 := by
  constructor
  · apply agree_of_iff
    intro doc
    rw [assemble_eq_ok (a := a.withStrategy s) hc.coherent hsteady hworld,
      assemble_eq_ok (a := a.withStrategy t) hc.coherent hsteady hworld]
    rfl
  · intro rows
    apply agree_of_iff
    intro doc
    rw [assembleWithin_eq_ok (a := a.withStrategy s) hc.coherent hsteady hworld,
      assembleWithin_eq_ok (a := a.withStrategy t) hc.coherent hsteady hworld]
    rfl

def batchedOrderAssembler : Assembler Unit :=
  orderAssembler.withStrategy .batched

theorem built_batchedOrderAssembler : batchedOrderAssembler.catalog.Built :=
  built_orderAssembler

theorem withStrategy_orderAssembler : orderAssembler.withStrategy .depthFirst = orderAssembler := rfl

theorem strategies_agree_orders :
    (∃ doc, ((orderAssembler.withStrategy .depthFirst).assemble "orders" ()).1 = .ok doc) ∧
      Agree ((orderAssembler.withStrategy .depthFirst).assemble "orders" ()).1
        ((orderAssembler.withStrategy .batched).assemble "orders" ()).1 := by
  constructor
  · rw [withStrategy_orderAssembler]
    exact exists_assemble_orders
  · exact (strategies_agree built_orderAssembler steady_orderAssembler trivial .depthFirst .batched
      "orders").1

end Assembler

end NestedViews
