import NestedViews.Proofs.Assembly.Entry
import NestedViews.Proofs.Executor.Recorded

namespace NestedViews

open Effect

variable {σ : Type}

def Answered (query : String) (rows : List Row) (exchanges : List Exchange) : Prop :=
  ∃ exchange ∈ exchanges, exchange.call.query = query ∧
    ∃ answers, exchange.answer = .ok answers ∧ rows ∈ answers

/-- The root causes for which an assembly that was asked for a group may fail, by what was exchanged
with the executor. -/
inductive Permits (a : Assembler σ) (requested : Group) (r : Recorded σ) : Error → Prop
  | typeMismatch {g b type} {v : Value} : g ∈ a.catalog.groups → b ∈ g.definition.bindings →
      b.expected = some type → (∀ w, v.coerce type ≠ .ok w) →
      Permits a requested r
        (.typeMismatch type.name v.typeName s!"binding '{b.element}' value {v.text}")
  | rowLimit : 0 < a.config.rowLimit → Permits a requested r (.rowLimit a.config.rowLimit)
  | cancelled : a.cancelled r.world → Permits a requested r .cancelled
  | batchLength {query vectors answers} : ⟨⟨query, vectors, true⟩, .ok answers⟩ ∈ r.exchanges →
      answers.length ≠ vectors.length →
      Permits a requested r (.execution (.batchLength answers.length vectors.length))
  | rowLength {g t rows row} : g ∈ a.catalog.groups → g.definition.template = some t →
      Answered t.query rows r.exchanges → row ∈ rows → row.length ≠ g.arity →
      Permits a requested r (.binding (.rowLength g.name row.length g.arity))
  | notVirtual : ¬ requested.isVirtual →
      Permits a requested r (.schema (.notVirtual requested.name))
  | executor {call e} : ⟨call, .error e⟩ ∈ r.exchanges → Permits a requested r e.rootCause

theorem Answered.mono {query : String} {rows : List Row} {exchanges exchanges' : List Exchange}
    (h : Answered query rows exchanges) (hsub : exchanges ⊆ exchanges') :
    Answered query rows exchanges' := by
  obtain ⟨exchange, hmem, h⟩ := h
  exact ⟨exchange, hsub hmem, h⟩

namespace Assembler

variable {a : Assembler σ} {requested g : Group} {p : Progress (Recorded σ)} {path : List String}
variable {scope : Scope} {query : String}

section Steps

theorem ends_prepare_permits (hpath : g.name ∉ path) (hrequested : g.isVirtual ∨ g = requested) :
    Ends (a.recorded.context.prepare g path) p (fun plan p' => g.plan = some plan ∧ p' = p)
      fun e p' => Permits a requested p'.world e.rootCause := by
  rw [Context.ends_prepare hpath]
  refine ⟨.cancelled, fun _ => ?_⟩
  cases hplan : g.plan with
  | some plan => exact ⟨rfl, rfl⟩
  | none =>
    have hleaf : ¬ g.isVirtual := by simp [Group.isVirtual, hplan]
    obtain rfl := hrequested.resolve_left hleaf
    exact .notVirtual hleaf

theorem ends_parameters_permits {plan : Plan} (hc : a.catalog.Coherent)
    (hg : g ∈ a.catalog.groups) (haround : a.catalog.Around g scope) (hplan : g.plan = some plan) :
    Ends (liftM (plan.parameters scope) : Run (Recorded σ) (List Value)) p (fun _ p' => p' = p)
      fun e p' => Permits a requested p'.world e.rootCause := by
  rw [ends_liftM]
  cases hparameters : plan.parameters scope with
  | ok parameters => rfl
  | error e =>
    obtain ⟨b, hb, type, v, htype, hcoerce, rfl⟩ :=
      Plan.parameters_eq_error hc hg haround hplan hparameters
    exact .typeMismatch hg hb htype hcoerce

theorem ends_execute_permits (vector : List Value) :
    Ends (a.recorded.context.execute query vector) p
      (fun rows p' => p.world.exchanges ⊆ p'.world.exchanges ∧
        Answered query rows p'.world.exchanges)
      fun e p' => Permits a requested p'.world e.rootCause := by
  rw [Context.ends_execute]
  refine ⟨.cancelled, fun _ => Recorded.ends_passOn.mpr ?_⟩
  apply ends_of_forall
  · intro rows w
    refine ⟨List.subset_append_left _ _, ⟨⟨query, [vector], false⟩, .ok [rows]⟩, ?_, rfl, [rows],
      rfl, ?_⟩ <;> simp
  · intro e w
    exact .executor (List.mem_append_right _ (.head _))

theorem ends_executeBatch_permits (vectors : List (List Value)) :
    Ends (a.recorded.context.executeBatch query vectors) p
      (fun answers p' => p.world.exchanges ⊆ p'.world.exchanges ∧
        answers.length = vectors.length ∧ ∀ rows ∈ answers, Answered query rows p'.world.exchanges)
      fun e p' => Permits a requested p'.world e.rootCause := by
  rw [Context.ends_executeBatch]
  refine ⟨.cancelled, fun _ => Recorded.ends_passOn.mpr ?_⟩
  apply ends_of_forall
  · intro answers w
    have hlast : (⟨⟨query, vectors, true⟩, .ok answers⟩ : Exchange) ∈
        p.world.exchanges ++ [⟨⟨query, vectors, true⟩, .ok answers⟩] := by simp
    constructor
    · exact .batchLength hlast
    · intro hlength
      refine ⟨List.subset_append_left _ _, hlength, fun rows hrows => ?_⟩
      exact ⟨_, hlast, rfl, answers, rfl, hrows⟩
  · intro e w
    exact .executor (List.mem_append_right _ (.head _))

theorem ends_mapM_execute_permits (vectors : List (List Value)) :
    Ends (vectors.mapM (a.recorded.context.execute query)) p
      (fun answers p' => p.world.exchanges ⊆ p'.world.exchanges ∧
        answers.length = vectors.length ∧ ∀ rows ∈ answers, Answered query rows p'.world.exchanges)
      fun e p' => Permits a requested p'.world e.rootCause := by
  induction vectors generalizing p with
  | nil => simp
  | cons vector vectors ih =>
    rw [List.mapM_cons, ends_bind]
    apply (ends_execute_permits vector).imp
    rintro rows p' ⟨hsub, hrows⟩
    rw [ends_bind]
    apply ih.imp
    rintro answers p'' ⟨hsub', hlength, hanswers⟩
    refine ⟨List.Subset.trans hsub hsub', congrArg (· + 1) hlength, ?_⟩
    exact List.forall_mem_cons.mpr ⟨hrows.mono hsub', hanswers⟩

theorem ends_executeAll_permits (vectors : List (List Value)) :
    Ends (a.recorded.context.executeAll query vectors) p
      (fun answers p' => p.world.exchanges ⊆ p'.world.exchanges ∧
        answers.length = vectors.length ∧ ∀ rows ∈ answers, Answered query rows p'.world.exchanges)
      fun e p' => Permits a requested p'.world e.rootCause := by
  rw [Context.executeAll, ends_bind, ends_get, ends_ite]
  exact ⟨fun _ => ends_mapM_execute_permits vectors, fun _ => ends_executeBatch_permits vectors⟩

theorem ends_addRows_permits (count : Nat) :
    Ends (a.recorded.context.addRows count) p (fun _ p' => p'.world = p.world)
      fun e p' => Permits a requested p'.world e.rootCause := by
  rw [Context.ends_addRows]
  exact ⟨fun h => .rowLimit h.1, fun _ => rfl⟩

theorem ends_checkRow_permits {t : QueryTemplate} {rows : List Row} {row : Row}
    (hg : g ∈ a.catalog.groups) (ht : g.definition.template = some t)
    (hrows : Answered t.query rows p.world.exchanges) (hrow : row ∈ rows) :
    Ends (liftM (g.checkRow row) : Run (Recorded σ) Unit) p
      (fun _ p' => row.length = g.arity ∧ p' = p)
      fun e p' => Permits a requested p'.world e.rootCause := by
  rw [ends_liftM, Group.checkRow]
  by_cases hlength : row.length = g.arity
  · rw [if_pos hlength]
    exact ⟨hlength, rfl⟩
  · rw [if_neg hlength]
    exact .rowLength hg ht hrows hrow hlength

end Steps

section DepthFirst

theorem ends_assembleNested_permits {groups : List Group}
    (h : ∀ g ∈ groups, ∀ p : Progress (Recorded σ),
      Ends ((a.catalog.outline g).assembleAt a.recorded.context scope path) p
        (fun _ p' => p.world.exchanges ⊆ p'.world.exchanges)
        fun e p' => Permits a requested p'.world e.rootCause) :
    Ends (Outline.assembleNested a.recorded.context (groups.map a.catalog.outline) scope path) p
      (fun _ p' => p.world.exchanges ⊆ p'.world.exchanges)
      fun e p' => Permits a requested p'.world e.rootCause := by
  induction groups generalizing p with
  | nil => exact List.Subset.refl _
  | cons g groups ih =>
    rw [List.map_cons, Outline.assembleNested, ends_bind]
    apply (h g (.head _) p).imp
    intro nodes p' hsub
    rw [ends_bind]
    apply (ih fun g hg => h g (.tail _ hg)).imp
    intro collections p'' hsub'
    exact List.Subset.trans hsub hsub'

theorem ends_rows_permits {t : QueryTemplate} {rows : List Row} {outlines : List Outline}
    (hg : g ∈ a.catalog.groups) (ht : g.definition.template = some t)
    (hrows : Answered t.query rows p.world.exchanges)
    (h : ∀ row, row.length = g.arity → ∀ p : Progress (Recorded σ),
      Ends (Outline.assembleNested a.recorded.context outlines (⟨g, row⟩ :: scope) path) p
        (fun _ p' => p.world.exchanges ⊆ p'.world.exchanges)
        fun e p' => Permits a requested p'.world e.rootCause) :
    Ends
      (rows.mapM fun row => do
        liftM (g.checkRow row)
        let collections ←
          Outline.assembleNested a.recorded.context outlines (⟨g, row⟩ :: scope) path
        return Node.ofRow g row collections) p
      (fun _ p' => p.world.exchanges ⊆ p'.world.exchanges)
      fun e p' => Permits a requested p'.world e.rootCause := by
  have hbody : ∀ row ∈ rows, ∀ q : Progress (Recorded σ), p.world.exchanges ⊆ q.world.exchanges →
      Ends
        (do
          liftM (g.checkRow row)
          let collections ←
            Outline.assembleNested a.recorded.context outlines (⟨g, row⟩ :: scope) path
          return Node.ofRow g row collections : Run (Recorded σ) Node) q
        (fun _ q' => True ∧ p.world.exchanges ⊆ q'.world.exchanges)
        fun e q' => Permits a requested q'.world e.rootCause := by
    intro row hrow q hsub
    rw [ends_bind]
    apply (ends_checkRow_permits hg ht (hrows.mono hsub) hrow).imp
    rintro _ q ⟨hlength, rfl⟩
    rw [ends_bind]
    apply (h row hlength q).imp
    intro collections q' hsub'
    exact ⟨trivial, List.Subset.trans hsub hsub'⟩
  exact (ends_mapM (R := fun _ _ => True) hbody (List.Subset.refl _)).imp fun _ _ h => h.2

theorem ends_assembleAt_permits (hc : a.catalog.Coherent) (hg : g ∈ a.catalog.groups)
    (haround : a.catalog.Around g scope) (hrequested : g.isVirtual ∨ g = requested) :
    Ends ((a.catalog.outline g).assembleAt a.recorded.context scope (a.catalog.pathTo g)) p
      (fun _ p' => p.world.exchanges ⊆ p'.world.exchanges)
      fun e p' => Permits a requested p'.world e.rootCause := by
  revert scope p hrequested
  apply hc.induction _ hg
  intro g hg ih p scope haround hrequested
  rw [hc.outline_eq hg, Outline.assembleAt, Run.ends_located]
  simp only [Error.rootCause_located, ends_bind]
  apply (ends_prepare_permits (hc.name_not_mem_pathTo hg) hrequested).imp
  rintro plan p ⟨hplan, rfl⟩
  apply (ends_parameters_permits hc hg haround hplan).imp
  rintro parameters p rfl
  apply (ends_execute_permits parameters).imp
  rintro rows p₁ ⟨hsub, hrows⟩
  apply (ends_addRows_permits rows.length).imp
  intro _ p₂ hworld
  obtain ⟨t, ht, hquery, _⟩ := Plan.exists_reads hc hg hplan
  rw [hquery] at hrows
  rw [← hworld] at hrows
  refine (ends_rows_permits hg ht hrows ?_).imp ?_
  · intro row hrow q
    apply ends_assembleNested_permits
    intro child hchild q
    rw [← hc.pathTo_of_mem_children hg hchild]
    apply ih child hchild (haround.push hc hg hchild hrow)
    exact .inl (hc.isVirtual_of_mem_children hchild)
  · intro nodes p₃ hsub'
    rw [hworld] at hsub'
    exact List.Subset.trans hsub hsub'

end DepthFirst

section Batched

theorem ends_assembleColumns_permits {groups : List Group} {scopes : List Scope}
    (h : ∀ g ∈ groups, ∀ p : Progress (Recorded σ),
      Ends ((a.catalog.outline g).assembleAll a.recorded.context scopes path) p
        (fun _ p' => p.world.exchanges ⊆ p'.world.exchanges)
        fun e p' => Permits a requested p'.world e.rootCause) :
    Ends (Outline.assembleColumns a.recorded.context (groups.map a.catalog.outline) scopes path) p
      (fun _ p' => p.world.exchanges ⊆ p'.world.exchanges)
      fun e p' => Permits a requested p'.world e.rootCause := by
  induction groups generalizing p with
  | nil => exact List.Subset.refl _
  | cons g groups ih =>
    rw [List.map_cons, Outline.assembleColumns, ends_bind]
    apply (h g (.head _) p).imp
    intro column p' hsub
    rw [ends_bind]
    apply (ih fun g hg => h g (.tail _ hg)).imp
    intro others p'' hsub'
    exact List.Subset.trans hsub hsub'

theorem ends_checkAnswers_permits {t : QueryTemplate} {answers : List (List Row)}
    (hg : g ∈ a.catalog.groups) (ht : g.definition.template = some t)
    (hanswers : ∀ rows ∈ answers, Answered t.query rows p.world.exchanges) :
    Ends
      (answers.forM fun rows => do
        a.recorded.context.addRows rows.length
        rows.forM fun row => liftM (g.checkRow row)) p
      (fun _ p' => (∀ rows ∈ answers, ∀ row ∈ rows, row.length = g.arity) ∧ p'.world = p.world)
      fun e p' => Permits a requested p'.world e.rootCause := by
  have hrows : ∀ rows ∈ answers, ∀ q : Progress (Recorded σ), q.world = p.world →
      Ends
        (do
          a.recorded.context.addRows rows.length
          rows.forM fun row => liftM (g.checkRow row) : Run (Recorded σ) Unit) q
        (fun _ q' => (∀ row ∈ rows, row.length = g.arity) ∧ q'.world = p.world)
        fun e q' => Permits a requested q'.world e.rootCause := by
    intro rows hmem q hq
    rw [ends_bind]
    apply (ends_addRows_permits rows.length).imp
    intro _ q' hq'
    apply ends_forM
    · intro row hrow q'' hq''
      have hanswered : Answered t.query rows q''.world.exchanges := hq'' ▸ hanswers rows hmem
      apply (ends_checkRow_permits hg ht hanswered hrow).imp
      rintro _ _ ⟨hlength, rfl⟩
      exact ⟨hlength, hq''⟩
    · exact hq'.trans hq
  apply ends_forM hrows
  rfl

theorem ends_vectors_permits {plan : Plan} {scopes : List Scope} (hc : a.catalog.Coherent)
    (hg : g ∈ a.catalog.groups) (haround : ∀ scope ∈ scopes, a.catalog.Around g scope)
    (hplan : g.plan = some plan) :
    Ends (liftM (scopes.mapM plan.parameters) : Run (Recorded σ) (List (List Value))) p
      (fun _ p' => p' = p) fun e p' => Permits a requested p'.world e.rootCause := by
  rw [ends_liftM]
  cases hvectors : scopes.mapM plan.parameters with
  | ok vectors => rfl
  | error e =>
    obtain ⟨scope, hscope, hparameters⟩ := mapM_eq_error hvectors
    obtain ⟨b, hb, type, v, htype, hcoerce, rfl⟩ :=
      Plan.parameters_eq_error hc hg (haround scope hscope) hplan hparameters
    exact .typeMismatch hg hb htype hcoerce

theorem ends_assembleAll_permits {scopes : List Scope} (hc : a.catalog.Coherent)
    (hg : g ∈ a.catalog.groups) (haround : ∀ scope ∈ scopes, a.catalog.Around g scope)
    (hrequested : g.isVirtual ∨ g = requested) :
    Ends ((a.catalog.outline g).assembleAll a.recorded.context scopes (a.catalog.pathTo g)) p
      (fun _ p' => p.world.exchanges ⊆ p'.world.exchanges)
      fun e p' => Permits a requested p'.world e.rootCause := by
  revert scopes p hrequested
  apply hc.induction _ hg
  intro g hg ih p scopes haround hrequested
  rw [hc.outline_eq hg, Outline.assembleAll, Run.ends_located]
  simp only [Error.rootCause_located, ends_bind]
  apply (ends_prepare_permits (hc.name_not_mem_pathTo hg) hrequested).imp
  rintro plan p ⟨hplan, rfl⟩
  rw [ends_ite]
  refine ⟨fun _ => List.Subset.refl _, fun _ => ?_⟩
  simp only [ends_bind]
  apply (ends_vectors_permits hc hg haround hplan).imp
  rintro vectors p rfl
  apply (ends_executeAll_permits vectors).imp
  rintro answers p₁ ⟨hsub, hlength, hanswers⟩
  obtain ⟨t, ht, hquery, _⟩ := Plan.exists_reads hc hg hplan
  rw [hquery] at hanswers
  apply (ends_checkAnswers_permits hg ht hanswers).imp
  rintro _ p₂ ⟨hfits, hworld⟩
  refine (ends_assembleColumns_permits fun child hchild q => ?_).imp ?_
  · rw [← hc.pathTo_of_mem_children hg hchild]
    apply ih child hchild
    · intro s hs
      obtain ⟨scope, hscope, rows, hrows, row, hrow, rfl⟩ := mem_rowScopes hs
      exact (haround scope hscope).push hc hg hchild (hfits rows hrows row hrow)
    · exact .inl (hc.isVirtual_of_mem_children hchild)
  · intro all p₃ hsub'
    rw [hworld] at hsub'
    exact List.Subset.trans hsub hsub'

end Batched

section Entry

variable {r : Recorded σ} {world : σ} {name : String} {rows : List Row}

theorem ends_assembleIn_permits (hc : a.catalog.Coherent) (hg : g ∈ a.catalog.groups)
    (haround : a.catalog.Around g scope) :
    Ends (a.recorded.assembleIn g scope) r (fun _ _ => True)
      fun e r' => Permits a g r' e.rootCause := by
  have hdepthFirst : ∀ p, Ends ((a.catalog.outline g).assembleAt a.recorded.context scope scope.path)
      p (fun _ _ => True) fun e p' => Permits a g p'.world e.rootCause := by
    intro p
    rw [haround.path_eq]
    exact (ends_assembleAt_permits hc hg haround (.inr rfl)).imp fun _ _ _ => trivial
  have hbatched : ∀ p, Ends
      ((a.catalog.outline g).assembleAll a.recorded.context [scope] scope.path)
      p (fun _ _ => True) fun e p' => Permits a g p'.world e.rootCause := by
    intro p
    rw [haround.path_eq]
    exact (ends_assembleAll_permits hc hg (by simpa) (.inr rfl)).imp fun _ _ _ => trivial
  exact ends_assembleIn_strategies (fun _ => hdepthFirst _) fun _ => hbatched _

theorem ends_assemble_permits (hc : a.catalog.Coherent) (hname : a.catalog.group? name = some g)
    (hparent : g.parent = none) :
    Ends (a.recorded.assemble name) r (fun _ _ => True)
      fun e r' => Permits a g r' e.rootCause := by
  have hg := (hc.group?_eq_some.mp hname).1
  have hfound : a.recorded.catalog.group name = .ok g := Catalog.group_eq_ok.mpr hname
  simp only [assemble_eq, assembleWithStats_eq, ends_bind, ends_liftM, hfound, hparent, ends_pure]
  exact ends_assembleIn_permits hc hg (.nil hc hg hparent)

theorem ends_assembleWithin_permits (hc : a.catalog.Coherent)
    (hname : a.catalog.group? name = some g)
    (hrows : List.Forall₂ (fun g row => row.length = g.arity) (a.catalog.ancestors g.name).reverse
      rows) :
    Ends (a.recorded.assembleWithin name rows) r (fun _ _ => True)
      fun e r' => Permits a g r' e.rootCause := by
  have hg := (hc.group?_eq_some.mp hname).1
  have hfound : a.recorded.catalog.group name = .ok g := Catalog.group_eq_ok.mpr hname
  have hlength : (a.recorded.catalog.ancestors g.name).reverse.length = rows.length :=
    hrows.length_eq
  have hscope : scopeOf [] (a.recorded.catalog.ancestors g.name).reverse rows =
      .ok (placeOf (a.catalog.ancestors g.name).reverse rows ++ []) :=
    (scopeOf_eq_ok hlength).mpr ⟨hrows, rfl⟩
  rw [List.append_nil] at hscope
  simp only [assembleWithin_eq, ends_bind, ends_liftM, hfound]
  rw [ends_ite]
  refine ⟨fun h => absurd hlength h, fun _ => ?_⟩
  simp only [ends_bind, ends_liftM, hscope, ends_pure]
  exact ends_assembleIn_permits hc hg (around_placeOf hrows)

theorem exists_recorded {x : Effect (Recorded σ) Node} {y : Effect σ Node} {e : Error}
    (hmirrors : Mirrors Recorded.world x y)
    (hends : Ends x ⟨world, []⟩ (fun _ _ => True) fun e r => Permits a g r e.rootCause)
    (he : (y world).1 = .error e) :
    ∃ r, x ⟨world, []⟩ = (.error e, r) ∧ r.world = (y world).2 ∧ Permits a g r e.rootCause := by
  have hrun : y world = ((x ⟨world, []⟩).1, (x ⟨world, []⟩).2.world) := hmirrors ⟨world, []⟩
  unfold Ends at hends
  rcases hx : x ⟨world, []⟩ with ⟨_ | _, r⟩ <;> rw [hx] at hends hrun <;> rw [hrun] at he <;>
    cases he
  exact ⟨r, rfl, by rw [hrun], hends⟩

/-- Once its entry checks are passed, an assembly of a built catalog fails only for what the
executor answered, for the limit, or because someone asked to stop. -/
theorem rootCause_permitted (hc : a.catalog.Built) (hname : a.catalog.group? name = some g)
    (world : σ) :
    (g.parent = none → ∀ e, (a.assemble name world).1 = .error e →
      ∃ r, a.recorded.assemble name ⟨world, []⟩ = (.error e, r) ∧
        r.world = (a.assemble name world).2 ∧ Permits a g r e.rootCause) ∧
    ∀ rows, List.Forall₂ (fun g row => row.length = g.arity) (a.catalog.ancestors g.name).reverse
      rows → ∀ e, (a.assembleWithin name rows world).1 = .error e →
        ∃ r, a.recorded.assembleWithin name rows ⟨world, []⟩ = (.error e, r) ∧
          r.world = (a.assembleWithin name rows world).2 ∧ Permits a g r e.rootCause := by
  constructor
  · intro hparent e he
    exact exists_recorded (mirrors_assemble a.mirrors_recorded name)
      (ends_assemble_permits hc.coherent hname hparent) he
  · intro rows hrows e he
    exact exists_recorded (mirrors_assembleWithin a.mirrors_recorded name rows)
      (ends_assembleWithin_permits hc.coherent hname hrows) he

def singleRowAssembler : Assembler Unit :=
  { orderAssembler with config := { rowLimit := 1 } }

theorem permits_orders : ∃ g, singleRowAssembler.catalog.group? "orders" = some g ∧
    g.parent = none ∧ ∃ e r, (singleRowAssembler.assemble "orders" ()).1 = .error e ∧
      Permits singleRowAssembler g r e.rootCause := by
  obtain ⟨g, hg, hname, hparent⟩ :
      ∃ g ∈ singleRowAssembler.catalog.groups, g.name = "orders" ∧ g.parent = none := by
    decide +kernel
  have hbuilt : singleRowAssembler.catalog.Built := built_orderAssembler
  have hfound : singleRowAssembler.catalog.group? "orders" = some g :=
    hbuilt.coherent.group?_eq_some.mpr ⟨hg, hname⟩
  have hfails : (singleRowAssembler.assemble "orders" ()).1.toOption.isSome = false := by
    cbv
  refine ⟨g, hfound, hparent, ?_⟩
  cases he : (singleRowAssembler.assemble "orders" ()).1 with
  | ok doc =>
    rw [he] at hfails
    cases hfails
  | error e =>
    obtain ⟨r, _, _, hpermits⟩ := (rootCause_permitted hbuilt hfound ()).1 hparent e he
    exact ⟨e, r, rfl, hpermits⟩

end Entry

end Assembler

end NestedViews
