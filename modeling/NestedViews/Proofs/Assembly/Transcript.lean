import NestedViews.Proofs.Assembly.Entry
import NestedViews.Proofs.Assembly.Exchanges
import NestedViews.Proofs.Assembly.Levels

/-! What an assembly has exchanged with its executor, as it can be read off the document. Depth
first there is one call for each collection. Level by level the collections of a group are asked for
together. -/

namespace NestedViews

open Effect

variable {σ : Type}

def Group.Asks (g : Group) (query : String) (scope : Scope) (vector : List Value) : Prop :=
  ∃ plan, g.plan = some plan ∧ plan.query = query ∧ plan.parameters scope = .ok vector

theorem Group.Asks.unique {g : Group} {query query' : String} {scope : Scope}
    {vector vector' : List Value} (h : g.Asks query scope vector)
    (h' : g.Asks query' scope vector') : query = query' ∧ vector = vector' := by
  obtain ⟨plan, hplan, rfl, hvector⟩ := h
  obtain ⟨plan', hplan', rfl, hvector'⟩ := h'
  cases hplan.symm.trans hplan'
  exact ⟨rfl, Except.ok.inj (hvector.symm.trans hvector')⟩

def Site.AnsweredBy (s : Site) (x : Exchange) : Prop :=
  ∃ query vector, s.group.Asks query s.scope vector ∧ x = .single query vector s.rows

/-- The exchanges in which the collections of a group at several sites are asked for. -/
def Executor.Serves (e : Executor σ) (g : Group) (sites : List Site) (exchanges : List Exchange) :
    Prop :=
  ∃ query vectors, List.Forall₂ (fun s vector => g.Asks query s.scope vector) sites vectors ∧
    e.Sends query vectors (sites.map Site.rows) exchanges

def InTurn (sites : List Site) (p p' : Progress (Recorded σ)) : Prop :=
  ∃ exchanges, List.Forall₂ Site.AnsweredBy sites exchanges ∧
    Adds p p' exchanges (Site.countNodes sites)

def InParts (e : Executor σ) (groups : List Group) (sites : List Site)
    (p p' : Progress (Recorded σ)) : Prop :=
  ∃ parts, List.Forall₂ (fun g part => e.Serves g (Site.ofGroup g sites) part) groups parts ∧
    Adds p p' parts.flatten (Site.countNodes sites)

variable {a : Assembler σ} {p p' p'' : Progress (Recorded σ)} {g : Group} {scope : Scope}

namespace InTurn

theorem nil (p : Progress (Recorded σ)) : InTurn [] p p :=
  ⟨[], .nil, .refl p⟩

theorem append {sites sites' : List Site} (h : InTurn sites p p') (h' : InTurn sites' p' p'') :
    InTurn (sites ++ sites') p p'' := by
  obtain ⟨exchanges, hanswered, hadds⟩ := h
  obtain ⟨exchanges', hanswered', hadds'⟩ := h'
  refine ⟨exchanges ++ exchanges', List.rel_append hanswered hanswered', ?_⟩
  rw [Site.countNodes_append]
  exact hadds.trans hadds'

end InTurn

namespace Assembler

section DepthFirst

theorem ends_rows_inTurn {outlines : List Outline} {path : List String} {rows : List Row}
    (h : ∀ row, ∀ p : Progress (Recorded σ),
      Ends (Outline.assembleNested a.recorded.context outlines (⟨g, row⟩ :: scope) path) p
        (fun collections p' => Outline.ShapesAll outlines collections ∧
          InTurn (Node.sitesInCollections (⟨g, row⟩ :: scope) collections) p p') fun _ _ => True) :
    Ends
      (rows.mapM fun row => do
        liftM (g.checkRow row)
        let collections ←
          Outline.assembleNested a.recorded.context outlines (⟨g, row⟩ :: scope) path
        return Node.ofRow g row collections) p
      (fun nodes p' => (∀ n ∈ nodes, (Outline.mk g outlines).Shapes n) ∧
        nodes.map Node.row = rows ∧ InTurn (Node.sitesInNodes scope nodes) p p')
      fun _ _ => True := by
  induction rows generalizing p with
  | nil => exact ⟨fun _ h => (List.not_mem_nil h).elim, rfl, .nil p⟩
  | cons row rows ih =>
    rw [List.mapM_cons, ends_bind, ends_bind]
    apply (ends_liftM_eq (g.checkRow row)).imp
    rintro _ _ ⟨hrow, rfl⟩
    rw [ends_bind]
    apply (h row _).imp
    rintro collections p₁ ⟨hshapes, hfirst⟩
    rw [ends_pure, ends_bind]
    apply ih.imp
    rintro nodes p₂ ⟨hnodes, hrows, hrest⟩
    refine ⟨List.forall_mem_cons.mpr ⟨?_, hnodes⟩, congrArg (row :: ·) hrows, hfirst.append hrest⟩
    exact .row (Group.checkRow_eq_ok.mp hrow) hshapes

mutual

theorem ends_assembleAt_inTurn : (o : Outline) → ∀ scope path, ∀ p : Progress (Recorded σ),
    Ends (o.assembleAt a.recorded.context scope path) p
      (fun nodes p' => (∀ n ∈ nodes, o.Shapes n) ∧
        InTurn (⟨scope, o.group, nodes⟩ :: Node.sitesInNodes scope nodes) p p') fun _ _ => True
  | .mk g nested => by
    intro scope path p
    rw [Outline.assembleAt, Run.ends_located, ends_bind]
    apply (ends_prepare_plan path).imp
    rintro plan _ ⟨hplan, rfl⟩
    rw [ends_bind]
    apply (ends_liftM_eq (plan.parameters scope)).imp
    rintro vector _ ⟨hvector, rfl⟩
    rw [ends_bind]
    apply (ends_execute_adds vector).imp
    intro rows p₁ hcall
    rw [ends_bind]
    apply (ends_addRows_adds rows.length).imp
    intro _ p₂ hcount
    apply (ends_rows_inTurn fun row => ends_assembleNested_inTurn nested (⟨g, row⟩ :: scope) _).imp
    rintro nodes p₃ ⟨hnodes, rfl, exchanges, hanswered, hadds⟩
    refine ⟨hnodes, _, .cons ⟨plan.query, vector, ⟨plan, hplan, rfl, hvector⟩, rfl⟩ hanswered, ?_⟩
    have htotal := (hcall.trans hcount).trans hadds
    simpa [Site.rows] using htotal

theorem ends_assembleNested_inTurn : (outlines : List Outline) → ∀ scope path,
    ∀ p : Progress (Recorded σ),
      Ends (Outline.assembleNested a.recorded.context outlines scope path) p
        (fun collections p' => Outline.ShapesAll outlines collections ∧
          InTurn (Node.sitesInCollections scope collections) p p') fun _ _ => True
  | [] => fun _ _ p => ⟨.nil, .nil p⟩
  | o :: rest => by
    intro scope path p
    rw [Outline.assembleNested, ends_bind]
    apply (ends_assembleAt_inTurn o scope path p).imp
    rintro nodes p₁ ⟨hnodes, hfirst⟩
    rw [ends_bind]
    apply (ends_assembleNested_inTurn rest scope path p₁).imp
    rintro collections p₂ ⟨hshapes, hrest⟩
    exact ⟨.cons hnodes hshapes, hfirst.append hrest⟩

end

end DepthFirst

section Batched

variable {e : Executor σ} {scopes : List Scope} {answers : List (List Row)}

theorem serves_nil (e : Executor σ) (g : Group) : e.Serves g [] [] :=
  ⟨"", [], .nil, .nil e ""⟩

theorem inParts_nil (e : Executor σ) (groups : List Group) (p : Progress (Recorded σ)) :
    InParts e groups [] p p := by
  have hparts : List.Forall₂ (fun g part => e.Serves g [] part) groups
      (groups.map fun _ => []) := by
    rw [List.forall₂_map_right_iff, List.forall₂_same]
    exact fun g _ => serves_nil e g
  exact ⟨_, hparts, by simpa using Adds.refl p⟩

theorem asks_zipWith {plan : Plan} {vectors : List (List Value)} {columns : List (List Node)}
    (hplan : g.plan = some plan)
    (hvectors : List.Forall₂ (fun scope vector => plan.parameters scope = .ok vector) scopes
      vectors) (hlength : scopes.length = columns.length) :
    List.Forall₂ (fun s vector => g.Asks plan.query (Site.scope s) vector)
      (List.zipWith (fun scope nodes => ⟨scope, g, nodes⟩) scopes columns) vectors := by
  induction hvectors generalizing columns with
  | nil => exact .nil
  | cons hvector _ ih =>
    obtain _ | ⟨nodes, columns⟩ := columns
    · cases hlength
    exact .cons ⟨plan, hplan, rfl, hvector⟩ (ih (Nat.succ.inj hlength))

theorem serves_attach {plan : Plan} {nested : List Outline} {vectors : List (List Value)}
    {exchanges : List Exchange} {parts : List (List Exchange)} {all : List (List Collection)}
    (hnodup : ((Outline.mk g nested).groups.map Group.name).Nodup) (hplan : g.plan = some plan)
    (hvectors : List.Forall₂ (fun scope vector => plan.parameters scope = .ok vector) scopes
      vectors)
    (hsends : e.Sends plan.query vectors answers exchanges)
    (hfits : ∀ rows ∈ answers, ∀ row ∈ rows, row.length = g.arity)
    (hall : (rowScopes g scopes answers).length = all.length)
    (hshapes : ∀ collections ∈ all, Outline.ShapesAll nested collections)
    (hparts : List.Forall₂ (fun h part =>
      e.Serves h (Site.ofGroup h (Site.ofLevel (rowScopes g scopes answers) all)) part)
      (Outline.groupsAll nested) parts) :
    List.Forall₂ (fun h part =>
      e.Serves h (Site.ofGroup h (Site.ofColumns g scopes (attach g answers all))) part)
      (Outline.mk g nested).groups (exchanges :: parts) := by
  have hscopes : scopes.length = answers.length := hvectors.length_eq.trans hsends.length_eq
  have hlength : all.length = (answers.map List.length).sum :=
    hall.symm.trans (length_rowScopes hscopes)
  constructor
  · have hself : Site.ofGroup g (Site.ofColumns g scopes (attach g answers all)) =
        List.zipWith (fun scope nodes => ⟨scope, g, nodes⟩) scopes (attach g answers all) :=
      ofGroup_ofColumns_self hnodup (shapes_attach hfits hshapes)
    have hcolumns : scopes.length = (attach g answers all).length :=
      hscopes.trans length_attach.symm
    rw [hself]
    refine ⟨plan.query, vectors, asks_zipWith hplan hvectors hcolumns, ?_⟩
    rwa [map_rows_zipWith hcolumns, map_row_attach hlength]
  · apply forall₂_imp_of_mem hparts
    intro h hh part hserves
    have hne : g.name ≠ h.name := (Outline.Distinct.name_ne hnodup hh).symm
    rwa [ofGroup_attach hscopes hlength hne]

mutual

theorem ends_assembleAll_inParts : (o : Outline) → (o.groups.map Group.name).Nodup →
    ∀ scopes path, ∀ p : Progress (Recorded σ),
      Ends (o.assembleAll a.recorded.context scopes path) p
        (fun columns p' => scopes.length = columns.length ∧
          (∀ nodes ∈ columns, ∀ n ∈ nodes, o.Shapes n) ∧
          InParts a.executor o.groups (Site.ofColumns o.group scopes columns) p p')
        fun _ _ => True
  | .mk g nested => by
    intro hnodup scopes path p
    rw [Outline.assembleAll, Run.ends_located, ends_bind]
    apply (ends_prepare_plan path).imp
    rintro plan _ ⟨hplan, rfl⟩
    rw [ends_ite]
    refine ⟨fun hempty => ?_, fun hnonempty => ?_⟩
    · obtain rfl := List.isEmpty_iff.mp hempty
      exact ⟨rfl, fun _ h => (List.not_mem_nil h).elim, inParts_nil _ _ _⟩
    · rw [ends_bind]
      apply (ends_liftM_eq (scopes.mapM plan.parameters)).imp
      rintro vectors _ ⟨hvectors, rfl⟩
      rw [mapM_eq_ok] at hvectors
      have hne : vectors ≠ [] := by
        rintro rfl
        cases hvectors
        exact hnonempty rfl
      rw [ends_bind]
      apply (ends_executeAll_adds hne).imp
      rintro answers p₁ ⟨exchanges, hsends, hcalls⟩
      rw [ends_bind]
      apply (ends_countAnswers_adds answers).imp
      rintro _ p₂ ⟨hfits, hcount⟩
      rw [ends_bind]
      apply (ends_assembleColumns_inParts nested (Outline.Distinct.nested hnodup)
        (rowScopes g scopes answers) _ p₂).imp
      rintro all p₃ ⟨hall, hshapes, parts, hparts, hadds⟩
      have hscopes : scopes.length = answers.length := hvectors.length_eq.trans hsends.length_eq
      have hlength := hall.symm.trans (length_rowScopes hscopes)
      refine ⟨hscopes.trans length_attach.symm, shapes_attach hfits hshapes, exchanges :: parts,
        serves_attach hnodup hplan hvectors hsends hfits hall hshapes hparts, ?_⟩
      have htotal := (hcalls.trans hcount).trans hadds
      change Adds _ _ _ (Site.countNodes (Site.ofColumns g scopes (attach g answers all)))
      rw [countNodes_attach hscopes hlength]
      simpa using htotal

theorem ends_assembleColumns_inParts : (outlines : List Outline) → Outline.Distinct outlines →
    ∀ scopes path, ∀ p : Progress (Recorded σ),
      Ends (Outline.assembleColumns a.recorded.context outlines scopes path) p
        (fun all p' => scopes.length = all.length ∧
          (∀ collections ∈ all, Outline.ShapesAll outlines collections) ∧
          InParts a.executor (Outline.groupsAll outlines) (Site.ofLevel scopes all) p p')
        fun _ _ => True
  | [] => by
    intro _ scopes path p
    rw [Outline.assembleColumns, ends_pure, Site.ofLevel_nil]
    refine ⟨(List.length_map _).symm, fun collections hmem => ?_, inParts_nil _ _ _⟩
    obtain ⟨_, _, rfl⟩ := List.mem_map.mp hmem
    exact .nil
  | o :: rest => by
    intro hd scopes path p
    rw [Outline.assembleColumns, ends_bind]
    apply (ends_assembleAll_inParts o hd.first scopes path p).imp
    rintro column p₁ ⟨hcolumn, hnodes, parts, hparts, hfirst⟩
    rw [ends_bind]
    apply (ends_assembleColumns_inParts rest hd.others scopes path p₁).imp
    rintro others p₂ ⟨hothers, hshapes, parts', hparts', hrest⟩
    refine ⟨by simp [← hcolumn, ← hothers], shapesAll_zipWith hnodes hshapes, parts ++ parts', ?_,
      ?_⟩
    · apply List.rel_append
      · apply forall₂_imp_of_mem hparts
        intro g hg part hserves
        rwa [ofGroup_ofLevel_first hcolumn hothers hd hshapes hg]
      · apply forall₂_imp_of_mem hparts'
        intro g hg part hserves
        rwa [ofGroup_ofLevel_rest hcolumn hothers hd hnodes hg]
    · rw [List.flatten_append, countNodes_ofLevel hcolumn hothers]
      exact hfirst.trans hrest

end

end Batched

section Entry

variable {r : Recorded σ} {name : String} {rows : List Row}

theorem ends_assembleIn_inTurn (hstrategy : a.strategy r.world = .depthFirst) (g : Group)
    (scope : Scope) :
    Ends (a.recorded.assembleIn g scope) r
      (fun result r' => ∃ nodes, (∀ n ∈ nodes, (a.catalog.outline g).Shapes n) ∧
        result.1 = .root (.mk g nodes) ∧
          InTurn (result.1.sites scope) ⟨r, .zero⟩ ⟨r', result.2⟩) fun _ _ => True := by
  have hrecorded : a.recorded.strategy r = .depthFirst := hstrategy
  simp only [assembleIn_eq, ends_bind, ends_get, ends_start, ends_pure, hrecorded]
  apply (ends_assembleAt_inTurn (a.catalog.outline g) scope scope.path _).imp
  rintro nodes p ⟨hnodes, hturn⟩
  refine ⟨nodes, hnodes, rfl, ?_⟩
  rwa [Node.sites_root, ← Catalog.group_outline a.catalog g]

theorem ends_assembleIn_inParts (hstrategy : a.strategy r.world = .batched)
    (hc : a.catalog.Coherent) (hg : g ∈ a.catalog.groups) :
    Ends (a.recorded.assembleIn g scope) r
      (fun result r' => ∃ nodes, (∀ n ∈ nodes, (a.catalog.outline g).Shapes n) ∧
        result.1 = .root (.mk g nodes) ∧
          InParts a.executor (a.catalog.outline g).groups (result.1.sites scope) ⟨r, .zero⟩
            ⟨r', result.2⟩) fun _ _ => True := by
  have hrecorded : a.recorded.strategy r = .batched := hstrategy
  simp only [assembleIn_eq, nodes, ends_bind, ends_get, ends_start, ends_pure, hrecorded]
  apply (ends_assembleAll_inParts (a.catalog.outline g) (hc.nodup_names_outline hg) [scope]
    scope.path _).imp
  rintro columns p ⟨hlength, hnodes, hparts⟩
  obtain ⟨nodes, rfl⟩ := List.length_eq_one_iff.mp hlength.symm
  rw [List.flatten_singleton]
  refine ⟨nodes, hnodes nodes (.head _), rfl, ?_⟩
  rw [Catalog.group_outline, Site.ofColumns_cons] at hparts
  rw [Node.sites_root]
  simpa [Site.ofColumns] using hparts

theorem ends_assembleWithStats {good : Node × Stats → σ → Prop} {world : σ}
    (h : ∀ g, a.catalog.group? name = some g →
      Ends (a.assembleIn g []) world good fun _ _ => True) :
    Ends (a.assembleWithStats name) world good fun _ _ => True := by
  apply ends_assembleWithStats_enters
  · exact fun _ _ => trivial
  · rintro g _ ⟨hname, _, rfl⟩
    exact h g hname

theorem ends_assembleWithin {good : Node → σ → Prop} {world : σ}
    (h : ∀ g, a.catalog.group? name = some g →
      Ends (a.assembleIn g (placeOf (a.catalog.ancestors g.name).reverse rows)) world
        (fun result w => good result.1 w) fun _ _ => True) :
    Ends (a.assembleWithin name rows) world good fun _ _ => True := by
  apply ends_assembleWithin_enters
  · exact fun _ _ => trivial
  · rintro g _ ⟨hname, _, rfl⟩
    exact h g hname

end Entry

end Assembler

end NestedViews
