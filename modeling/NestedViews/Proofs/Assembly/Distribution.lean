import NestedViews.Proofs.Assembly.Transcript

namespace NestedViews

open Effect

variable {σ : Type} {g : Group}

/-- The parameter vectors of a group's exchanges are those of some places, in their order, and the
answers are the rows of its collections there. -/
structure Feeds (g : Group) (places : List Place) (exchanges : List Exchange) : Prop where
  vectors : ∃ query, (∀ x ∈ exchanges, x.call.query = query) ∧
    List.Forall₂ (fun place vector => g.Asks query place.scope vector) places
      (exchanges.flatMap fun x => x.call.vectors)
  rows : List.Forall₂ (fun place rows => ∃ nodes, place.node.children? g.name = some nodes ∧
    nodes.map Node.row = rows) places (exchanges.flatMap Exchange.answers)

/-- The exchanges of an assembly come group by group. Those of each group feed the nodes of its
parent in the document, or the root for the group that was requested. -/
structure Distributes (c : Catalog) (requested : Group) (scope : Scope) (doc : Node)
    (exchanges : List Exchange) : Prop where
  complete : ∀ x ∈ exchanges, x.Complete
  parts : ∃ parts, exchanges = parts.flatten ∧
    List.Forall₂ (fun g part => Feeds g (doc.hosts scope requested g) part)
      (c.outline requested).groups parts

theorem Executor.Serves.feeds {e : Executor σ} {places : List Place} {sites : List Site}
    {part : List Exchange} (h : e.Serves g (Site.ofGroup g sites) part)
    (hholds : List.Forall₂ Place.Holds places (Site.ofGroup g sites)) : Feeds g places part := by
  obtain ⟨query, vectors, hvectors, hsends⟩ := h
  constructor
  · refine ⟨query, hsends.query_eq, ?_⟩
    rw [hsends.flatMap_vectors]
    apply forall₂_trans hholds hvectors
    rintro place _ s vector ⟨hscope, _⟩ hasks
    rwa [← hscope]
  · rw [hsends.flatMap_answers, List.forall₂_map_right_iff]
    apply List.Forall₂.flip
    apply forall₂_imp_of_mem hholds.flip
    rintro s hs place ⟨_, hnodes⟩
    have hname : s.group.name = g.name := by simpa using (List.mem_filter.mp hs).2
    rw [hname] at hnodes
    exact ⟨s.nodes, hnodes, rfl⟩

namespace Assembler

variable {a : Assembler σ} {scope : Scope} {world : σ} {name : String} {rows : List Row}

theorem ends_assembleIn_distributes (hstrategy : a.strategy world = .batched)
    (hc : a.catalog.Coherent) (hg : g ∈ a.catalog.groups) :
    Ends (a.recorded.assembleIn g scope) ⟨world, []⟩
      (fun result r => Distributes a.catalog g scope result.1 r.exchanges) fun _ _ => True := by
  apply (ends_assembleIn_inParts hstrategy hc hg).imp
  rintro ⟨_, stats⟩ r ⟨nodes, hnodes, rfl, parts, hparts, hadds⟩
  have hexchanges : r.exchanges = parts.flatten := hadds.exchanges_eq
  refine ⟨fun x hx => ?_, parts, hexchanges, ?_⟩
  · rw [hexchanges] at hx
    obtain ⟨part, hpart, hx⟩ := List.mem_flatten.mp hx
    obtain ⟨h, _, _, _, hsends⟩ := exists_of_forall₂ hparts.flip hpart
    exact hsends.complete x hx
  · apply forall₂_imp_of_mem hparts
    intro h hh part hserves
    exact hserves.feeds (hc.forall₂_holds_hosts hg hnodes hh)

theorem ends_assemble_distributes (hstrategy : a.strategy world = .batched)
    (hc : a.catalog.Coherent) :
    Ends (a.recorded.assemble name) ⟨world, []⟩
      (fun doc r => ∃ g, a.catalog.group? name = some g ∧
        Distributes a.catalog g [] doc r.exchanges) fun _ _ => True := by
  rw [assemble_eq, ends_bind]
  apply ends_assembleWithStats
  intro g hname
  apply (ends_assembleIn_distributes hstrategy hc (hc.group?_eq_some.mp hname).1).imp
  exact fun _ _ h => ⟨g, hname, h⟩

theorem ends_assembleWithin_distributes (hstrategy : a.strategy world = .batched)
    (hc : a.catalog.Coherent) :
    Ends (a.recorded.assembleWithin name rows) ⟨world, []⟩
      (fun doc r => ∃ g, a.catalog.group? name = some g ∧
        Distributes a.catalog g (placeOf (a.catalog.ancestors g.name).reverse rows) doc r.exchanges)
      fun _ _ => True := by
  apply ends_assembleWithin
  intro g hname
  apply (ends_assembleIn_distributes hstrategy hc (hc.group?_eq_some.mp hname).1).imp
  exact fun _ _ h => ⟨g, hname, h⟩

theorem distributes_assembly (hc : a.catalog.Built) (hstrategy : a.strategy world = .batched)
    (name : String) (doc : Node) :
    ((a.assemble name world).1 = .ok doc →
      ∃ g r, a.catalog.group? name = some g ∧
        a.recorded.assemble name ⟨world, []⟩ = (.ok doc, r) ∧
          r.world = (a.assemble name world).2 ∧ Distributes a.catalog g [] doc r.exchanges) ∧
    ∀ rows, (a.assembleWithin name rows world).1 = .ok doc →
      ∃ g r, a.catalog.group? name = some g ∧
        a.recorded.assembleWithin name rows ⟨world, []⟩ = (.ok doc, r) ∧
          r.world = (a.assembleWithin name rows world).2 ∧
            Distributes a.catalog g (placeOf (a.catalog.ancestors g.name).reverse rows) doc
              r.exchanges := by
  constructor
  · intro hok
    obtain ⟨r, hrun, hworld, g, hname, hdistributes⟩ :=
      Recorded.exists_ok (mirrors_assemble a.mirrors_recorded name)
        (ends_assemble_distributes hstrategy hc.coherent) hok
    exact ⟨g, r, hname, hrun, hworld, hdistributes⟩
  · intro rows hok
    obtain ⟨r, hrun, hworld, g, hname, hdistributes⟩ :=
      Recorded.exists_ok (mirrors_assembleWithin a.mirrors_recorded name rows)
        (ends_assembleWithin_distributes hstrategy hc.coherent) hok
    exact ⟨g, r, hname, hrun, hworld, hdistributes⟩

theorem distributes_orders : ∃ doc g r,
    (batchedOrderAssembler.assemble "orders" ()).1 = .ok doc ∧
      batchedOrderAssembler.catalog.group? "orders" = some g ∧
        batchedOrderAssembler.recorded.assemble "orders" ⟨(), []⟩ = (.ok doc, r) ∧
          Distributes batchedOrderAssembler.catalog g [] doc r.exchanges := by
  obtain ⟨doc, hdoc⟩ : ∃ doc, (batchedOrderAssembler.assemble "orders" ()).1 = .ok doc := by
    apply exists_ok_of_isSome
    cbv
  obtain ⟨g, r, hname, hrun, _, hdistributes⟩ :=
    (distributes_assembly built_batchedOrderAssembler rfl "orders" doc).1 hdoc
  exact ⟨doc, g, r, hdoc, hname, hrun, hdistributes⟩

end Assembler

end NestedViews
