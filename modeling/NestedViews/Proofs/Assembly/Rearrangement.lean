import NestedViews.Proofs.Assembly.Meaning
import NestedViews.Proofs.Catalog.Rearrangement
import NestedViews.Proofs.Document.Alike

namespace NestedViews

open Node

variable {c c' : Catalog} {answer : String → List Value → Except Error (List Row)}
variable {scope : Scope} {g : Group} {groups groups' : List Group} {rows : List Row}
variable {nodes : List Node} {collections : List Collection}

theorem EvaluatesNested.perm (hperm : groups.Perm groups')
    (h : EvaluatesNested c answer scope groups collections) :
    ∃ collections', EvaluatesNested c answer scope groups' collections' ∧
      AlikeCollections collections collections' := by
  induction hperm generalizing collections with
  | nil => exact ⟨collections, h, .refl collections⟩
  | cons g _ ih =>
    obtain ⟨nodes, rest, hnodes, hrest, rfl⟩ := evaluatesNested_cons.mp h
    obtain ⟨rest', hrest', halike⟩ := ih hrest
    exact ⟨.mk g nodes :: rest', .cons hnodes hrest', .cons (.refl nodes) halike⟩
  | swap g g' groups =>
    obtain ⟨_, _, hnodes', hall, rfl⟩ := evaluatesNested_cons.mp h
    obtain ⟨_, rest, hnodes, hrest, rfl⟩ := evaluatesNested_cons.mp hall
    exact ⟨_, .cons hnodes (.cons hnodes' hrest), .swap _ _ rest⟩
  | trans _ _ ih ih' =>
    obtain ⟨_, hmiddle, halike⟩ := ih h
    obtain ⟨collections', hcollections', halike'⟩ := ih' hmiddle
    exact ⟨collections', hcollections', .trans halike halike'⟩

theorem EvaluatesNested.exists_alike
    (h : ∀ g ∈ groups, ∀ nodes, Evaluates c answer scope g nodes →
      ∃ nodes', Evaluates c' answer scope g nodes' ∧ AlikeNodes nodes nodes')
    (hnested : EvaluatesNested c answer scope groups collections) :
    ∃ collections', EvaluatesNested c' answer scope groups collections' ∧
      AlikeCollections collections collections' := by
  induction groups generalizing collections with
  | nil =>
    obtain rfl := evaluatesNested_nil.mp hnested
    exact ⟨[], .nil, .nil⟩
  | cons g groups ih =>
    obtain ⟨nodes, rest, hnodes, hrest, rfl⟩ := evaluatesNested_cons.mp hnested
    obtain ⟨nodes', hnodes', halike⟩ := h g (.head _) nodes hnodes
    obtain ⟨rest', hrest', halike'⟩ := ih (fun g hg => h g (.tail _ hg)) hrest
    exact ⟨.mk g nodes' :: rest', .cons hnodes' hrest', .cons halike halike'⟩

theorem EvaluatesRows.exists_alike
    (h : ∀ row collections, EvaluatesNested c answer (⟨g, row⟩ :: scope)
        (c.groups.filter fun child => child.parent = some g.name) collections →
      ∃ collections', EvaluatesNested c' answer (⟨g, row⟩ :: scope)
          (c'.groups.filter fun child => child.parent = some g.name) collections' ∧
        AlikeCollections collections collections')
    (hrows : EvaluatesRows c answer scope g rows nodes) :
    ∃ nodes', EvaluatesRows c' answer scope g rows nodes' ∧ AlikeNodes nodes nodes' := by
  induction rows generalizing nodes with
  | nil =>
    cases hrows
    exact ⟨[], .nil, .nil⟩
  | cons row rows ih =>
    obtain _ | ⟨hrow, hcollections, hrest⟩ := hrows
    obtain ⟨collections', hcollections', halike⟩ := h row _ hcollections
    obtain ⟨nodes', hnodes', halike'⟩ := ih hrest
    exact ⟨_, .cons hrow hcollections' hnodes', .cons (.node halike) halike'⟩

theorem Catalog.Rearranges.exists_alike (h : c.Rearranges c') (hc : c.Coherent) (hg : g ∈ c.groups)
    (hnodes : Evaluates c answer scope g nodes) :
    ∃ nodes', Evaluates c' answer scope g nodes' ∧ AlikeNodes nodes nodes' := by
  revert scope nodes
  apply hc.induction _ hg
  intro g _ ih scope nodes hnodes
  obtain ⟨ht, hparameters, hanswer, hrows⟩ := hnodes
  have hnested : ∀ row collections, EvaluatesNested c answer (⟨g, row⟩ :: scope)
        (c.groups.filter fun child => child.parent = some g.name) collections →
      ∃ collections', EvaluatesNested c' answer (⟨g, row⟩ :: scope)
          (c'.groups.filter fun child => child.parent = some g.name) collections' ∧
        AlikeCollections collections collections' := by
    intro row collections hcollections
    have hchildren : ∀ child ∈ c.groups.filter fun child => child.parent = some g.name,
        ∀ nodes, Evaluates c answer (⟨g, row⟩ :: scope) child nodes →
          ∃ nodes', Evaluates c' answer (⟨g, row⟩ :: scope) child nodes' ∧
            AlikeNodes nodes nodes' := by
      intro child hchild nodes
      rw [← hc.children_eq] at hchild
      exact ih child hchild
    obtain ⟨middle, hmiddle, halike⟩ := hcollections.exists_alike hchildren
    obtain ⟨collections', hcollections', halike'⟩ := hmiddle.perm (h.groups.filter _)
    exact ⟨collections', hcollections', .trans halike halike'⟩
  obtain ⟨nodes', hrows', halike⟩ := hrows.exists_alike hnested
  exact ⟨nodes', .nodes ht hparameters hanswer hrows', halike⟩

namespace Assembler

variable {σ : Type} {a : Assembler σ} {inv : σ → Prop} {world : σ} {doc : Node}
variable {definitions definitions' : List GroupDefinition}

def withCatalog (a : Assembler σ) (catalog : Catalog) : Assembler σ :=
  { a with catalog }

def AlikeOutcomes : Except Error Node → Except Error Node → Prop
  | .ok doc, .ok doc' => doc.Alike doc'
  | .error _, .error _ => True
  | _, _ => False

theorem alikeOutcomes_of_exists {x y : Except Error Node}
    (h : ∀ doc, x = .ok doc → ∃ doc', y = .ok doc' ∧ doc.Alike doc')
    (h' : ∀ doc, y = .ok doc → ∃ doc', x = .ok doc' ∧ doc.Alike doc') : AlikeOutcomes x y := by
  cases x with
  | ok doc =>
    obtain ⟨doc', rfl, halike⟩ := h doc rfl
    exact halike
  | error e =>
    cases y with
    | ok doc =>
      obtain ⟨_, hok, _⟩ := h' doc rfl
      cases hok
    | error e' => trivial

theorem Yields.exists_alike (hc : a.catalog.Coherent) (h : a.catalog.Rearranges c')
    (hg : g ∈ a.catalog.groups) (hdoc : a.Yields answer g scope doc) :
    ∃ doc', (a.withCatalog c').Yields answer g scope doc' ∧ doc.Alike doc' := by
  obtain ⟨nodes, hnodes, hwithin, rfl⟩ := hdoc
  obtain ⟨nodes', hnodes', halike⟩ := h.exists_alike hc hg hnodes
  exact ⟨_, ⟨nodes', hnodes', halike.count_eq ▸ hwithin, rfl⟩, halike.root⟩

theorem assemble_alike (hc : a.catalog.Coherent) (hc' : c'.Coherent) (h : a.catalog.Rearranges c')
    (hsteady : a.context.Steady answer inv) (hworld : inv world) {name : String}
    (hdoc : (a.assemble name world).1 = .ok doc) :
    ∃ doc', ((a.withCatalog c').assemble name world).1 = .ok doc' ∧ doc.Alike doc' := by
  obtain ⟨g, hg, hparent, hyields⟩ := (assemble_eq_ok hc hsteady hworld).mp hdoc
  obtain ⟨doc', hyields', halike⟩ :=
    hyields.exists_alike hc h (hc.group?_eq_some.mp hg).1
  rw [h.group?] at hg
  exact ⟨doc', (assemble_eq_ok (a := a.withCatalog c') hc' hsteady hworld).mpr
    ⟨g, hg, hparent, hyields'⟩, halike⟩

theorem assembleWithin_alike (hc : a.catalog.Coherent) (hc' : c'.Coherent)
    (h : a.catalog.Rearranges c') (hsteady : a.context.Steady answer inv) (hworld : inv world)
    {name : String} {rows : List Row} (hdoc : (a.assembleWithin name rows world).1 = .ok doc) :
    ∃ doc', ((a.withCatalog c').assembleWithin name rows world).1 = .ok doc' ∧
      doc.Alike doc' := by
  obtain ⟨g, hg, hfits, hyields⟩ := (assembleWithin_eq_ok hc hsteady hworld).mp hdoc
  obtain ⟨doc', hyields', halike⟩ :=
    hyields.exists_alike hc h (hc.group?_eq_some.mp hg).1
  rw [h.group?] at hg
  rw [h.ancestors] at hfits hyields'
  exact ⟨doc', (assembleWithin_eq_ok (a := a.withCatalog c') hc' hsteady hworld).mpr
    ⟨g, hg, hfits, hyields'⟩, halike⟩

/-- The order of registration does not matter: definitions build a catalog in every order or in
none, their groups are the same with the same parents, ancestors and plans, and assemblies all fail
or give documents with the same rows in the same places, whose collections are in some order. -/
theorem order_irrelevant (hperm : definitions.Perm definitions') :
    ((∃ c, Catalog.ofDefinitions definitions = .ok c) ↔
      ∃ c', Catalog.ofDefinitions definitions' = .ok c') ∧
    ∀ c c', Catalog.ofDefinitions definitions = .ok c → Catalog.ofDefinitions definitions' = .ok c' →
      c.Rearranges c' ∧
        ∀ {σ : Type} (a : Assembler σ) (answer : String → List Value → Except Error (List Row))
          (inv : σ → Prop), a.context.Steady answer inv → ∀ world, inv world → ∀ name,
            AlikeOutcomes ((a.withCatalog c).assemble name world).1
              ((a.withCatalog c').assemble name world).1 ∧
            ∀ rows, AlikeOutcomes ((a.withCatalog c).assembleWithin name rows world).1
              ((a.withCatalog c').assembleWithin name rows world).1 := by
  refine ⟨⟨Catalog.exists_ofDefinitions_of_perm hperm,
    Catalog.exists_ofDefinitions_of_perm hperm.symm⟩, fun c c' hok hok' => ?_⟩
  have h := Catalog.rearranges_of_perm hperm hok hok'
  have h' := Catalog.rearranges_of_perm hperm.symm hok' hok
  have hc := (Catalog.coherent_of_ofDefinitions hok).2
  have hc' := (Catalog.coherent_of_ofDefinitions hok').2
  refine ⟨h, fun a answer inv hsteady world hworld name => ⟨?_, fun rows => ?_⟩⟩
  · exact alikeOutcomes_of_exists
      (fun _ => assemble_alike (a := a.withCatalog c) hc hc' h hsteady hworld)
      fun _ => assemble_alike (a := a.withCatalog c') hc' hc h' hsteady hworld
  · exact alikeOutcomes_of_exists
      (fun _ => assembleWithin_alike (a := a.withCatalog c) hc hc' h hsteady hworld)
      fun _ => assembleWithin_alike (a := a.withCatalog c') hc' hc h' hsteady hworld

theorem order_irrelevant_reverse : ∃ c',
    Catalog.ofDefinitions Catalog.orderDefinitions.reverse = .ok c' ∧
      Catalog.orderCatalog.Rearranges c' ∧
      (∃ doc, (orderAssembler.assemble "orders" ()).1 = .ok doc) ∧
      AlikeOutcomes (orderAssembler.assemble "orders" ()).1
        ((orderAssembler.withCatalog c').assemble "orders" ()).1 := by
  have hok : Catalog.ofDefinitions Catalog.orderDefinitions = .ok Catalog.orderCatalog := by
    decide +kernel
  obtain ⟨hbuild, hall⟩ := order_irrelevant (List.reverse_perm Catalog.orderDefinitions).symm
  obtain ⟨c', hok'⟩ := hbuild.mp ⟨_, hok⟩
  obtain ⟨h, halike⟩ := hall _ c' hok hok'
  have horders : orderAssembler.withCatalog Catalog.orderCatalog = orderAssembler := rfl
  have hassemble := (halike orderAssembler _ _ steady_orderAssembler () trivial "orders").1
  rw [horders] at hassemble
  exact ⟨c', hok', h, exists_assemble_orders, hassemble⟩

end Assembler

end NestedViews
