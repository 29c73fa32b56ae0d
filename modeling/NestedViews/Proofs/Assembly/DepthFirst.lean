import NestedViews.Proofs.Assembly.Sequential
import NestedViews.Proofs.Assembly.Evaluation
import NestedViews.Proofs.Assembly.Settles

namespace NestedViews

open Run

variable {σ : Type} {c : Catalog} {answer : String → List Value → Except Error (List Row)}
variable {ctx : Context σ} {inv : σ → Prop} {g : Group} {scope : Scope} {path : List String}

theorem settles_assembleNested {groups : List Group}
    (h : ∀ g ∈ groups, Settles inv ctx.rowLimit ((c.outline g).assembleAt ctx scope path)
      (Evaluates c answer scope g) Node.countNodes) :
    Settles inv ctx.rowLimit (Outline.assembleNested ctx (groups.map c.outline) scope path)
      (EvaluatesNested c answer scope groups) Node.countCollections := by
  induction groups with
  | nil =>
    apply (settles_pure []).congr (fun _ => evaluatesNested_nil.symm)
    rintro _ rfl
    rfl
  | cons g groups ih =>
    rw [List.map_cons, Outline.assembleNested, Catalog.group_outline]
    refine (h g (by simp)).bind (m := fun _ all => Node.countCollections all.tail) ?_ ?_
    · intro nodes hunique
      refine (ih fun g hg => h g (.tail _ hg)).map ?_ fun _ _ => rfl
      intro all
      rw [evaluatesNested_cons]
      constructor
      · rintro ⟨nodes', rest, hnodes, hrest, rfl⟩
        exact ⟨rest, hrest, by rw [(hunique nodes').mp hnodes]⟩
      · rintro ⟨rest, hrest, rfl⟩
        exact ⟨nodes, rest, (hunique nodes).mpr rfl, hrest, rfl⟩
    · intro all hall
      obtain ⟨nodes, rest, hnodes, _, rfl⟩ := evaluatesNested_cons.mp hall
      exact ⟨nodes, hnodes, Node.countCollections_cons⟩

theorem settles_rows {rows : List Row}
    (h : ∀ row, row.length = g.arity →
      Settles inv ctx.rowLimit
        (Outline.assembleNested ctx ((c.children g.name).map c.outline) (⟨g, row⟩ :: scope) path)
        (EvaluatesNested c answer (⟨g, row⟩ :: scope)
          (c.groups.filter fun child => child.parent = some g.name)) Node.countCollections) :
    Settles inv ctx.rowLimit
      (rows.mapM fun row => do
        liftM (g.checkRow row)
        let collections ←
          Outline.assembleNested ctx ((c.children g.name).map c.outline) (⟨g, row⟩ :: scope) path
        return .ofRow g row collections)
      (EvaluatesRows c answer scope g rows) fun nodes => (nodes.map Node.countBelow).sum := by
  apply Settles.congr _ (fun nodes => evaluatesRows_iff.symm) fun _ _ => rfl
  apply Settles.mapM
  intro row _
  refine (settles_liftM (g.checkRow row)).bind_zero ?_ ?_
  · intro _ hrow
    have hlength := Group.checkRow_eq_ok.mp hrow
    refine (h row hlength).map ?_ fun _ _ => rfl
    intro node
    exact and_iff_right hlength
  · rintro node ⟨hlength, _⟩
    exact ⟨(), Group.checkRow_eq_ok.mpr hlength⟩

theorem settles_assembleAt (hc : c.Coherent) (hsteady : ctx.Steady answer inv)
    (hg : g ∈ c.groups) (haround : c.Around g scope) :
    Settles inv ctx.rowLimit ((c.outline g).assembleAt ctx scope (c.pathTo g))
      (Evaluates c answer scope g) Node.countNodes := by
  revert scope
  apply hc.induction _ hg
  intro g hg ih scope haround
  rw [hc.outline_eq hg, Outline.assembleAt]
  apply Settles.located
  refine (hsteady.settles_prepare (hc.name_not_mem_pathTo hg)).bind_zero ?_ ?_
  · intro p hp
    refine (settles_liftM (p.parameters scope)).bind_zero ?_ ?_
    · intro parameters hparameters
      refine (hsteady.settles_execute p.query parameters).bind_zero ?_ ?_
      · intro rows hrows
        have hiff : ∀ nodes, EvaluatesRows c answer scope g rows nodes ↔
            Evaluates c answer scope g nodes :=
          fun _ => (Plan.evaluates_iff hc hg haround hp hparameters hrows).symm
        refine (Context.settles_addRows rows.length).bind
          (m := fun _ nodes => (nodes.map Node.countBelow).sum) ?_ ?_
        · intro _ _
          apply (settles_rows _).congr hiff fun _ _ => rfl
          intro row hrow
          rw [← hc.children_eq]
          apply settles_assembleNested
          intro child hchild
          rw [← hc.pathTo_of_mem_children hg hchild]
          exact ih child hchild (haround.push hc hg hchild hrow)
        · intro nodes hnodes
          exact ⟨(), trivial, countNodes_of_evaluatesRows ((hiff nodes).mpr hnodes)⟩
      · intro nodes hnodes
        obtain ⟨parameters', rows, hparameters', hrows⟩ := hnodes.exists_rows hc hg haround hp
        cases hparameters.symm.trans hparameters'
        exact ⟨rows, hrows⟩
    · intro nodes hnodes
      obtain ⟨parameters, _, hparameters, _⟩ := hnodes.exists_rows hc hg haround hp
      exact ⟨parameters, hparameters⟩
  · intro nodes hnodes
    exact hnodes.exists_plan hc hg

end NestedViews
