import NestedViews.Proofs.Assembly.Sequential
import NestedViews.Proofs.Assembly.Evaluation
import NestedViews.Proofs.Assembly.Settles

namespace NestedViews

open Run

variable {σ : Type} {c : Catalog} {answer : String → List Value → Except Error (List Row)}
variable {ctx : Context σ} {inv : σ → Prop} {g : Group} {groups : List Group} {scope : Scope}
variable {scopes : List Scope} {path : List String} {rows : List Row} {answers : List (List Row)}
variable {nodes : List Node} {columns : List (List Node)} {all : List (List Collection)}

/-- What is nested at each of several places, place by place. -/
def EvaluatesColumns (c : Catalog) (answer : String → List Value → Except Error (List Row))
    (groups : List Group) : List Scope → List (List Collection) → Prop :=
  List.Forall₂ fun scope collections => EvaluatesNested c answer scope groups collections

section Attach

theorem length_rowScopes (h : scopes.length = answers.length) :
    (rowScopes g scopes answers).length = (answers.map List.length).sum := by
  induction scopes generalizing answers with
  | nil =>
    cases answers with
    | nil => rfl
    | cons => cases h
  | cons scope scopes ih =>
    cases answers with
    | nil => cases h
    | cons rows answers => simp [rowScopes, ih (Nat.succ.inj h)]

theorem map_countBelow_zipWith {collections : List (List Collection)}
    (h : collections.length ≤ rows.length) :
    (List.zipWith (Node.ofRow g) rows collections).map Node.countBelow =
      collections.map Node.countCollections := by
  induction rows generalizing collections with
  | nil =>
    obtain rfl := List.length_eq_zero_iff.mp (Nat.le_zero.mp h)
    rfl
  | cons row rows ih =>
    cases collections with
    | nil => rfl
    | cons first rest => simp [ih (Nat.le_of_succ_le_succ h)]

theorem sum_countBelow_attach (h : all.length = (answers.map List.length).sum) :
    ((attach g answers all).map fun nodes => (nodes.map Node.countBelow).sum).sum =
      (all.map Node.countCollections).sum := by
  induction answers generalizing all with
  | nil =>
    obtain rfl := List.length_eq_zero_iff.mp h
    rfl
  | cons rows answers ih =>
    rw [List.map_cons, List.sum_cons] at h
    have hdrop : (all.drop rows.length).length = (answers.map List.length).sum := by simp [h]
    have htake := List.length_take_le rows.length all
    rw [attach, List.map_cons, List.sum_cons, map_countBelow_zipWith htake, ih hdrop,
      ← List.sum_append, ← List.map_append, List.take_append_drop]

theorem evaluatesRows_iff_zipWith (hfits : ∀ row ∈ rows, row.length = g.arity) :
    EvaluatesRows c answer scope g rows nodes ↔
      ∃ all, EvaluatesColumns c answer (c.groups.filter fun child => child.parent = some g.name)
        (rows.map fun row => ⟨g, row⟩ :: scope) all ∧ nodes = List.zipWith (.ofRow g) rows all := by
  induction rows generalizing nodes with
  | nil =>
    constructor
    · rintro ⟨⟩
      exact ⟨[], .nil, rfl⟩
    · rintro ⟨_, _, rfl⟩
      exact .nil
  | cons row rows ih =>
    obtain ⟨hrow, hrows⟩ := List.forall_mem_cons.mp hfits
    constructor
    · rintro (_ | ⟨_, hnested, h⟩)
      obtain ⟨all, hall, rfl⟩ := (ih hrows).mp h
      exact ⟨_ :: all, .cons hnested hall, rfl⟩
    · rintro ⟨_, _ | ⟨hnested, hall⟩, rfl⟩
      exact .cons hrow hnested ((ih hrows).mpr ⟨_, hall, rfl⟩)

theorem evaluates_iff_attach
    (h : List.Forall₂ (fun scope rows => ∀ nodes,
      Evaluates c answer scope g nodes ↔ EvaluatesRows c answer scope g rows nodes) scopes answers)
    (hfits : ∀ rows ∈ answers, ∀ row ∈ rows, row.length = g.arity) :
    List.Forall₂ (fun scope nodes => Evaluates c answer scope g nodes) scopes columns ↔
      ∃ all, EvaluatesColumns c answer (c.groups.filter fun child => child.parent = some g.name)
        (rowScopes g scopes answers) all ∧ columns = attach g answers all := by
  induction h generalizing columns with
  | nil =>
    rw [List.forall₂_nil_left_iff]
    constructor
    · exact fun h => ⟨[], .nil, h⟩
    · rintro ⟨_, _, h⟩
      exact h
  | @cons scope rows scopes answers hscope _ ih =>
    obtain ⟨hrows, hanswers⟩ := List.forall_mem_cons.mp hfits
    rw [List.forall₂_cons_left_iff]
    constructor
    · rintro ⟨nodes, columns, hnodes, hcolumns, rfl⟩
      obtain ⟨first, hfirst, rfl⟩ :=
        (evaluatesRows_iff_zipWith hrows).mp ((hscope nodes).mp hnodes)
      obtain ⟨rest, hrest, rfl⟩ := (ih hanswers).mp hcolumns
      have hlength : first.length = rows.length := by simpa using hfirst.length_eq.symm
      refine ⟨first ++ rest, List.rel_append hfirst hrest, ?_⟩
      rw [attach, ← hlength, List.take_left, List.drop_left]
    · rintro ⟨all, hall, rfl⟩
      obtain ⟨first, rest, hfirst, hrest, rfl⟩ := forall₂_append_left.mp hall
      have hlength : first.length = rows.length := by simpa using hfirst.length_eq.symm
      rw [attach, ← hlength, List.take_left, List.drop_left]
      exact ⟨_, _, (hscope _).mpr ((evaluatesRows_iff_zipWith hrows).mpr ⟨first, hfirst, rfl⟩),
        (ih hanswers).mpr ⟨rest, hrest, rfl⟩, rfl⟩

end Attach

section Columns

theorem evaluatesColumns_nil : EvaluatesColumns c answer [] scopes all ↔
    all = scopes.map fun _ => [] := by
  rw [EvaluatesColumns, ← List.forall₂_eq_eq_eq, List.forall₂_map_right_iff]
  simp only [evaluatesNested_nil]
  exact ⟨fun h => h.flip, fun h => h.flip⟩

theorem evaluatesColumns_cons : EvaluatesColumns c answer (g :: groups) scopes all ↔
    ∃ column others,
      List.Forall₂ (fun scope nodes => Evaluates c answer scope g nodes) scopes column ∧
      EvaluatesColumns c answer groups scopes others ∧
        all = List.zipWith (fun nodes collections => .mk g nodes :: collections) column others := by
  induction scopes generalizing all with
  | nil =>
    constructor
    · rintro ⟨⟩
      exact ⟨[], [], .nil, .nil, rfl⟩
    · rintro ⟨_, _, ⟨⟩, ⟨⟩, rfl⟩
      exact .nil
  | cons scope scopes ih =>
    constructor
    · rintro (_ | ⟨hcollections, hall⟩)
      obtain ⟨nodes, collections, hnodes, hnested, rfl⟩ := evaluatesNested_cons.mp hcollections
      obtain ⟨column, others, hcolumn, hothers, rfl⟩ := ih.mp hall
      exact ⟨nodes :: column, collections :: others, .cons hnodes hcolumn, .cons hnested hothers,
        rfl⟩
    · rintro ⟨_, _, _ | ⟨hnodes, hcolumn⟩, _ | ⟨hnested, hothers⟩, rfl⟩
      exact .cons (.cons hnodes hnested) (ih.mpr ⟨_, _, hcolumn, hothers, rfl⟩)

theorem sum_countCollections_zipWith {column : List (List Node)} {others : List (List Collection)}
    (h : column.length = others.length) :
    ((List.zipWith (fun nodes collections => .mk g nodes :: collections) column others).map
      Node.countCollections).sum =
        (column.map Node.countNodes).sum + (others.map Node.countCollections).sum := by
  induction column generalizing others with
  | nil =>
    obtain rfl := List.length_eq_zero_iff.mp h.symm
    rfl
  | cons nodes column ih =>
    cases others with
    | nil => cases h
    | cons collections others =>
      simp only [List.zipWith_cons_cons, List.map_cons, List.sum_cons, Node.countCollections_cons,
        ih (Nat.succ.inj h)]
      omega

theorem settles_assembleColumns
    (h : ∀ g ∈ groups, Settles inv ctx.rowLimit ((c.outline g).assembleAll ctx scopes path)
      (List.Forall₂ (fun scope nodes => Evaluates c answer scope g nodes) scopes)
      fun columns => (columns.map Node.countNodes).sum) :
    Settles inv ctx.rowLimit (Outline.assembleColumns ctx (groups.map c.outline) scopes path)
      (EvaluatesColumns c answer groups scopes) fun all => (all.map Node.countCollections).sum := by
  induction groups with
  | nil =>
    apply (settles_pure _).congr fun _ => evaluatesColumns_nil.symm
    rintro _ rfl
    simp
  | cons g groups ih =>
    rw [List.map_cons, Outline.assembleColumns, Catalog.group_outline]
    have hlength : ∀ {column others},
        List.Forall₂ (fun scope nodes => Evaluates c answer scope g nodes) scopes column →
          EvaluatesColumns c answer groups scopes others → column.length = others.length :=
      fun hcolumn hothers => hcolumn.length_eq.symm.trans hothers.length_eq
    refine (h g (by simp)).bind (m := fun column all =>
      (all.map Node.countCollections).sum - (column.map Node.countNodes).sum) ?_ ?_
    · intro column hunique
      have hcolumn := (hunique column).mpr rfl
      refine (ih fun g hg => h g (.tail _ hg)).map ?_ ?_
      · intro all
        rw [evaluatesColumns_cons]
        constructor
        · rintro ⟨column', others, hcolumn', hothers, rfl⟩
          exact ⟨others, hothers, by rw [(hunique column').mp hcolumn']⟩
        · rintro ⟨others, hothers, rfl⟩
          exact ⟨column, others, hcolumn, hothers, rfl⟩
      · intro others hothers
        rw [sum_countCollections_zipWith (hlength hcolumn hothers), Nat.add_sub_cancel_left]
    · intro all hall
      obtain ⟨column, others, hcolumn, hothers, rfl⟩ := evaluatesColumns_cons.mp hall
      refine ⟨column, hcolumn, ?_⟩
      rw [sum_countCollections_zipWith (hlength hcolumn hothers), Nat.add_sub_cancel_left]

end Columns

section Rows

theorem mem_zip_of_mem_rowScopes {s : Scope} (h : s ∈ rowScopes g scopes answers) :
    ∃ scope rows, (scope, rows) ∈ scopes.zip answers ∧ ∃ row ∈ rows, s = ⟨g, row⟩ :: scope := by
  induction scopes generalizing answers with
  | nil => cases h
  | cons scope scopes ih =>
    cases answers with
    | nil => cases h
    | cons rows answers =>
      rw [rowScopes, List.mem_append] at h
      rcases h with h | h
      · obtain ⟨row, hrow, rfl⟩ := List.mem_map.mp h
        exact ⟨scope, rows, .head _, row, hrow, rfl⟩
      · obtain ⟨scope', rows', hzip, hrow⟩ := ih h
        exact ⟨scope', rows', .tail _ hzip, hrow⟩

theorem mem_rowScopes {s : Scope} (h : s ∈ rowScopes g scopes answers) :
    ∃ scope ∈ scopes, ∃ rows ∈ answers, ∃ row ∈ rows, s = ⟨g, row⟩ :: scope := by
  obtain ⟨scope, rows, hzip, hrow⟩ := mem_zip_of_mem_rowScopes h
  obtain ⟨hscope, hrows⟩ := List.of_mem_zip hzip
  exact ⟨scope, hscope, rows, hrows, hrow⟩

theorem settles_checkRows (rows : List Row) :
    Settles inv ctx.rowLimit
      (do
        ctx.addRows rows.length
        rows.forM fun row => liftM (g.checkRow row))
      (fun _ => ∀ row ∈ rows, row.length = g.arity) fun _ => rows.length := by
  refine (Context.settles_addRows rows.length).bind (m := fun _ _ => 0) ?_ ?_
  · intro _ _
    apply (Settles.forM (n := fun _ => 0) _).congr (fun _ => Iff.rfl) fun _ _ => by simp
    intro row _
    exact (settles_liftM (g.checkRow row)).congr (fun _ => Group.checkRow_eq_ok) fun _ _ => rfl
  · intro _ _
    exact ⟨(), trivial, rfl⟩

theorem sum_countNodes
    (h : List.Forall₂ (fun rows nodes => ∃ scope, EvaluatesRows c answer scope g rows nodes) answers
      columns) :
    (columns.map Node.countNodes).sum = (answers.map List.length).sum +
      (columns.map fun nodes => (nodes.map Node.countBelow).sum).sum := by
  induction h with
  | nil => rfl
  | cons hrows _ ih =>
    obtain ⟨scope, hrows⟩ := hrows
    simp only [List.map_cons, List.sum_cons, countNodes_of_evaluatesRows hrows, ih]
    omega

end Rows

theorem settles_attach {x : Run σ (List (List Collection))}
    (hscopes : List.Forall₂ (fun scope rows => ∀ nodes,
      Evaluates c answer scope g nodes ↔ EvaluatesRows c answer scope g rows nodes) scopes answers)
    (hx : (∀ rows ∈ answers, ∀ row ∈ rows, row.length = g.arity) →
      Settles inv ctx.rowLimit x
        (EvaluatesColumns c answer (c.groups.filter fun child => child.parent = some g.name)
          (rowScopes g scopes answers)) fun all => (all.map Node.countCollections).sum) :
    Settles inv ctx.rowLimit
      (do
        answers.forM fun rows => do
          ctx.addRows rows.length
          rows.forM fun row => liftM (g.checkRow row)
        let all ← x
        return attach g answers all)
      (List.Forall₂ (fun scope nodes => Evaluates c answer scope g nodes) scopes)
      fun columns => (columns.map Node.countNodes).sum := by
  refine (Settles.forM fun rows _ => settles_checkRows rows).bind
    (m := fun _ columns => (columns.map fun nodes => (nodes.map Node.countBelow).sum).sum) ?_ ?_
  · intro _ hunique
    have hfits : ∀ rows ∈ answers, ∀ row ∈ rows, row.length = g.arity := (hunique ()).mpr rfl
    refine (hx hfits).map (fun columns => evaluates_iff_attach hscopes hfits) ?_
    intro all hall
    exact sum_countBelow_attach (hall.length_eq.symm.trans (length_rowScopes hscopes.length_eq))
  · intro columns hcolumns
    have hrows : List.Forall₂ (fun rows nodes => ∃ scope, EvaluatesRows c answer scope g rows nodes)
        answers columns :=
      forall₂_trans hscopes.flip hcolumns fun rows _ scope nodes hiff hnodes =>
        ⟨scope, (hiff nodes).mp hnodes⟩
    refine ⟨(), fun rows hmem => ?_, sum_countNodes hrows⟩
    obtain ⟨_, _, hnodes⟩ := exists_of_forall₂ hrows hmem
    exact fits_of_evaluatesRows hnodes

theorem exists_vectors {p : Plan} (hc : c.Coherent) (hg : g ∈ c.groups)
    (haround : ∀ scope ∈ scopes, c.Around g scope) (hp : g.plan = some p)
    (hcolumns : List.Forall₂ (fun scope nodes => Evaluates c answer scope g nodes) scopes columns) :
    ∃ vectors, scopes.mapM p.parameters = .ok vectors := by
  simp only [mapM_eq_ok]
  apply exists_forall₂
  intro scope hscope
  obtain ⟨nodes, hnodes⟩ := exists_of_forall₂ hcolumns hscope
  obtain ⟨parameters, _, hparameters, _⟩ := hnodes.exists_rows hc hg (haround scope hscope) hp
  exact ⟨parameters, hparameters⟩

theorem exists_answers {p : Plan} {vectors : List (List Value)} (hc : c.Coherent)
    (hg : g ∈ c.groups) (haround : ∀ scope ∈ scopes, c.Around g scope) (hp : g.plan = some p)
    (hcolumns : List.Forall₂ (fun scope nodes => Evaluates c answer scope g nodes) scopes columns)
    (hvectors : List.Forall₂ (fun scope vector => p.parameters scope = .ok vector) scopes vectors) :
    ∃ answers,
      List.Forall₂ (fun vector rows => answer p.query vector = .ok rows) vectors answers := by
  apply exists_forall₂
  intro vector hvector
  obtain ⟨scope, hscope, hparameters⟩ := exists_mem_of_forall₂ hvectors hvector
  obtain ⟨nodes, hnodes⟩ := exists_of_forall₂ hcolumns hscope
  obtain ⟨_, rows, hparameters', hrows⟩ := hnodes.exists_rows hc hg (haround scope hscope) hp
  cases hparameters.symm.trans hparameters'
  exact ⟨rows, hrows⟩

theorem settles_assembleAll (hc : c.Coherent) (hsteady : ctx.Steady answer inv)
    (hg : g ∈ c.groups) (haround : ∀ scope ∈ scopes, c.Around g scope)
    (hvirtual : g.isVirtual ∨ scopes ≠ []) :
    Settles inv ctx.rowLimit ((c.outline g).assembleAll ctx scopes (c.pathTo g))
      (List.Forall₂ (fun scope nodes => Evaluates c answer scope g nodes) scopes)
      fun columns => (columns.map Node.countNodes).sum := by
  revert scopes
  apply hc.induction _ hg
  intro g hg ih scopes haround hvirtual
  rw [hc.outline_eq hg, Outline.assembleAll]
  apply Settles.located
  refine (hsteady.settles_prepare (hc.name_not_mem_pathTo hg)).bind_zero ?_ ?_
  · intro p hp
    split
    · rename_i hempty
      obtain rfl := List.isEmpty_iff.mp hempty
      exact (settles_pure []).congr (fun _ => List.forall₂_nil_left_iff.symm) (by rintro _ rfl; rfl)
    · refine (settles_liftM (scopes.mapM p.parameters)).bind_zero ?_ ?_
      · intro vectors hvectors
        refine (hsteady.settles_executeAll p.query vectors).bind_zero ?_ ?_
        · intro answers hanswers
          have hscopes : List.Forall₂ (fun scope rows => ∀ nodes,
              Evaluates c answer scope g nodes ↔ EvaluatesRows c answer scope g rows nodes)
              scopes answers :=
            forall₂_trans (mapM_eq_ok.mp hvectors) hanswers
              fun scope hscope parameters rows hparameters hrows _ =>
                Plan.evaluates_iff hc hg (haround scope hscope) hp hparameters hrows
          apply settles_attach hscopes
          intro hfits
          rw [← hc.children_eq]
          apply settles_assembleColumns
          intro child hchild
          rw [← hc.pathTo_of_mem_children hg hchild]
          apply ih child hchild
          · intro s hs
            obtain ⟨scope, hscope, rows, hrows, row, hrow, rfl⟩ := mem_rowScopes hs
            exact (haround scope hscope).push hc hg hchild (hfits rows hrows row hrow)
          · exact .inl (hc.isVirtual_of_mem_children hchild)
        · intro columns hcolumns
          exact exists_answers hc hg haround hp hcolumns (mapM_eq_ok.mp hvectors)
      · intro columns hcolumns
        exact exists_vectors hc hg haround hp hcolumns
  · intro columns hcolumns
    -- Without any place nothing evaluates the group, but its plan is asked for all the same.
    rcases hvirtual with hvirtual | hne
    · exact Option.isSome_iff_exists.mp hvirtual
    · obtain ⟨scope, hscope⟩ := List.exists_mem_of_ne_nil scopes hne
      obtain ⟨nodes, hnodes⟩ := exists_of_forall₂ hcolumns hscope
      exact hnodes.exists_plan hc hg

end NestedViews
