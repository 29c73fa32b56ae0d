import NestedViews.Proofs.Assembly.Batched
import NestedViews.Proofs.Document.Shape

namespace NestedViews

variable {g h : Group} {scope : Scope} {scopes scopes' : List Scope} {rows : List Row}
variable {answers : List (List Row)} {columns column : List (List Node)}
variable {all others : List (List Collection)} {o : Outline} {outlines : List Outline}

namespace Site

def ofColumns (g : Group) (scopes : List Scope) (columns : List (List Node)) : List Site :=
  (List.zipWith (fun scope nodes => ⟨scope, g, nodes⟩ :: Node.sitesInNodes scope nodes) scopes
    columns).flatten

def ofLevel (scopes : List Scope) (all : List (List Collection)) : List Site :=
  (List.zipWith Node.sitesInCollections scopes all).flatten

@[simp] theorem ofColumns_cons (nodes : List Node) :
    ofColumns g (scope :: scopes) (nodes :: columns) =
      ⟨scope, g, nodes⟩ :: (Node.sitesInNodes scope nodes ++ ofColumns g scopes columns) := rfl

@[simp] theorem ofLevel_cons (collections : List Collection) :
    ofLevel (scope :: scopes) (collections :: all) =
      Node.sitesInCollections scope collections ++ ofLevel scopes all := rfl

theorem ofLevel_nil (scopes : List Scope) : ofLevel scopes (scopes.map fun _ => []) = [] := by
  induction scopes with
  | nil => rfl
  | cons scope scopes ih => exact ih

theorem ofLevel_append {all' : List (List Collection)} (hlength : scopes.length = all.length) :
    ofLevel (scopes ++ scopes') (all ++ all') = ofLevel scopes all ++ ofLevel scopes' all' := by
  rw [ofLevel, List.zipWith_append hlength, List.flatten_append]
  rfl

end Site

section Attach

theorem sitesInNodes_zipWith : Node.sitesInNodes scope (List.zipWith (.ofRow g) rows all) =
    Site.ofLevel (rows.map fun row => ⟨g, row⟩ :: scope) all := by
  induction rows generalizing all with
  | nil => rfl
  | cons row rows ih =>
    cases all with
    | nil => rfl
    | cons collections all =>
      rw [List.zipWith_cons_cons, Node.sitesInNodes, ih, Node.sites_ofRow]
      rfl

theorem length_attach : (attach g answers all).length = answers.length := by
  induction answers generalizing all with
  | nil => rfl
  | cons rows answers ih => exact congrArg (· + 1) ih

theorem map_row_zipWith (hlength : rows.length = all.length) :
    (List.zipWith (Node.ofRow g) rows all).map Node.row = rows := by
  induction rows generalizing all with
  | nil => rfl
  | cons row rows ih =>
    cases all with
    | nil => cases hlength
    | cons collections all =>
      rw [List.zipWith_cons_cons, List.map_cons, ih (Nat.succ.inj hlength)]
      rfl

theorem map_row_attach (hall : all.length = (answers.map List.length).sum) :
    (attach g answers all).map (List.map Node.row) = answers := by
  induction answers generalizing all with
  | nil => rfl
  | cons rows answers ih =>
    rw [List.map_cons, List.sum_cons] at hall
    rw [attach, List.map_cons, map_row_zipWith (by simp [hall]), ih (by simp [hall])]

theorem ofLevel_rowScopes_cons (hall : rows.length ≤ all.length) :
    Site.ofLevel (rowScopes g (scope :: scopes) (rows :: answers)) all =
      Node.sitesInNodes scope (List.zipWith (.ofRow g) rows (all.take rows.length)) ++
        Site.ofLevel (rowScopes g scopes answers) (all.drop rows.length) := by
  have htake : (rows.map fun row => (⟨g, row⟩ :: scope : Scope)).length =
      (all.take rows.length).length := by simp [hall]
  rw [sitesInNodes_zipWith, ← Site.ofLevel_append htake, List.take_append_drop, rowScopes]

/-- What is nested under the nodes that are handed out is what is nested under the rows. -/
theorem ofGroup_attach (hscopes : scopes.length = answers.length)
    (hall : all.length = (answers.map List.length).sum) (hne : g.name ≠ h.name) :
    Site.ofGroup h (Site.ofColumns g scopes (attach g answers all)) =
      Site.ofGroup h (Site.ofLevel (rowScopes g scopes answers) all) := by
  induction answers generalizing scopes all with
  | nil =>
    obtain rfl := List.length_eq_zero_iff.mp hscopes
    rfl
  | cons rows answers ih =>
    cases scopes with
    | nil => cases hscopes
    | cons scope scopes =>
      rw [List.map_cons, List.sum_cons] at hall
      have hdrop : (all.drop rows.length).length = (answers.map List.length).sum := by simp [hall]
      rw [attach, Site.ofColumns_cons, Site.ofGroup_cons_of_ne _ hne, Site.ofGroup_append,
        ih (Nat.succ.inj hscopes) hdrop, ← Site.ofGroup_append,
        ← ofLevel_rowScopes_cons (by omega)]

theorem countNodes_attach (hscopes : scopes.length = answers.length)
    (hall : all.length = (answers.map List.length).sum) :
    Site.countNodes (Site.ofColumns g scopes (attach g answers all)) =
      (answers.map List.length).sum +
        Site.countNodes (Site.ofLevel (rowScopes g scopes answers) all) := by
  induction answers generalizing scopes all with
  | nil =>
    obtain rfl := List.length_eq_zero_iff.mp hscopes
    rfl
  | cons rows answers ih =>
    cases scopes with
    | nil => cases hscopes
    | cons scope scopes =>
      rw [List.map_cons, List.sum_cons] at hall
      have hdrop : (all.drop rows.length).length = (answers.map List.length).sum := by simp [hall]
      have hnodes : (List.zipWith (Node.ofRow g) rows (all.take rows.length)).length =
          rows.length := by simp [hall]
      rw [ofLevel_rowScopes_cons (by omega), attach, Site.ofColumns_cons, Site.countNodes_cons,
        Site.countNodes_append, ih (Nat.succ.inj hscopes) hdrop, hnodes, Site.countNodes_append,
        List.map_cons, List.sum_cons]
      omega

theorem shapes_attach {nested : List Outline}
    (hfits : ∀ rows ∈ answers, ∀ row ∈ rows, row.length = g.arity)
    (hshapes : ∀ collections ∈ all, Outline.ShapesAll nested collections) :
    ∀ nodes ∈ attach g answers all, ∀ n ∈ nodes, (Outline.mk g nested).Shapes n := by
  induction answers generalizing all with
  | nil => exact fun _ h => (List.not_mem_nil h).elim
  | cons rows answers ih =>
    obtain ⟨hrows, hanswers⟩ := List.forall_mem_cons.mp hfits
    rw [attach]
    refine List.forall_mem_cons.mpr ⟨fun n hn => ?_, ?_⟩
    · rw [← List.map_uncurry_zip_eq_zipWith] at hn
      obtain ⟨⟨row, collections⟩, hzip, rfl⟩ := List.mem_map.mp hn
      obtain ⟨hrow, hcollections⟩ := List.of_mem_zip hzip
      exact .row (hrows row hrow) (hshapes collections (List.mem_of_mem_take hcollections))
    · exact ih hanswers fun collections h => hshapes collections (List.mem_of_mem_drop h)

end Attach

section Columns

theorem ofGroup_ofColumns_self (hd : (o.groups.map Group.name).Nodup)
    (hnodes : ∀ nodes ∈ columns, ∀ n ∈ nodes, o.Shapes n) :
    Site.ofGroup o.group (Site.ofColumns o.group scopes columns) =
      List.zipWith (fun scope nodes => ⟨scope, o.group, nodes⟩) scopes columns := by
  induction scopes generalizing columns with
  | nil => rfl
  | cons scope scopes ih =>
    cases columns with
    | nil => rfl
    | cons nodes columns =>
      obtain ⟨hfirst, hrest⟩ := List.forall_mem_cons.mp hnodes
      rw [Site.ofColumns_cons, Site.ofGroup_cons_self, Site.ofGroup_append, ih hrest,
        Outline.ofGroup_sitesInNodes_self hd hfirst]
      rfl

theorem map_rows_zipWith (hlength : scopes.length = columns.length) :
    (List.zipWith (fun scope nodes => (⟨scope, g, nodes⟩ : Site)) scopes columns).map Site.rows =
      columns.map (List.map Node.row) := by
  induction scopes generalizing columns with
  | nil =>
    obtain rfl := List.length_eq_zero_iff.mp hlength.symm
    rfl
  | cons scope scopes ih =>
    obtain _ | ⟨nodes, columns⟩ := columns
    · cases hlength
    exact congrArg (nodes.map Node.row :: ·) (ih (Nat.succ.inj hlength))

theorem shapesAll_zipWith (hnodes : ∀ nodes ∈ column, ∀ n ∈ nodes, o.Shapes n)
    (hrest : ∀ collections ∈ others, Outline.ShapesAll outlines collections) :
    ∀ collections ∈
      List.zipWith (fun nodes collections => .mk o.group nodes :: collections) column others,
      Outline.ShapesAll (o :: outlines) collections := by
  intro collections hmem
  rw [← List.map_uncurry_zip_eq_zipWith] at hmem
  obtain ⟨⟨nodes, collections⟩, hzip, rfl⟩ := List.mem_map.mp hmem
  obtain ⟨hcolumn, hothers⟩ := List.of_mem_zip hzip
  exact .cons (hnodes nodes hcolumn) (hrest collections hothers)

variable (hcolumn : scopes.length = column.length) (hothers : scopes.length = others.length)
include hcolumn hothers

theorem ofGroup_ofLevel_first (hd : Outline.Distinct (o :: outlines))
    (hrest : ∀ collections ∈ others, Outline.ShapesAll outlines collections) (hh : h ∈ o.groups) :
    Site.ofGroup h (Site.ofLevel scopes
      (List.zipWith (fun nodes collections => .mk o.group nodes :: collections) column others)) =
        Site.ofGroup h (Site.ofColumns o.group scopes column) := by
  induction scopes generalizing column others with
  | nil => rfl
  | cons scope scopes ih =>
    obtain _ | ⟨nodes, column⟩ := column
    · cases hcolumn
    obtain _ | ⟨collections, others⟩ := others
    · cases hothers
    obtain ⟨hfirst, hrest⟩ := List.forall_mem_cons.mp hrest
    rw [List.zipWith_cons_cons, Site.ofLevel_cons, Site.ofGroup_append,
      ih (Nat.succ.inj hcolumn) (Nat.succ.inj hothers) hrest,
      Outline.ofGroup_sites_first hd hfirst hh, ← Site.ofGroup_append]
    rfl

theorem ofGroup_ofLevel_rest (hd : Outline.Distinct (o :: outlines))
    (hnodes : ∀ nodes ∈ column, ∀ n ∈ nodes, o.Shapes n) (hh : h ∈ Outline.groupsAll outlines) :
    Site.ofGroup h (Site.ofLevel scopes
      (List.zipWith (fun nodes collections => .mk o.group nodes :: collections) column others)) =
        Site.ofGroup h (Site.ofLevel scopes others) := by
  induction scopes generalizing column others with
  | nil => rfl
  | cons scope scopes ih =>
    obtain _ | ⟨nodes, column⟩ := column
    · cases hcolumn
    obtain _ | ⟨collections, others⟩ := others
    · cases hothers
    obtain ⟨hfirst, hrest⟩ := List.forall_mem_cons.mp hnodes
    rw [List.zipWith_cons_cons, Site.ofLevel_cons, Site.ofGroup_append,
      ih (Nat.succ.inj hcolumn) (Nat.succ.inj hothers) hrest,
      Outline.ofGroup_sites_rest hd hfirst hh, ← Site.ofGroup_append]
    rfl

theorem countNodes_ofLevel :
    Site.countNodes (Site.ofLevel scopes
      (List.zipWith (fun nodes collections => .mk g nodes :: collections) column others)) =
        Site.countNodes (Site.ofColumns g scopes column) +
          Site.countNodes (Site.ofLevel scopes others) := by
  induction scopes generalizing column others with
  | nil => rfl
  | cons scope scopes ih =>
    obtain _ | ⟨nodes, column⟩ := column
    · cases hcolumn
    obtain _ | ⟨collections, others⟩ := others
    · cases hothers
    rw [List.zipWith_cons_cons, Site.ofLevel_cons, Site.countNodes_append,
      ih (Nat.succ.inj hcolumn) (Nat.succ.inj hothers), Node.sitesInCollections]
    simp only [Site.ofColumns_cons, Site.ofLevel_cons, Site.countNodes_cons,
      Site.countNodes_append]
    omega

end Columns

end NestedViews
