import NestedViews.Proofs.Assembly.Agenda
import NestedViews.Proofs.Assembly.Evaluation

namespace NestedViews

def Group.Gets (answer : String → List Value → Except Error (List Row)) (g : Group) (scope : Scope)
    (rows : List Row) : Prop :=
  ∃ p vector, g.plan = some p ∧ p.parameters scope = .ok vector ∧ answer p.query vector = .ok rows

/-- A place of a group leads to itself and to all places below it. Every row that fits has its own
branches, whatever is at fault elsewhere. -/
inductive LeadsTo (c : Catalog) (answer : String → List Value → Except Error (List Row)) :
    Group → Scope → Group → Scope → Prop
  | here {g scope} : LeadsTo c answer g scope g scope
  | nested {g scope rows row child h inner} : g.Gets answer scope rows → row ∈ rows →
      row.length = g.arity → child ∈ c.children g.name →
      LeadsTo c answer child (⟨g, row⟩ :: scope) h inner → LeadsTo c answer g scope h inner

/-- What a group fails for at a place, apart from what is nested under it. Of several rows that do
not fit, the first one counts. -/
inductive FailsAt (answer : String → List Value → Except Error (List Row)) (g : Group)
    (scope : Scope) : Error → Prop
  | binding {p e} : g.plan = some p → p.parameters scope = .error e → FailsAt answer g scope e
  | execution {p vector e} : g.plan = some p → p.parameters scope = .ok vector →
      answer p.query vector = .error e → FailsAt answer g scope e
  | row {before row after} : g.Gets answer scope (before ++ row :: after) →
      (∀ r ∈ before, r.length = g.arity) → row.length ≠ g.arity →
      FailsAt answer g scope (.binding (.rowLength g.name row.length g.arity))

def Faulty (c : Catalog) (answer : String → List Value → Except Error (List Row)) (g : Group)
    (scope : Scope) (err : Error) : Prop :=
  ∃ h inner e, LeadsTo c answer g scope h inner ∧ FailsAt answer h inner e ∧
    err = e.located h.name (c.pathTo h)

variable {c : Catalog} {answer : String → List Value → Except Error (List Row)}
variable {g h' child : Group} {scope inner : Scope} {p : Plan} {vector : List Value}
variable {rows rows' : List Row} {row : Row} {nodes : List Node} {e e' err : Error}
variable {groups : List Group} {collections : List Collection}

namespace Group.Gets

variable (h : g.Gets answer scope rows)
include h

theorem exists_vector (hp : g.plan = some p) :
    ∃ vector, p.parameters scope = .ok vector ∧ answer p.query vector = .ok rows := by
  obtain ⟨_, vector, hp', hvector, hrows⟩ := h
  cases hp.symm.trans hp'
  exact ⟨vector, hvector, hrows⟩

theorem answer_eq (hp : g.plan = some p) (hvector : p.parameters scope = .ok vector) :
    answer p.query vector = .ok rows := by
  obtain ⟨_, hvector', hrows⟩ := h.exists_vector hp
  cases hvector.symm.trans hvector'
  exact hrows

theorem unique (h' : g.Gets answer scope rows') : rows = rows' := by
  obtain ⟨p, vector, hp, hvector, hrows⟩ := h'
  exact Except.ok.inj ((h.answer_eq hp hvector).symm.trans hrows)

end Group.Gets

namespace FailsAt

theorem of_checkRows (hrows : g.Gets answer scope rows) (h : rows.forM g.checkRow = .error e) :
    FailsAt answer g scope e := by
  obtain ⟨before, row, after, rfl, hbefore, hmisfit, rfl⟩ := Group.checkRows_eq_error.mp h
  exact .row hrows hbefore hmisfit

theorem exists_plan (h : FailsAt answer g scope e) : ∃ p, g.plan = some p := by
  obtain ⟨hp, _⟩ | ⟨hp, _⟩ | ⟨⟨p, _, hp, _⟩, _⟩ := h <;> exact ⟨_, hp⟩

theorem steps_eq_error (h : FailsAt answer g scope e) (hp : g.plan = some p) :
    (do (← answer p.query (← p.parameters scope)).forM g.checkRow) = .error e := by
  simp only [bind_eq_error, Group.checkRows_eq_error]
  cases h with
  | binding hp' hvector =>
    cases hp.symm.trans hp'
    exact .inl hvector
  | execution hp' hvector hrows =>
    cases hp.symm.trans hp'
    exact .inr ⟨_, hvector, .inl hrows⟩
  | row hrows hbefore hmisfit =>
    obtain ⟨_, hvector, hrows⟩ := hrows.exists_vector hp
    exact .inr ⟨_, hvector, .inr ⟨_, hrows, _, _, _, rfl, hbefore, hmisfit, rfl⟩⟩

theorem unique (h : FailsAt answer g scope e) (h' : FailsAt answer g scope e') : e = e' := by
  obtain ⟨p, hp⟩ := h.exists_plan
  exact Except.error.inj ((h.steps_eq_error hp).symm.trans (h'.steps_eq_error hp))

theorem not_of_fits (hrows : g.Gets answer scope rows)
    (hfits : ∀ row ∈ rows, row.length = g.arity) : ¬ FailsAt answer g scope e := by
  rintro (⟨hp, hvector⟩ | ⟨hp, hvector, herror⟩ | ⟨hrows', _, hmisfit⟩)
  · obtain ⟨_, hvector', _⟩ := hrows.exists_vector hp
    cases hvector.symm.trans hvector'
  · cases herror.symm.trans (hrows.answer_eq hp hvector)
  · obtain rfl := hrows.unique hrows'
    exact hmisfit (hfits _ (by simp))

end FailsAt

namespace Faulty

theorem here (h : FailsAt answer g scope e) :
    Faulty c answer g scope (e.located g.name (c.pathTo g)) :=
  ⟨g, scope, e, .here, h, rfl⟩

theorem below (hrows : g.Gets answer scope rows) (hrow : row ∈ rows)
    (hfits : row.length = g.arity) (hchild : child ∈ c.children g.name)
    (h : Faulty c answer child (⟨g, row⟩ :: scope) err) : Faulty c answer g scope err := by
  obtain ⟨h, inner, e, hleads, hfails, rfl⟩ := h
  exact ⟨h, inner, e, .nested hrows hrow hfits hchild hleads, hfails, rfl⟩

theorem located_eq (h : Faulty c answer g scope err) (group : String) (path : List String) :
    err.located group path = err := by
  obtain ⟨h, inner, e, _, _, rfl⟩ := h
  exact Error.located_located group path

end Faulty

namespace LeadsTo

theorem around (h : LeadsTo c answer g scope h' inner) (hc : c.Coherent) (hg : g ∈ c.groups)
    (haround : c.Around g scope) : h' ∈ c.groups ∧ c.Around h' inner := by
  induction h with
  | here => exact ⟨hg, haround⟩
  | nested _ _ hfits hchild _ ih =>
    exact ih (hc.mem_children.mp hchild).1 (haround.push hc hg hchild hfits)

theorem eq_of_execution (h : LeadsTo c answer g scope h' inner) (hp : g.plan = some p)
    (hvector : p.parameters scope = .ok vector) (hfailed : answer p.query vector = .error e) :
    h' = g ∧ inner = scope := by
  cases h with
  | here => exact ⟨rfl, rfl⟩
  | nested hrows => cases hfailed.symm.trans (hrows.answer_eq hp hvector)

end LeadsTo

theorem EvaluatesNested.exists_of_mem (h : EvaluatesNested c answer scope groups collections)
    (hg : g ∈ groups) : ∃ nodes, Evaluates c answer scope g nodes := by
  induction groups generalizing collections with
  | nil => cases hg
  | cons first groups ih =>
    obtain ⟨nodes, rest, hnodes, hrest, rfl⟩ := evaluatesNested_cons.mp h
    rcases List.mem_cons.mp hg with rfl | hg
    · exact ⟨nodes, hnodes⟩
    · exact ih hrest hg

namespace Evaluates

theorem evaluatesRows (hnodes : Evaluates c answer scope g nodes) (hc : c.Coherent)
    (hg : g ∈ c.groups) (haround : c.Around g scope) (hrows : g.Gets answer scope rows) :
    EvaluatesRows c answer scope g rows nodes := by
  obtain ⟨p, vector, hp, hvector, hrows⟩ := hrows
  exact (p.evaluates_iff hc hg haround hp hvector hrows).mp hnodes

theorem exists_of_leadsTo (hnodes : Evaluates c answer scope g nodes) (hc : c.Coherent)
    (hg : g ∈ c.groups) (haround : c.Around g scope) (h : LeadsTo c answer g scope h' inner) :
    ∃ nodes', Evaluates c answer inner h' nodes' := by
  induction h generalizing nodes with
  | here => exact ⟨nodes, hnodes⟩
  | nested hrows hrow hfits hchild _ ih =>
    have hnodes := evaluatesRows_iff.mp (hnodes.evaluatesRows hc hg haround hrows)
    obtain ⟨_, _, collections, hnested, _⟩ := exists_of_forall₂ hnodes hrow
    rw [← hc.children_eq] at hnested
    obtain ⟨nodes', hnodes'⟩ := hnested.exists_of_mem hchild
    exact ih hnodes' (hc.mem_children.mp hchild).1 (haround.push hc hg hchild hfits)

theorem not_failsAt (hnodes : Evaluates c answer scope g nodes) (hc : c.Coherent)
    (hg : g ∈ c.groups) (haround : c.Around g scope) : ¬ FailsAt answer g scope e := by
  obtain ⟨p, hp⟩ := hnodes.exists_plan hc hg
  obtain ⟨vector, rows, hvector, hrows⟩ := hnodes.exists_rows hc hg haround hp
  have hgets : g.Gets answer scope rows := ⟨p, vector, hp, hvector, hrows⟩
  exact FailsAt.not_of_fits hgets (fits_of_evaluatesRows (hnodes.evaluatesRows hc hg haround hgets))

end Evaluates

end NestedViews
