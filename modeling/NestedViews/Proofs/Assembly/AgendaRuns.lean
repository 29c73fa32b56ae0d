import NestedViews.Proofs.Assembly.Agenda
import NestedViews.Proofs.Assembly.Statistics

namespace NestedViews

open Effect

variable {σ α : Type}

def Makes (p p' : Progress (Recorded σ)) (exchanges : List Exchange) : Prop :=
  p'.world.exchanges = p.world.exchanges ++ exchanges

/-- An executor gets parameter vectors to answer and does not answer all: a call fails, or no more
are made for another reason. -/
def Executor.LeavesOff (e : Executor σ) (query : String) (vectors : List (List Value))
    (exchanges : List Exchange) (err : Error) : Prop :=
  e.Fails query vectors exchanges err ∨ err.Unplaced ∧ ∀ x ∈ exchanges, x.Succeeded

def Done (a : Assembler σ) (strategy : Strategy) (visits : List Visit)
    (p p' : Progress (Recorded σ)) : Prop :=
  ∃ exchanges, Makes p p' exchanges ∧ Performs a.catalog a.executor strategy visits exchanges []

def Stopped (a : Assembler σ) (strategy : Strategy) (requested : Group) (visits : List Visit)
    (p : Progress (Recorded σ)) (err : Error) (p' : Progress (Recorded σ)) : Prop :=
  ∃ exchanges, Makes p p' exchanges ∧
    Stops a.catalog a.executor strategy requested visits exchanges err

variable {a : Assembler σ} {strategy : Strategy} {requested g : Group} {query : String}
variable {visits visits' : List Visit} {v : Visit} {err : Error} {vectors : List (List Value)}
variable {answers : List (List Row)} {exchanges exchanges' : List Exchange}
variable {p p' p'' : Progress (Recorded σ)} {scope : Scope} {scopes : List Scope}

theorem Makes.refl (p : Progress (Recorded σ)) : Makes p p [] :=
  (List.append_nil _).symm

theorem Makes.trans (h : Makes p p' exchanges) (h' : Makes p' p'' exchanges') :
    Makes p p'' (exchanges ++ exchanges') := by
  rw [Makes, h', h, List.append_assoc]

namespace Done

theorem nil (p : Progress (Recorded σ)) : Done a strategy [] p p :=
  ⟨[], .refl p, .stop⟩

theorem append (h : Done a strategy visits p p') (h' : Done a strategy visits' p' p'') :
    Done a strategy (visits ++ visits') p p'' := by
  obtain ⟨exchanges, hmakes, hperforms⟩ := h
  obtain ⟨exchanges', hmakes', hperforms'⟩ := h'
  exact ⟨_, hmakes.trans hmakes', hperforms.append_nil hperforms'⟩

theorem visit (hne : v.scopes ≠ []) (hasks : List.Forall₂ (v.group.Asks query) v.scopes vectors)
    (hsends : a.executor.Sends query vectors answers exchanges) (hmakes : Makes p p' exchanges)
    (h : Done a strategy (v.next a.catalog strategy answers) p' p'') :
    Done a strategy [v] p p'' := by
  obtain ⟨exchanges', hmakes', hperforms⟩ := h
  rw [← List.append_nil (v.next a.catalog strategy answers)] at hperforms
  exact ⟨_, hmakes.trans hmakes', .visit hne hasks hsends hperforms⟩

end Done

namespace Stopped

theorem append (h : Stopped a strategy requested visits p err p') (more : List Visit) :
    Stopped a strategy requested (visits ++ more) p err p' := by
  obtain ⟨exchanges, hmakes, hstops⟩ := h
  exact ⟨exchanges, hmakes, hstops.append more⟩

theorem of_done (hdone : Done a strategy visits p p')
    (h : Stopped a strategy requested visits' p' err p'') :
    Stopped a strategy requested (visits ++ visits') p err p'' := by
  obtain ⟨exchanges, hmakes, hperforms⟩ := hdone
  obtain ⟨exchanges', hmakes', hstops⟩ := h
  exact ⟨_, hmakes.trans hmakes', .of_performs (hperforms.append visits') hstops⟩

theorem visit (hne : v.scopes ≠ []) (hasks : List.Forall₂ (v.group.Asks query) v.scopes vectors)
    (hsends : a.executor.Sends query vectors answers exchanges) (hmakes : Makes p p' exchanges)
    (h : Stopped a strategy requested (v.next a.catalog strategy answers) p' err p'') :
    Stopped a strategy requested [v] p err p'' := by
  obtain ⟨exchanges', hmakes', hstops⟩ := h
  have hvisit : Performs a.catalog a.executor strategy [v] (exchanges ++ [])
      (v.next a.catalog strategy answers ++ []) := .visit hne hasks hsends .stop
  rw [List.append_nil, List.append_nil] at hvisit
  exact ⟨_, hmakes.trans hmakes', .of_performs hvisit hstops⟩

theorem of_leavesOff (hg : v.group ∈ a.catalog.subtree requested)
    (hasks : List.Forall₂ (v.group.Asks query) v.scopes vectors) (hmakes : Makes p p' exchanges)
    (h : a.executor.LeavesOff query vectors exchanges err) :
    Stopped a strategy requested [v] p (err.located v.group.name (a.catalog.pathTo v.group))
      p' := by
  refine ⟨exchanges, hmakes, ?_⟩
  rcases h with hfails | ⟨hunplaced, hsucceeded⟩
  · exact .fail hg ⟨[], exchanges, [], rfl, .stop, query, vectors, hasks, hfails⟩
  · exact .halt hsucceeded (halts_located hg hunplaced)

theorem of_unplaced (hg : g ∈ a.catalog.subtree requested) (h : err.Unplaced)
    (hmakes : Makes p p' []) :
    Stopped a strategy requested visits p (err.located g.name (a.catalog.pathTo g)) p' :=
  ⟨[], hmakes, .halt (fun _ hx => (List.not_mem_nil hx).elim) (halts_located hg h)⟩

theorem located (h : Stopped a strategy requested visits p err p') (group : String)
    (path : List String) : Stopped a strategy requested visits p (err.located group path) p' := by
  obtain ⟨exchanges, hmakes, hstops⟩ := h
  exact ⟨exchanges, hmakes, hstops.located_eq.symm ▸ hstops⟩

end Stopped

section Unplaced

theorem Group.unplaced_of_checkRow {row : Row} (h : g.checkRow row = .error err) :
    err.Unplaced := by
  obtain ⟨_, rfl⟩ := checkRow_eq_error.mp h
  exact fun _ _ _ => Error.noConfusion

theorem Group.unplaced_of_checkRows {rows : List Row} (h : rows.forM g.checkRow = .error err) :
    err.Unplaced := by
  obtain ⟨_, _, _, _, _, hrow⟩ := forM_eq_error.mp h
  exact unplaced_of_checkRow hrow

theorem Slot.unplaced_of_read {s : Slot} {row : Row} (h : s.read g row = .error err) :
    err.Unplaced := by
  unfold read at h
  by_cases hname : g.name = s.group
  · rw [if_neg (not_not.mpr hname)] at h
    cases hrow : g.checkRow row with
    | error e =>
      rw [hrow] at h
      cases h
      exact Group.unplaced_of_checkRow hrow
    | ok _ =>
      rw [hrow] at h
      cases hvalue : row[s.position]? with
      | none =>
        rw [hvalue] at h
        cases h
        exact fun _ _ _ => Error.noConfusion
      | some value =>
        rw [hvalue] at h
        obtain ⟨_, _, _, rfl⟩ := convert_eq_error h
        exact fun _ _ _ => Error.noConfusion
  · rw [if_pos hname] at h
    cases h
    exact fun _ _ _ => Error.noConfusion

theorem Slot.unplaced_of_resolve {s : Slot} (h : s.resolve scope = .error err) : err.Unplaced := by
  unfold resolve at h
  split at h
  · exact unplaced_of_read h
  · cases h
    exact fun _ _ _ => Error.noConfusion

theorem Plan.unplaced_of_parameters {plan : Plan} (h : plan.parameters scope = .error err) :
    err.Unplaced := by
  obtain ⟨s, _, hresolve⟩ := mapM_eq_error h
  exact Slot.unplaced_of_resolve hresolve

end Unplaced

theorem Catalog.Coherent.mem_subtree_of_mem_children {c : Catalog} {child : Group} (hc : c.Coherent)
    (hg : g ∈ c.subtree requested) (hchild : child ∈ c.children g.name) :
    child ∈ c.subtree requested := by
  rw [subtree, List.mem_filter, decide_eq_true_eq] at hg ⊢
  refine ⟨(hc.mem_children.mp hchild).1, ?_⟩
  rw [hc.lineage_of_mem_children hg.1 hchild]
  exact .tail _ hg.2

namespace Assembler

section Steps

theorem ends_prepare_unplaced (path : List String) :
    Ends (a.recorded.context.prepare g path) p (fun plan p' => g.plan = some plan ∧ p' = p)
      fun err p' => err.Unplaced ∧ p' = p := by
  rw [Context.ends_prepare_iff]
  refine ⟨fun _ => ⟨fun _ _ _ => Error.noConfusion, rfl⟩, fun _ => ⟨fun _ => ?_, fun _ => ?_⟩⟩
  · exact ⟨fun _ _ _ => Error.noConfusion, rfl⟩
  · cases g.plan with
    | none => exact ⟨fun _ _ _ => Error.noConfusion, rfl⟩
    | some plan => exact ⟨rfl, rfl⟩

theorem ends_liftM_unplaced (answer : Except Error α)
    (h : ∀ err, answer = .error err → err.Unplaced) :
    Ends (liftM answer : Run (Recorded σ) α) p (fun b p' => answer = .ok b ∧ p' = p)
      fun err p' => err.Unplaced ∧ p' = p := by
  rw [ends_liftM]
  cases answer with
  | ok b => exact ⟨rfl, rfl⟩
  | error err => exact ⟨h err rfl, rfl⟩

theorem ends_addRows_makes (count : Nat) :
    Ends (a.recorded.context.addRows count) p (fun _ p' => Makes p p' [])
      fun err p' => err.Unplaced ∧ Makes p p' [] := by
  rw [Context.ends_addRows]
  exact ⟨fun _ => ⟨fun _ _ _ => Error.noConfusion, .refl p⟩, fun _ => .refl p⟩

theorem ends_execute_makes (vector : List Value) :
    Ends (a.recorded.context.execute query vector) p
      (fun rows p' => Makes p p' [.single query vector rows])
      fun err p' => err.Unplaced ∧ Makes p p' [] ∨
        Makes p p' [⟨⟨query, [vector], false⟩, .error err⟩] := by
  rw [Context.ends_execute]
  refine ⟨fun _ => .inl ⟨fun _ _ _ => Error.noConfusion, .refl p⟩, fun _ => ?_⟩
  exact Recorded.ends_passOn.mpr (ends_of_forall (fun _ _ => rfl) fun _ _ => .inr rfl)

theorem ends_executeBatch_makes (vectors : List (List Value)) :
    Ends (a.recorded.context.executeBatch query vectors) p
      (fun answers p' => vectors.length = answers.length ∧
        Makes p p' [.batch query vectors answers])
      fun err p' => (err.Unplaced ∧ ∃ exchanges, Makes p p' exchanges ∧
          ∀ x ∈ exchanges, x.Succeeded) ∨
        Makes p p' [⟨⟨query, vectors, true⟩, .error err⟩] := by
  rw [Context.ends_executeBatch]
  constructor
  · exact fun _ => .inl ⟨fun _ _ _ => Error.noConfusion, [], .refl p, by simp⟩
  · intro _
    refine Recorded.ends_passOn.mpr (ends_of_forall (fun answers w => ?_) fun _ _ => .inr rfl)
    constructor
    · refine fun _ => .inl ⟨fun _ _ _ => Error.noConfusion, _, rfl, ?_⟩
      exact List.forall_mem_singleton.mpr ⟨answers, rfl⟩
    · exact fun hlength => ⟨hlength.symm, rfl⟩

theorem ends_mapM_execute_makes (vectors : List (List Value)) :
    Ends (vectors.mapM (a.recorded.context.execute query)) p
      (fun answers p' => vectors.length = answers.length ∧
        Makes p p' (List.zipWith (Exchange.single query) vectors answers))
      fun err p' => ∃ done vector rest answers, vectors = done ++ vector :: rest ∧
        done.length = answers.length ∧
          (err.Unplaced ∧ Makes p p' (List.zipWith (Exchange.single query) done answers) ∨
            Makes p p' (List.zipWith (Exchange.single query) done answers ++
              [⟨⟨query, [vector], false⟩, .error err⟩])) := by
  induction vectors generalizing p with
  | nil => exact ⟨rfl, .refl p⟩
  | cons vector vectors ih =>
    rw [List.mapM_cons, ends_bind]
    apply (ends_execute_makes vector).mono
    · intro rows p₁ hfirst
      rw [ends_bind]
      apply ih.mono
      · rintro answers p₂ ⟨hlength, hrest⟩
        exact ⟨congrArg (· + 1) hlength, hfirst.trans hrest⟩
      · rintro err p₂ ⟨done, failed, rest, answers, rfl, hlength, hrest⟩
        refine ⟨vector :: done, failed, rest, rows :: answers, rfl, congrArg (· + 1) hlength, ?_⟩
        exact hrest.imp (fun h => ⟨h.1, hfirst.trans h.2⟩) hfirst.trans
    · rintro err p₁ h
      exact ⟨[], vector, vectors, [], rfl, rfl, h⟩

theorem ends_executeAll_makes {vectors : List (List Value)} (hne : vectors ≠ []) :
    Ends (a.recorded.context.executeAll query vectors) p
      (fun answers p' => ∃ exchanges, a.executor.Sends query vectors answers exchanges ∧
        Makes p p' exchanges)
      fun err p' => ∃ exchanges, a.executor.LeavesOff query vectors exchanges err ∧
        Makes p p' exchanges := by
  rw [Context.executeAll, ends_bind, ends_get, ends_ite]
  have hanswers : a.recorded.context.executor.answersBatches p.world =
      a.executor.answersBatches p.world.world := rfl
  constructor
  · intro h
    have hsingly : vectors.length ≤ 1 ∨ ∃ w, a.executor.answersBatches w = false :=
      h.imp le_of_eq fun hbatches => ⟨p.world.world, by simpa [hanswers] using hbatches⟩
    apply (ends_mapM_execute_makes vectors).mono
    · rintro answers p' ⟨hlength, hmakes⟩
      exact ⟨_, .each hsingly hlength, hmakes⟩
    · rintro err p' ⟨done, vector, rest, answers, rfl, hlength, ⟨hunplaced, hmakes⟩ | hmakes⟩
      · refine ⟨_, .inr ⟨hunplaced, fun x hx => ?_⟩, hmakes⟩
        obtain ⟨_, _, rfl⟩ := Executor.Sends.mem_zipWith_single hx
        exact ⟨_, rfl⟩
      · exact ⟨_, .inl (.each hsingly hlength), hmakes⟩
  · intro h
    rw [not_or] at h
    obtain ⟨hmany, hbatches⟩ := h
    have hpos := List.length_pos_iff.mpr hne
    have hlt : 1 < vectors.length := by omega
    have hbatch : ∃ w, a.executor.answersBatches w = true :=
      ⟨p.world.world, by simpa [hanswers] using hbatches⟩
    apply (ends_executeBatch_makes vectors).mono
    · rintro answers p' ⟨hlength, hmakes⟩
      exact ⟨_, .batch hlt hbatch hlength, hmakes⟩
    · rintro err p' (⟨hunplaced, exchanges, hmakes, hsucceeded⟩ | hmakes)
      · exact ⟨exchanges, .inr ⟨hunplaced, hsucceeded⟩, hmakes⟩
      · exact ⟨_, .inl (.batch hlt hbatch), hmakes⟩

end Steps

section DepthFirst

variable {groups : List Group} {path : List String}

theorem ends_assembleNested_agenda
    (h : ∀ g ∈ groups, ∀ p : Progress (Recorded σ),
      Ends ((a.catalog.outline g).assembleAt a.recorded.context scope path) p
        (fun _ p' => Done a .depthFirst [⟨g, [scope]⟩] p p')
        fun err p' => Stopped a .depthFirst requested [⟨g, [scope]⟩] p err p') :
    Ends (Outline.assembleNested a.recorded.context (groups.map a.catalog.outline) scope path) p
      (fun _ p' => Done a .depthFirst (visitsTo groups [scope]) p p')
      fun err p' => Stopped a .depthFirst requested (visitsTo groups [scope]) p err p' := by
  induction groups generalizing p with
  | nil => exact .nil p
  | cons g groups ih =>
    rw [List.map_cons, Outline.assembleNested, ends_bind]
    apply (h g (.head _) p).mono
    · intro nodes p₁ hfirst
      rw [ends_bind]
      apply (ih fun g hg => h g (.tail _ hg)).mono
      · exact fun _ _ hrest => hfirst.append hrest
      · exact fun _ _ hrest => hrest.of_done hfirst
    · exact fun _ _ hfirst => hfirst.append _

theorem ends_rows_agenda {outlines : List Outline} {rows : List Row}
    (hg : g ∈ a.catalog.subtree requested)
    (h : ∀ row, ∀ p : Progress (Recorded σ),
      Ends (Outline.assembleNested a.recorded.context outlines (⟨g, row⟩ :: scope) path) p
        (fun _ p' => Done a .depthFirst (visitsTo groups [⟨g, row⟩ :: scope]) p p')
        fun err p' => Stopped a .depthFirst requested (visitsTo groups [⟨g, row⟩ :: scope]) p err
          p') :
    Ends
      (rows.mapM fun row => do
        liftM (g.checkRow row)
        let collections ←
          Outline.assembleNested a.recorded.context outlines (⟨g, row⟩ :: scope) path
        return Node.ofRow g row collections) p
      (fun _ p' => Done a .depthFirst (rows.flatMap fun row => visitsTo groups [⟨g, row⟩ :: scope])
        p p')
      fun err p' => Stopped a .depthFirst requested
        (rows.flatMap fun row => visitsTo groups [⟨g, row⟩ :: scope]) p
        (err.located g.name (a.catalog.pathTo g)) p' := by
  induction rows generalizing p with
  | nil => exact .nil p
  | cons row rows ih =>
    rw [List.mapM_cons, ends_bind, ends_bind]
    apply (ends_liftM_unplaced (g.checkRow row) fun _ => Group.unplaced_of_checkRow).mono
    · rintro _ _ ⟨_, rfl⟩
      rw [ends_bind]
      apply (h row _).mono
      · intro collections p₁ hfirst
        rw [ends_pure, ends_bind]
        apply ih.mono
        · exact fun _ _ hrest => hfirst.append hrest
        · exact fun _ _ hrest => hrest.of_done hfirst
      · exact fun _ _ hfirst => (hfirst.append _).located _ _
    · rintro err _ ⟨hunplaced, rfl⟩
      exact .of_unplaced hg hunplaced (.refl _)

theorem next_depthFirst (rows : List Row) :
    Visit.next a.catalog .depthFirst ⟨g, [scope]⟩ [rows] =
      rows.flatMap fun row => visitsTo (a.catalog.children g.name) [⟨g, row⟩ :: scope] := by
  simp only [Visit.next, rowScopes, List.append_nil, List.flatMap_map]

theorem ends_assembleAt_agenda (hc : a.catalog.Coherent) (hg : g ∈ a.catalog.subtree requested) :
    Ends ((a.catalog.outline g).assembleAt a.recorded.context scope (a.catalog.pathTo g)) p
      (fun _ p' => Done a .depthFirst [⟨g, [scope]⟩] p p')
      fun err p' => Stopped a .depthFirst requested [⟨g, [scope]⟩] p err p' := by
  have hmem : g ∈ a.catalog.groups := (List.mem_filter.mp hg).1
  revert scope p hg
  apply hc.induction _ hmem
  intro g hmem ih p scope hg
  rw [hc.outline_eq hmem, Outline.assembleAt, Run.ends_located, ends_bind]
  apply (ends_prepare_unplaced (a.catalog.pathTo g)).mono
  · rintro plan _ ⟨hplan, rfl⟩
    rw [ends_bind]
    apply (ends_liftM_unplaced (plan.parameters scope) fun _ => Plan.unplaced_of_parameters).mono
    · rintro vector _ ⟨hvector, rfl⟩
      have hasks : List.Forall₂ (g.Asks plan.query) [scope] [vector] :=
        .cons ⟨plan, hplan, rfl, hvector⟩ .nil
      rw [ends_bind]
      apply (ends_execute_makes vector).mono
      · intro rows p₁ hcall
        have hsends : a.executor.Sends plan.query [vector] [rows]
            [.single plan.query vector rows] := .each (.inl (Nat.le_refl 1)) rfl
        rw [ends_bind]
        apply (ends_addRows_makes rows.length).mono
        · intro _ p₂ hcount
          apply (ends_rows_agenda hg fun row q => ?_).mono
          · intro nodes p₃ hrows
            rw [← next_depthFirst] at hrows
            exact .visit (List.cons_ne_nil _ _) hasks hsends (hcall.trans hcount) hrows
          · intro err p₃ hrows
            rw [← next_depthFirst] at hrows
            exact .visit (List.cons_ne_nil _ _) hasks hsends (hcall.trans hcount) hrows
          · apply ends_assembleNested_agenda
            intro child hchild q
            rw [← hc.pathTo_of_mem_children hmem hchild]
            exact ih child hchild (hc.mem_subtree_of_mem_children hg hchild)
        · -- The rows are too many: the call was answered, but the visit leads to no other.
          rintro err p₂ ⟨hunplaced, hcount⟩
          apply Stopped.of_leavesOff hg hasks (hcall.trans hcount)
          exact .inr ⟨hunplaced, List.forall_mem_singleton.mpr ⟨[rows], rfl⟩⟩
      · rintro err p₁ (⟨hunplaced, hmakes⟩ | hmakes)
        · exact .of_unplaced hg hunplaced hmakes
        · exact .of_leavesOff hg hasks hmakes (.inl (.single _ _ _ _))
    · rintro err _ ⟨hunplaced, rfl⟩
      exact .of_unplaced hg hunplaced (.refl _)
  · rintro err _ ⟨hunplaced, rfl⟩
    exact .of_unplaced hg hunplaced (.refl _)

end DepthFirst

section Batched

variable {groups : List Group} {path : List String}

theorem ends_assembleColumns_agenda
    (h : ∀ g ∈ groups, ∀ p : Progress (Recorded σ),
      Ends ((a.catalog.outline g).assembleAll a.recorded.context scopes path) p
        (fun _ p' => Done a .batched [⟨g, scopes⟩] p p')
        fun err p' => Stopped a .batched requested [⟨g, scopes⟩] p err p') :
    Ends (Outline.assembleColumns a.recorded.context (groups.map a.catalog.outline) scopes path) p
      (fun _ p' => Done a .batched (visitsTo groups scopes) p p')
      fun err p' => Stopped a .batched requested (visitsTo groups scopes) p err p' := by
  induction groups generalizing p with
  | nil => exact .nil p
  | cons g groups ih =>
    rw [List.map_cons, Outline.assembleColumns, ends_bind]
    apply (h g (.head _) p).mono
    · intro column p₁ hfirst
      rw [ends_bind]
      apply (ih fun g hg => h g (.tail _ hg)).mono
      · exact fun _ _ hrest => hfirst.append hrest
      · exact fun _ _ hrest => hrest.of_done hfirst
    · exact fun _ _ hfirst => hfirst.append _

theorem ends_countAnswers_makes (answers : List (List Row)) :
    Ends
      (answers.forM fun rows => do
        a.recorded.context.addRows rows.length
        rows.forM fun row => liftM (g.checkRow row)) p
      (fun _ p' => Makes p p' []) fun err p' => err.Unplaced ∧ Makes p p' [] := by
  have hrows : ∀ rows ∈ answers, ∀ q : Progress (Recorded σ), Makes p q [] →
      Ends
        (do
          a.recorded.context.addRows rows.length
          rows.forM fun row => liftM (g.checkRow row) : Run (Recorded σ) Unit) q
        (fun _ q' => True ∧ Makes p q' []) fun err q' => err.Unplaced ∧ Makes p q' [] := by
    intro rows _ q hq
    rw [ends_bind]
    apply (ends_addRows_makes rows.length).mono
    · intro _ q' hq'
      rw [forM_liftM]
      apply (ends_liftM_unplaced (rows.forM g.checkRow) fun _ => Group.unplaced_of_checkRows).mono
      · rintro _ _ ⟨_, rfl⟩
        exact ⟨trivial, hq.trans hq'⟩
      · rintro _ _ ⟨hunplaced, rfl⟩
        exact ⟨hunplaced, hq.trans hq'⟩
    · rintro err q' ⟨hunplaced, hq'⟩
      exact ⟨hunplaced, hq.trans hq'⟩
  exact (ends_forM hrows (.refl p)).imp fun _ _ h => h.2

theorem ends_assembleAll_agenda (hc : a.catalog.Coherent) (hg : g ∈ a.catalog.subtree requested) :
    Ends ((a.catalog.outline g).assembleAll a.recorded.context scopes (a.catalog.pathTo g)) p
      (fun _ p' => Done a .batched [⟨g, scopes⟩] p p')
      fun err p' => Stopped a .batched requested [⟨g, scopes⟩] p err p' := by
  have hmem : g ∈ a.catalog.groups := (List.mem_filter.mp hg).1
  revert scopes p hg
  apply hc.induction _ hmem
  intro g hmem ih p scopes hg
  rw [hc.outline_eq hmem, Outline.assembleAll, Run.ends_located, ends_bind]
  apply (ends_prepare_unplaced (a.catalog.pathTo g)).mono
  · rintro plan _ ⟨hplan, rfl⟩
    rw [ends_ite]
    refine ⟨fun hempty => ?_, fun hnonempty => ?_⟩
    · obtain rfl := List.isEmpty_iff.mp hempty
      exact ⟨[], .refl _, .skip .stop⟩
    · have hne : scopes ≠ [] := fun h => hnonempty (List.isEmpty_iff.mpr h)
      rw [ends_bind]
      apply (ends_liftM_unplaced (scopes.mapM plan.parameters) fun err herr => ?_).mono
      · rintro vectors _ ⟨hvectors, rfl⟩
        have hasks : List.Forall₂ (g.Asks plan.query) scopes vectors :=
          (mapM_eq_ok.mp hvectors).imp fun _ _ h => ⟨plan, hplan, rfl, h⟩
        rw [ends_bind]
        apply (ends_executeAll_makes (asks_ne_nil hne hasks)).mono
        · rintro answers p₁ ⟨exchanges, hsends, hcalls⟩
          rw [ends_bind]
          apply (ends_countAnswers_makes answers).mono
          · intro _ p₂ hcount
            rw [ends_bind]
            have hmakes := hcalls.trans hcount
            rw [List.append_nil] at hmakes
            apply (ends_assembleColumns_agenda fun child hchild q => ?_).mono
            · exact fun _ _ hnested => .visit hne hasks hsends hmakes hnested
            · exact fun _ _ hnested => (Stopped.visit hne hasks hsends hmakes hnested).located _ _
            · rw [← hc.pathTo_of_mem_children hmem hchild]
              exact ih child hchild (hc.mem_subtree_of_mem_children hg hchild)
          · -- As above, or a row does not fit its group.
            rintro err p₂ ⟨hunplaced, hcount⟩
            have hmakes := hcalls.trans hcount
            rw [List.append_nil] at hmakes
            apply Stopped.of_leavesOff hg hasks hmakes
            exact .inr ⟨hunplaced, fun x hx => (hsends.complete x hx).succeeded⟩
        · rintro err p₁ ⟨exchanges, hleaves, hmakes⟩
          exact .of_leavesOff hg hasks hmakes hleaves
      · rintro err _ ⟨hunplaced, rfl⟩
        exact .of_unplaced hg hunplaced (.refl _)
      · obtain ⟨_, _, hparameters⟩ := mapM_eq_error herr
        exact Plan.unplaced_of_parameters hparameters
  · rintro err _ ⟨hunplaced, rfl⟩
    exact .of_unplaced hg hunplaced (.refl _)

end Batched

end Assembler

end NestedViews
