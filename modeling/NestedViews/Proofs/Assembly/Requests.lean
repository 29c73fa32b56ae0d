import NestedViews.Proofs.Assembly.AgendaRuns
import NestedViews.Proofs.Query.Parameters

namespace NestedViews

open Effect

variable {σ α : Type}

def AnsweredFor (exchanges : List Exchange) (query : String) (vector : List Value)
    (rows : List Row) : Prop :=
  ∃ x ∈ exchanges, x.call.query = query ∧ (vector, rows) ∈ x.call.vectors.zip x.answers

/-- The places of groups that exchanges lead to, from the place of the requested group on. Each row
that a group has got at a place is a place for the groups nested under it. -/
inductive Reaches (c : Catalog) (requested : Group) (outer : Scope) (exchanges : List Exchange) :
    Group → Scope → Prop
  | start : Reaches c requested outer exchanges requested outer
  | nested {g scope query vector rows row child} : Reaches c requested outer exchanges g scope →
      g.Asks query scope vector → AnsweredFor exchanges query vector rows → row ∈ rows →
      row.length = g.arity → child ∈ c.children g.name →
      Reaches c requested outer exchanges child (⟨g, row⟩ :: scope)

/-- A call that exchanges call for: it sends the query of a group, and each of its parameter vectors
fits the query at a place of the group that the exchanges lead to. -/
def Call.Due (c : Catalog) (requested : Group) (outer : Scope) (exchanges : List Exchange)
    (call : Call) : Prop :=
  ∃ g ∈ c.groups, ∃ t, g.definition.template = some t ∧ call.query = t.query ∧
    ∀ vector ∈ call.vectors, ∃ scope, Reaches c requested outer exchanges g scope ∧
      t.Fits scope vector

inductive Issued (c : Catalog) (requested : Group) (outer : Scope) : List Exchange → Prop
  | nil : Issued c requested outer []
  | snoc {exchanges x} : Issued c requested outer exchanges →
      x.call.Due c requested outer exchanges → Issued c requested outer (exchanges ++ [x])

/-- What the exchanges of an assembly are: none if it is refused, else such as were due from the
place on that it entered. -/
inductive Accounted (c : Catalog) (enters : Group → Scope → Prop) : List Exchange → Prop
  | refused : Accounted c enters []
  | entered {g scope exchanges} : enters g scope → Issued c g scope exchanges →
      Accounted c enters exchanges

def AccountsFor (c : Catalog) (world : σ) (enters : Group → Scope → Prop)
    (recorded : Effect (Recorded σ) α) (plain : Effect σ α) : Prop :=
  ∃ result r, recorded ⟨world, []⟩ = (result, r) ∧ plain world = (result, r.world) ∧
    Accounted c enters r.exchanges

variable {c : Catalog} {requested g : Group} {outer scope : Scope} {query : String}
variable {exchanges exchanges' : List Exchange} {vector : List Value} {rows : List Row}

theorem AnsweredFor.mono (h : AnsweredFor exchanges query vector rows)
    (hle : exchanges <+: exchanges') : AnsweredFor exchanges' query vector rows := by
  obtain ⟨x, hx, h⟩ := h
  exact ⟨x, hle.subset hx, h⟩

namespace Reaches

theorem mono (h : Reaches c requested outer exchanges g scope)
    (hle : exchanges <+: exchanges') : Reaches c requested outer exchanges' g scope := by
  induction h with
  | start => exact .start
  | nested _ hasks hanswered hrow hfits hchild ih =>
    exact .nested ih hasks (hanswered.mono hle) hrow hfits hchild

theorem mem_groups (h : Reaches c requested outer exchanges g scope)
    (hrequested : requested ∈ c.groups) (hc : c.Coherent) : g ∈ c.groups := by
  induction h with
  | start => exact hrequested
  | nested _ _ _ _ _ hchild => exact (hc.mem_children.mp hchild).1

theorem around (h : Reaches c requested outer exchanges g scope)
    (hrequested : requested ∈ c.groups) (houter : c.Around requested outer) (hc : c.Coherent) :
    c.Around g scope := by
  induction h with
  | start => exact houter
  | nested h _ _ _ hfits hchild ih => exact ih.push hc (h.mem_groups hrequested hc) hchild hfits

end Reaches

theorem AnsweredFor.of_append {x : Exchange} {answers : List (List Row)}
    (hquery : x.call.query = query) (hanswer : x.answer = .ok answers)
    (hmem : (vector, rows) ∈ x.call.vectors.zip answers) (exchanges : List Exchange) :
    AnsweredFor (exchanges ++ [x]) query vector rows := by
  refine ⟨x, by simp, hquery, ?_⟩
  rwa [Exchange.answers, hanswer]

theorem Call.Due.mono {call : Call} (h : call.Due c requested outer exchanges)
    (hle : exchanges <+: exchanges') : call.Due c requested outer exchanges' := by
  obtain ⟨g, hg, t, ht, hquery, hvectors⟩ := h
  refine ⟨g, hg, t, ht, hquery, fun vector hvector => ?_⟩
  obtain ⟨scope, hreaches, hfits⟩ := hvectors vector hvector
  exact ⟨scope, hreaches.mono hle, hfits⟩

theorem Call.Due.of_subset {call call' : Call} (h : call.Due c requested outer exchanges)
    (hquery : call'.query = call.query) (hvectors : call'.vectors ⊆ call.vectors) :
    call'.Due c requested outer exchanges := by
  obtain ⟨g, hg, t, ht, htext, hfits⟩ := h
  exact ⟨g, hg, t, ht, hquery.trans htext, fun vector hvector => hfits vector (hvectors hvector)⟩

theorem Call.due_of_asks {call : Call} {plan : Plan} (hc : c.Coherent)
    (hrequested : requested ∈ c.groups) (houter : c.Around requested outer) (hg : g ∈ c.groups)
    (hplan : g.plan = some plan) (hquery : call.query = plan.query)
    (h : ∀ vector ∈ call.vectors, ∃ scope, Reaches c requested outer exchanges g scope ∧
      plan.parameters scope = .ok vector) : call.Due c requested outer exchanges := by
  obtain ⟨t, ht, htext, hfits⟩ := Plan.exists_fits hc hg hplan
  refine ⟨g, hg, t, ht, hquery.trans htext, fun vector hvector => ?_⟩
  obtain ⟨scope, hreaches, hparameters⟩ := h vector hvector
  exact ⟨scope, hreaches, hfits scope vector (hreaches.around hrequested houter hc) hparameters⟩

structure Advances (c : Catalog) (requested : Group) (outer : Scope)
    (p p' : Progress (Recorded σ)) : Prop where
  le : p.world.exchanges <+: p'.world.exchanges
  issued : Issued c requested outer p'.world.exchanges

namespace Advances

variable {p p' p'' : Progress (Recorded σ)}

theorem refl (h : Issued c requested outer p.world.exchanges) :
    Advances c requested outer p p :=
  ⟨List.prefix_refl _, h⟩

theorem trans (h : Advances c requested outer p p') (h' : Advances c requested outer p' p'') :
    Advances c requested outer p p'' :=
  ⟨h.le.trans h'.le, h'.issued⟩

theorem of_makes (h : Issued c requested outer p.world.exchanges) (hmakes : Makes p p' []) :
    Advances c requested outer p p' := by
  have heq : p'.world.exchanges = p.world.exchanges :=
    Eq.trans hmakes (List.append_nil _)
  exact ⟨heq ▸ List.prefix_refl _, heq ▸ h⟩

end Advances

def Issues (c : Catalog) (requested : Group) (outer : Scope) (x : Run (Recorded σ) α)
    (p : Progress (Recorded σ)) : Prop :=
  Ends x p (fun _ p' => Advances c requested outer p p')
    fun _ p' => Issued c requested outer p'.world.exchanges

namespace Issues

variable {β : Type} {p : Progress (Recorded σ)} {x : Run (Recorded σ) α}
variable {f : α → Run (Recorded σ) β}

theorem pure (hp : Issued c requested outer p.world.exchanges) (b : α) :
    Issues c requested outer (pure b) p :=
  .refl hp

theorem bind
    (h : Ends x p (fun b p' => Advances c requested outer p p' ∧ Issues c requested outer (f b) p')
      fun _ p' => Issued c requested outer p'.world.exchanges) :
    Issues c requested outer (x >>= f) p := by
  rw [Issues, ends_bind]
  apply h.imp
  rintro b p' ⟨hfirst, hrest⟩
  exact hrest.imp fun _ _ => hfirst.trans

theorem liftM_bind {answer : Except Error α} (hp : Issued c requested outer p.world.exchanges)
    (h : ∀ b, answer = .ok b → Issues c requested outer (f b) p) :
    Issues c requested outer (liftM answer >>= f) p := by
  cases answer with
  | ok b => exact h b rfl
  | error err => exact hp

theorem located (h : Issues c requested outer x p) (group : Group) (path : List String) :
    Issues c requested outer (Run.located group path x) p := by
  rw [Issues, Run.ends_located]
  exact h

theorem mapM {as : List α} (hp : Issued c requested outer p.world.exchanges)
    (h : ∀ b ∈ as, ∀ p', Advances c requested outer p p' → Issues c requested outer (f b) p') :
    Issues c requested outer (as.mapM f) p := by
  have hsteps : ∀ b ∈ as, ∀ p', Advances c requested outer p p' →
      Ends (f b) p' (fun _ p'' => True ∧ Advances c requested outer p p'')
        fun _ p'' => Issued c requested outer p''.world.exchanges :=
    fun b hb p' hp' => (h b hb p' hp').imp fun _ _ hrest => ⟨trivial, hp'.trans hrest⟩
  exact (ends_mapM hsteps (.refl hp)).imp fun _ _ h => h.2

end Issues

namespace Assembler

variable {a : Assembler σ} {p : Progress (Recorded σ)} {vectors : List (List Value)}
variable {scopes : List Scope} {path : List String} {groups : List Group}

section Steps

theorem ends_execute_issued (hp : Issued a.catalog requested outer p.world.exchanges)
    (hdue : Call.Due a.catalog requested outer p.world.exchanges ⟨query, [vector], false⟩) :
    Ends (a.recorded.context.execute query vector) p
      (fun rows p' => Advances a.catalog requested outer p p' ∧
        AnsweredFor p'.world.exchanges query vector rows)
      fun _ p' => Issued a.catalog requested outer p'.world.exchanges := by
  rw [Context.ends_execute]
  refine ⟨fun _ => hp, fun _ => Recorded.ends_passOn.mpr (ends_of_forall ?_ ?_)⟩
  · exact fun rows w => ⟨⟨List.prefix_append _ _, hp.snoc hdue⟩, .of_append rfl rfl (.head _) _⟩
  · exact fun _ _ => hp.snoc hdue

theorem ends_executeBatch_issued (hp : Issued a.catalog requested outer p.world.exchanges)
    (hdue : Call.Due a.catalog requested outer p.world.exchanges ⟨query, vectors, true⟩) :
    Ends (a.recorded.context.executeBatch query vectors) p
      (fun answers p' => Advances a.catalog requested outer p p' ∧
        List.Forall₂ (AnsweredFor p'.world.exchanges query) vectors answers)
      fun _ p' => Issued a.catalog requested outer p'.world.exchanges := by
  rw [Context.ends_executeBatch]
  refine ⟨fun _ => hp, fun _ => Recorded.ends_passOn.mpr (ends_of_forall ?_ ?_)⟩
  · refine fun answers w => ⟨fun _ => hp.snoc hdue, fun hlength => ⟨?_, ?_⟩⟩
    · exact ⟨List.prefix_append _ _, hp.snoc hdue⟩
    · rw [List.forall₂_iff_zip]
      exact ⟨hlength.symm, fun hmem => .of_append rfl rfl hmem _⟩
  · exact fun _ _ => hp.snoc hdue

theorem ends_mapM_execute_issued (hp : Issued a.catalog requested outer p.world.exchanges)
    (hdue : ∀ vector ∈ vectors,
      Call.Due a.catalog requested outer p.world.exchanges ⟨query, [vector], false⟩) :
    Ends (vectors.mapM (a.recorded.context.execute query)) p
      (fun answers p' => Advances a.catalog requested outer p p' ∧
        List.Forall₂ (AnsweredFor p'.world.exchanges query) vectors answers)
      fun _ p' => Issued a.catalog requested outer p'.world.exchanges := by
  induction vectors generalizing p with
  | nil => exact ⟨.refl hp, .nil⟩
  | cons vector vectors ih =>
    rw [List.mapM_cons, ends_bind]
    apply (ends_execute_issued hp (hdue vector (.head _))).imp
    rintro rows p₁ ⟨hfirst, hanswered⟩
    rw [ends_bind]
    apply (ih hfirst.issued fun vector hvector => (hdue vector (.tail _ hvector)).mono hfirst.le).imp
    rintro answers p₂ ⟨hrest, hothers⟩
    exact ⟨hfirst.trans hrest, .cons (hanswered.mono hrest.le) hothers⟩

theorem ends_executeAll_issued (hp : Issued a.catalog requested outer p.world.exchanges)
    (hdue : Call.Due a.catalog requested outer p.world.exchanges ⟨query, vectors, true⟩) :
    Ends (a.recorded.context.executeAll query vectors) p
      (fun answers p' => Advances a.catalog requested outer p p' ∧
        List.Forall₂ (AnsweredFor p'.world.exchanges query) vectors answers)
      fun _ p' => Issued a.catalog requested outer p'.world.exchanges := by
  rw [Context.executeAll, ends_bind, ends_get, ends_ite]
  refine ⟨fun _ => ends_mapM_execute_issued hp fun vector hvector => ?_, fun _ => ?_⟩
  · exact hdue.of_subset rfl (by simpa using hvector)
  · exact ends_executeBatch_issued hp hdue

theorem issues_prepare_bind {f : Plan → Run (Recorded σ) α}
    (hp : Issued a.catalog requested outer p.world.exchanges)
    (h : ∀ plan, g.plan = some plan → Issues a.catalog requested outer (f plan) p) :
    Issues a.catalog requested outer (a.recorded.context.prepare g path >>= f) p := by
  apply Issues.bind
  apply (ends_prepare_unplaced path).mono
  · rintro plan _ ⟨hplan, rfl⟩
    exact ⟨.refl hp, h plan hplan⟩
  · rintro _ _ ⟨_, rfl⟩
    exact hp

theorem issues_addRows_bind {f : Unit → Run (Recorded σ) α} {count : Nat}
    (hp : Issued a.catalog requested outer p.world.exchanges)
    (h : ∀ p', Advances a.catalog requested outer p p' →
      Issues a.catalog requested outer (f ()) p') :
    Issues a.catalog requested outer (a.recorded.context.addRows count >>= f) p := by
  apply Issues.bind
  apply (ends_addRows_makes count).mono
  · intro _ p' hmakes
    have hsame := Advances.of_makes hp hmakes
    exact ⟨hsame, h p' hsame⟩
  · exact fun _ _ h => (Advances.of_makes hp h.2).issued

end Steps

section DepthFirst

theorem issues_assembleNested
    (h : ∀ g ∈ groups, ∀ p : Progress (Recorded σ),
      Reaches a.catalog requested outer p.world.exchanges g scope →
        Issued a.catalog requested outer p.world.exchanges →
          Issues a.catalog requested outer
            ((a.catalog.outline g).assembleAt a.recorded.context scope path) p)
    (hreaches : ∀ g ∈ groups, Reaches a.catalog requested outer p.world.exchanges g scope)
    (hp : Issued a.catalog requested outer p.world.exchanges) :
    Issues a.catalog requested outer
      (Outline.assembleNested a.recorded.context (groups.map a.catalog.outline) scope path) p := by
  induction groups generalizing p with
  | nil => exact .pure hp _
  | cons g groups ih =>
    rw [List.map_cons, Outline.assembleNested]
    apply Issues.bind
    apply (h g (.head _) p (hreaches g (.head _)) hp).imp
    intro nodes p₁ hfirst
    refine ⟨hfirst, ?_⟩
    apply Issues.bind
    apply (ih (fun g hg => h g (.tail _ hg)) (fun g hg => (hreaches g (.tail _ hg)).mono hfirst.le)
      hfirst.issued).imp
    exact fun _ _ hrest => ⟨hrest, .pure hrest.issued _⟩

theorem issues_assembleAt (hc : a.catalog.Coherent) (hrequested : requested ∈ a.catalog.groups)
    (houter : a.catalog.Around requested outer)
    (hreaches : Reaches a.catalog requested outer p.world.exchanges g scope)
    (hp : Issued a.catalog requested outer p.world.exchanges) :
    Issues a.catalog requested outer
      ((a.catalog.outline g).assembleAt a.recorded.context scope path) p := by
  have hmem : g ∈ a.catalog.groups := hreaches.mem_groups hrequested hc
  revert scope path p
  apply hc.induction _ hmem
  intro g hmem ih scope p path hreaches hp
  rw [hc.outline_eq hmem, Outline.assembleAt]
  apply Issues.located
  apply issues_prepare_bind hp
  intro plan hplan
  apply Issues.liftM_bind hp
  intro vector hvector
  apply Issues.bind
  have hdue : Call.Due a.catalog requested outer p.world.exchanges
      ⟨plan.query, [vector], false⟩ := by
    apply Call.due_of_asks hc hrequested houter hmem hplan rfl
    exact List.forall_mem_singleton.mpr ⟨scope, hreaches, hvector⟩
  apply (ends_execute_issued hp hdue).imp
  rintro rows p₁ ⟨hcall, hanswered⟩
  refine ⟨hcall, ?_⟩
  apply issues_addRows_bind hcall.issued
  intro p₂ hcount
  apply Issues.mapM hcount.issued
  intro row hrow p₃ hbefore
  apply Issues.liftM_bind hbefore.issued
  intro _ hfits
  have hle := hcount.le.trans hbefore.le
  apply Issues.bind
  apply (issues_assembleNested (fun child hchild _ => ih child hchild) (fun child hchild => ?_)
    hbefore.issued).imp
  · exact fun _ _ hnested => ⟨hnested, .pure hnested.issued _⟩
  · exact .nested (hreaches.mono (hcall.le.trans hle)) ⟨plan, hplan, rfl, hvector⟩
      (hanswered.mono hle) hrow (Group.checkRow_eq_ok.mp hfits) hchild

end DepthFirst

section Batched

variable {answers : List (List Row)}

theorem issues_assembleColumns
    (h : ∀ g ∈ groups, ∀ p : Progress (Recorded σ),
      (∀ scope ∈ scopes, Reaches a.catalog requested outer p.world.exchanges g scope) →
        Issued a.catalog requested outer p.world.exchanges →
          Issues a.catalog requested outer
            ((a.catalog.outline g).assembleAll a.recorded.context scopes path) p)
    (hreaches : ∀ g ∈ groups, ∀ scope ∈ scopes,
      Reaches a.catalog requested outer p.world.exchanges g scope)
    (hp : Issued a.catalog requested outer p.world.exchanges) :
    Issues a.catalog requested outer
      (Outline.assembleColumns a.recorded.context (groups.map a.catalog.outline) scopes path) p := by
  induction groups generalizing p with
  | nil => exact .pure hp _
  | cons g groups ih =>
    rw [List.map_cons, Outline.assembleColumns]
    apply Issues.bind
    apply (h g (.head _) p (hreaches g (.head _)) hp).imp
    intro column p₁ hfirst
    refine ⟨hfirst, ?_⟩
    apply Issues.bind
    apply (ih (fun g hg => h g (.tail _ hg))
      (fun g hg scope hscope => (hreaches g (.tail _ hg) scope hscope).mono hfirst.le)
      hfirst.issued).imp
    exact fun _ _ hrest => ⟨hrest, .pure hrest.issued _⟩

theorem reaches_rowScopes {plan : Plan} {child : Group} (hplan : g.plan = some plan)
    (hreaches : ∀ scope ∈ scopes, Reaches c requested outer exchanges g scope)
    (hvectors : List.Forall₂ (fun scope vector => plan.parameters scope = .ok vector) scopes
      vectors)
    (hanswered : List.Forall₂ (AnsweredFor exchanges plan.query) vectors answers)
    (hfits : ∀ rows ∈ answers, ∀ row ∈ rows, row.length = g.arity)
    (hchild : child ∈ c.children g.name) :
    ∀ scope ∈ rowScopes g scopes answers, Reaches c requested outer exchanges child scope := by
  intro s hs
  have hplaces : List.Forall₂ (fun scope rows => ∃ vector, plan.parameters scope = .ok vector ∧
      AnsweredFor exchanges plan.query vector rows) scopes answers :=
    forall₂_trans hvectors hanswered fun _ _ vector _ hvector hrows => ⟨vector, hvector, hrows⟩
  obtain ⟨scope, rows, hzip, row, hrow, rfl⟩ := mem_zip_of_mem_rowScopes hs
  obtain ⟨vector, hvector, hrows⟩ := List.forall₂_zip hplaces hzip
  obtain ⟨hscope, hmem⟩ := List.of_mem_zip hzip
  exact .nested (hreaches scope hscope) ⟨plan, hplan, rfl, hvector⟩ hrows hrow
    (hfits rows hmem row hrow) hchild

theorem issues_assembleAll (hc : a.catalog.Coherent) (hrequested : requested ∈ a.catalog.groups)
    (houter : a.catalog.Around requested outer) (hmem : g ∈ a.catalog.groups)
    (hreaches : ∀ scope ∈ scopes,
      Reaches a.catalog requested outer p.world.exchanges g scope)
    (hp : Issued a.catalog requested outer p.world.exchanges) :
    Issues a.catalog requested outer
      ((a.catalog.outline g).assembleAll a.recorded.context scopes path) p := by
  revert scopes path p
  apply hc.induction _ hmem
  intro g hmem ih p scopes path hreaches hp
  rw [hc.outline_eq hmem, Outline.assembleAll]
  apply Issues.located
  apply issues_prepare_bind hp
  intro plan hplan
  split
  · exact .pure hp _
  · apply Issues.liftM_bind hp
    intro vectors hvectors
    rw [mapM_eq_ok] at hvectors
    have hdue : Call.Due a.catalog requested outer p.world.exchanges
        ⟨plan.query, vectors, true⟩ := by
      apply Call.due_of_asks hc hrequested houter hmem hplan rfl
      intro vector hvector
      obtain ⟨scope, hscope, hparameters⟩ := exists_mem_of_forall₂ hvectors hvector
      exact ⟨scope, hreaches scope hscope, hparameters⟩
    apply Issues.bind
    apply (ends_executeAll_issued hp hdue).imp
    rintro answers p₁ ⟨hcall, hanswered⟩
    refine ⟨hcall, ?_⟩
    apply Issues.bind
    apply ((ends_countAnswers_adds answers).and (ends_countAnswers_makes answers)).mono
    · rintro _ p₂ ⟨⟨hfits, _⟩, hmakes⟩
      have hcount := Advances.of_makes hcall.issued hmakes
      refine ⟨hcount, ?_⟩
      apply Issues.bind
      apply (issues_assembleColumns (fun child hchild _ => ih child hchild)
        (fun child hchild => ?_) hcount.issued).imp
      · exact fun _ _ hnested => ⟨hnested, .pure hnested.issued _⟩
      · apply reaches_rowScopes hplan _ hvectors _ hfits hchild
        · exact fun scope hscope => (hreaches scope hscope).mono (hcall.le.trans hcount.le)
        · exact hanswered.imp fun _ _ h => h.mono hcount.le
    · rintro _ p₂ ⟨_, _, hmakes⟩
      exact (Advances.of_makes hcall.issued hmakes).issued

end Batched

section Entry

variable {world : σ} {name : String}

theorem ends_assembleIn_issued (hc : a.catalog.Coherent) (hg : g ∈ a.catalog.groups)
    (haround : a.catalog.Around g scope) :
    Ends (a.recorded.assembleIn g scope) ⟨world, []⟩
      (fun _ r => Issued a.catalog g scope r.exchanges)
      fun _ r => Issued a.catalog g scope r.exchanges := by
  apply ends_assembleIn_strategies
  · intro _
    exact (issues_assembleAt hc hg haround .start .nil).imp fun _ _ h => h.issued
  · intro _
    have hstart : ∀ scope' ∈ [scope], Reaches a.catalog g scope [] g scope' :=
      List.forall_mem_singleton.mpr .start
    exact (issues_assembleAll hc hg haround hg hstart .nil).imp fun _ _ h => h.issued

theorem ends_assembleWithStats_issued (hc : a.catalog.Coherent) :
    Ends (a.recorded.assembleWithStats name) ⟨world, []⟩
      (fun _ r => Accounted a.catalog (Enters a.catalog name) r.exchanges)
      fun _ r => Accounted a.catalog (Enters a.catalog name) r.exchanges := by
  apply ends_assembleWithStats_enters
  · exact fun _ _ => .refused
  · intro g scope henters
    obtain ⟨hg, haround⟩ := henters.around hc
    apply (ends_assembleIn_issued hc hg haround).mono
    · exact fun _ _ => .entered henters
    · exact fun _ _ => .entered henters

theorem ends_assembleWithin_issued (hc : a.catalog.Coherent) :
    Ends (a.recorded.assembleWithin name rows) ⟨world, []⟩
      (fun _ r => Accounted a.catalog (EntersWithin a.catalog name rows) r.exchanges)
      fun _ r => Accounted a.catalog (EntersWithin a.catalog name rows) r.exchanges := by
  apply ends_assembleWithin_enters
  · exact fun _ _ => .refused
  · intro g scope henters
    obtain ⟨hg, haround⟩ := henters.around hc
    apply (ends_assembleIn_issued hc hg haround).mono
    · exact fun _ _ => .entered henters
    · exact fun _ _ => .entered henters

theorem accountsFor_of_ends {enters : Group → Scope → Prop} {x : Effect (Recorded σ) α}
    {y : Effect σ α} (hmirrors : Mirrors Recorded.world x y)
    (hends : Ends x ⟨world, []⟩ (fun _ r => Accounted c enters r.exchanges)
      fun _ r => Accounted c enters r.exchanges) :
    AccountsFor c world enters x y :=
  ⟨_, _, rfl, hmirrors ⟨world, []⟩, hends.snd⟩

/-- Every call of every assembly of a built catalog is due when it is made, whatever the executor
answers: its parameter vectors fit the query of a group at places that its answers have led to. -/
theorem calls_due (hc : a.catalog.Built) (world : σ) :
    (∀ name, AccountsFor a.catalog world (Enters a.catalog name)
      (a.recorded.assembleWithStats name) (a.assembleWithStats name)) ∧
    (∀ name, AccountsFor a.catalog world (Enters a.catalog name)
      (a.recorded.assemble name) (a.assemble name)) ∧
    (∀ name tag, AccountsFor a.catalog world (Enters a.catalog name)
      (a.recorded.assembleXml name tag) (a.assembleXml name tag)) ∧
    ∀ name rows, AccountsFor a.catalog world (EntersWithin a.catalog name rows)
      (a.recorded.assembleWithin name rows) (a.assembleWithin name rows) := by
  have hmirrors := relates_through a.mirrors_recorded
  refine ⟨fun name => ?_, fun name => ?_, fun name tag => ?_, fun name rows => ?_⟩
  · exact accountsFor_of_ends (hmirrors.assembleWithStats name)
      (ends_assembleWithStats_issued hc.coherent)
  · refine accountsFor_of_ends (hmirrors.assemble name) ?_
    rw [assemble_eq, ends_bind]
    exact ends_assembleWithStats_issued hc.coherent
  · refine accountsFor_of_ends (hmirrors.assembleXml name tag) ?_
    rw [assembleXml_eq, ends_bind, assemble_eq, ends_bind]
    exact ends_assembleWithStats_issued hc.coherent
  · exact accountsFor_of_ends (hmirrors.assembleWithin name rows)
      (ends_assembleWithin_issued hc.coherent)

theorem calls_due_orders : ∃ doc r g scope,
    orderAssembler.recorded.assemble "orders" ⟨(), []⟩ = (.ok doc, r) ∧
      r.exchanges.length = 4 ∧ Enters orderAssembler.catalog "orders" g scope ∧
        Issued orderAssembler.catalog g scope r.exchanges := by
  have hlength : (orderAssembler.recorded.assemble "orders" ⟨(), []⟩).2.exchanges.length = 4 := by
    cbv
  obtain ⟨doc, hok⟩ := exists_assemble_orders
  obtain ⟨result, r, hrun, hplain, haccounted⟩ := (calls_due built_orderAssembler ()).2.1 "orders"
  obtain rfl : result = .ok doc := (congrArg Prod.fst hplain).symm.trans hok
  rw [hrun] at hlength
  dsimp only at hlength
  generalize hexchanges : r.exchanges = exchanges at hlength haccounted
  cases haccounted with
  | refused => cases hlength
  | entered henters hissued =>
    exact ⟨doc, r, _, _, hrun, hexchanges ▸ hlength, henters, hexchanges ▸ hissued⟩

end Entry

end Assembler

end NestedViews
