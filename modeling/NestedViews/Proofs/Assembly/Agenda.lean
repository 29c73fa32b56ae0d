import NestedViews.Proofs.Assembly.Transcript

/-! Agendas: which groups an assembly has yet to ask for, and at which places. The answers so far
decide what comes next, so a call that fails is known to be made for a certain group. -/

namespace NestedViews

variable {σ : Type}

structure Visit where
  group : Group
  scopes : List Scope

def visitsTo (groups : List Group) (scopes : List Scope) : List Visit :=
  groups.map fun g => ⟨g, scopes⟩

/-- The visits that the answers to a visit lead to: depth first to one nested group after the other
under each row, level by level to each nested group under all rows. -/
def Visit.next (c : Catalog) (strategy : Strategy) (v : Visit) (answers : List (List Row)) :
    List Visit :=
  match strategy with
  | .batched => visitsTo (c.children v.group.name) (rowScopes v.group v.scopes answers)
  | _ => (rowScopes v.group v.scopes answers).flatMap fun scope =>
      visitsTo (c.children v.group.name) [scope]

/-- By some exchanges, the first visits of an agenda are performed and those that they lead to,
until an agenda is left. -/
inductive Performs (c : Catalog) (e : Executor σ) (strategy : Strategy) :
    List Visit → List Exchange → List Visit → Prop
  | stop {visits} : Performs c e strategy visits [] visits
  | skip {group visits exchanges left} : Performs c e strategy visits exchanges left →
      Performs c e strategy (⟨group, []⟩ :: visits) exchanges left
  | visit {v visits query vectors answers exchanges exchanges' left} : v.scopes ≠ [] →
      List.Forall₂ (v.group.Asks query) v.scopes vectors →
      e.Sends query vectors answers exchanges →
      Performs c e strategy (v.next c strategy answers ++ visits) exchanges' left →
      Performs c e strategy (v :: visits) (exchanges ++ exchanges') left

inductive Executor.Fails (e : Executor σ) (query : String) :
    List (List Value) → List Exchange → Error → Prop
  | each {vectors answers vector rest err} :
      (vectors ++ vector :: rest).length ≤ 1 ∨ (∃ w, e.answersBatches w = false) →
      vectors.length = answers.length →
      Fails e query (vectors ++ vector :: rest)
        (List.zipWith (Exchange.single query) vectors answers ++
          [⟨⟨query, [vector], false⟩, .error err⟩]) err
  | batch {vectors err} : 1 < vectors.length → (∃ w, e.answersBatches w = true) →
      Fails e query vectors [⟨⟨query, vectors, true⟩, .error err⟩] err

def Visit.Fails (e : Executor σ) (v : Visit) (exchanges : List Exchange) (err : Error) : Prop :=
  ∃ query vectors, List.Forall₂ (v.group.Asks query) v.scopes vectors ∧
    e.Fails query vectors exchanges err

def BreaksOff (c : Catalog) (e : Executor σ) (strategy : Strategy) (visits : List Visit)
    (exchanges : List Exchange) (v : Visit) (err : Error) : Prop :=
  ∃ performed failing left, exchanges = performed ++ failing ∧
    Performs c e strategy visits performed (v :: left) ∧ v.Fails e failing err

variable {c : Catalog} {e : Executor σ} {strategy : Strategy} {query : String}
variable {exchanges exchanges' : List Exchange} {vectors : List (List Value)} {err : Error}
variable {requested g : Group} {group : String} {path : List String}
variable {visits visits' more : List Visit} {v : Visit}

namespace Exchange

def Succeeded (x : Exchange) : Prop :=
  ∃ answers, x.answer = .ok answers

theorem Complete.succeeded {x : Exchange} (h : x.Complete) : x.Succeeded := by
  obtain ⟨answers, hanswer, _⟩ := h
  exact ⟨answers, hanswer⟩

end Exchange

namespace Performs

theorem trans (h : Performs c e strategy visits exchanges visits')
    (h' : Performs c e strategy visits' exchanges' more) :
    Performs c e strategy visits (exchanges ++ exchanges') more := by
  induction h with
  | stop => exact h'
  | skip _ ih => exact .skip (ih h')
  | visit hne hasks hsends _ ih =>
    rw [List.append_assoc]
    exact .visit hne hasks hsends (ih h')

theorem append (h : Performs c e strategy visits exchanges visits') (more : List Visit) :
    Performs c e strategy (visits ++ more) exchanges (visits' ++ more) := by
  induction h with
  | stop => exact .stop
  | skip _ ih => exact .skip ih
  | visit hne hasks hsends _ ih =>
    rw [List.append_assoc] at ih
    exact .visit hne hasks hsends ih

theorem append_nil (h : Performs c e strategy visits exchanges [])
    (h' : Performs c e strategy visits' exchanges' []) :
    Performs c e strategy (visits ++ visits') (exchanges ++ exchanges') [] :=
  (h.append visits').trans h'

theorem succeeded (h : Performs c e strategy visits exchanges visits') :
    ∀ x ∈ exchanges, x.Succeeded := by
  induction h with
  | stop => exact fun _ hx => (List.not_mem_nil hx).elim
  | skip _ ih => exact ih
  | visit _ _ hsends _ ih =>
    exact List.forall_mem_append.mpr ⟨fun x hx => (hsends.complete x hx).succeeded, ih⟩

end Performs

namespace Executor.Fails

theorem single (e : Executor σ) (query : String) (vector : List Value) (err : Error) :
    e.Fails query [vector] [⟨⟨query, [vector], false⟩, .error err⟩] err := by
  have hnone : ([] : List (List Value)).length = ([] : List (List Row)).length := rfl
  change e.Fails query ([] ++ vector :: []) (List.zipWith (Exchange.single query) [] [] ++ [_]) err
  exact .each (.inl (Nat.le_refl 1)) hnone

theorem exists_last (h : e.Fails query vectors exchanges err) : ∃ before call,
    exchanges = before ++ [⟨call, .error err⟩] ∧ ∀ x ∈ before, x.Succeeded := by
  cases h with
  | each =>
    refine ⟨_, _, rfl, fun x hx => ?_⟩
    obtain ⟨_, _, rfl⟩ := Sends.mem_zipWith_single hx
    exact ⟨_, rfl⟩
  | batch => exact ⟨[], _, rfl, fun _ hx => (List.not_mem_nil hx).elim⟩

end Executor.Fails

namespace BreaksOff

theorem of_performs (h : Performs c e strategy visits exchanges visits')
    (h' : BreaksOff c e strategy visits' exchanges' v err) :
    BreaksOff c e strategy visits (exchanges ++ exchanges') v err := by
  obtain ⟨performed, failing, left, rfl, hperforms, hfails⟩ := h'
  exact ⟨exchanges ++ performed, failing, left, (List.append_assoc _ _ _).symm, h.trans hperforms,
    hfails⟩

theorem append (h : BreaksOff c e strategy visits exchanges v err) (more : List Visit) :
    BreaksOff c e strategy (visits ++ more) exchanges v err := by
  obtain ⟨performed, failing, left, rfl, hperforms, hfails⟩ := h
  exact ⟨performed, failing, left ++ more, rfl, hperforms.append more, hfails⟩

theorem exists_last (h : BreaksOff c e strategy visits exchanges v err) : ∃ before call,
    exchanges = before ++ [⟨call, .error err⟩] ∧ ∀ x ∈ before, x.Succeeded := by
  obtain ⟨performed, failing, left, rfl, hperforms, _, _, _, hfails⟩ := h
  obtain ⟨before, call, rfl, hbefore⟩ := hfails.exists_last
  exact ⟨performed ++ before, call, (List.append_assoc _ _ _).symm,
    List.forall_mem_append.mpr ⟨hperforms.succeeded, hbefore⟩⟩

end BreaksOff

section Unique

variable {query' : String} {vectors' : List (List Value)} {answers answers' : List (List Row)}
variable {scopes : List Scope} {rest rest' : List Exchange} {err' : Error}

theorem asks_ne_nil (hne : scopes ≠ []) (h : List.Forall₂ (g.Asks query) scopes vectors) :
    vectors ≠ [] := by
  rintro rfl
  exact hne (List.forall₂_nil_right_iff.mp h)

theorem asks_unique (hne : scopes ≠ []) (h : List.Forall₂ (g.Asks query) scopes vectors)
    (h' : List.Forall₂ (g.Asks query') scopes vectors') : query = query' ∧ vectors = vectors' := by
  have hvectors : ∀ {query' vectors'}, List.Forall₂ (g.Asks query') scopes vectors' →
      query = query' → vectors = vectors' := by
    rintro _ vectors' h' rfl
    have hunique : Relator.RightUnique (g.Asks query) := fun _ _ _ hv hv' => (hv.unique hv').2
    exact List.right_unique_forall₂' hunique h h'
  cases scopes with
  | nil => exact absurd rfl hne
  | cons scope scopes =>
    obtain ⟨_, _, hfirst, _, rfl⟩ := List.forall₂_cons_left_iff.mp h
    obtain ⟨_, _, hfirst', _, rfl⟩ := List.forall₂_cons_left_iff.mp h'
    have hquery := (hfirst.unique hfirst').1
    exact ⟨hquery, hvectors h' hquery⟩

theorem Executor.Sends.exists_head (h : e.Sends query vectors answers exchanges)
    (hne : vectors ≠ []) : ∃ x, exchanges.head? = some x ∧
      exchanges.length = if x.call.batched then 1 else vectors.length := by
  cases h with
  | each _ hlength =>
    cases vectors with
    | nil => exact absurd rfl hne
    | cons vector vectors =>
      cases answers with
      | nil => cases hlength
      | cons rows answers =>
        refine ⟨.single query vector rows, rfl, ?_⟩
        rw [List.length_zipWith, ← hlength, Nat.min_self]
        rfl
  | batch => exact ⟨.batch query vectors answers, rfl, rfl⟩

theorem Executor.Fails.exists_head (h : e.Fails query vectors exchanges err) :
    ∃ x, exchanges.head? = some x ∧
      exchanges.length ≤ if x.call.batched then 1 else vectors.length := by
  cases h with
  | @each done answers vector rest _ _ hlength =>
    have hle : (List.zipWith (Exchange.single query) done answers ++
        [Exchange.mk ⟨query, [vector], false⟩ (.error err)]).length ≤
          (done ++ vector :: rest).length := by
      simp [← hlength]
    cases done with
    | nil => exact ⟨_, rfl, hle⟩
    | cons first done =>
      cases answers with
      | nil => cases hlength
      | cons rows answers => exact ⟨.single query first rows, rfl, hle⟩
  | batch => exact ⟨_, rfl, Nat.le_refl 1⟩

theorem head?_append_of_some {x : Exchange} (h : exchanges.head? = some x) (rest : List Exchange) :
    (exchanges ++ rest).head? = some x := by
  rw [List.head?_append, h]
  rfl

theorem Executor.Sends.append_inj (h : e.Sends query vectors answers exchanges)
    (h' : e.Sends query vectors answers' exchanges') (hne : vectors ≠ [])
    (heq : exchanges ++ rest = exchanges' ++ rest') : answers = answers' ∧ rest = rest' := by
  obtain ⟨x, hx, hlength⟩ := h.exists_head hne
  obtain ⟨x', hx', hlength'⟩ := h'.exists_head hne
  have hhead := head?_append_of_some hx rest
  rw [heq, head?_append_of_some hx'] at hhead
  cases hhead
  obtain ⟨rfl, hrest⟩ := List.append_inj heq (hlength.trans hlength'.symm)
  exact ⟨h.flatMap_answers.symm.trans h'.flatMap_answers, hrest⟩

theorem Executor.Sends.append_ne (h : e.Sends query vectors answers exchanges)
    (h' : e.Fails query vectors exchanges' err) (hne : vectors ≠ []) (rest : List Exchange) :
    exchanges ++ rest ≠ exchanges' := by
  rintro rfl
  obtain ⟨x, hx, hlength⟩ := h.exists_head hne
  obtain ⟨x', hx', hle⟩ := h'.exists_head
  rw [head?_append_of_some hx] at hx'
  cases hx'
  rw [← hlength, List.length_append] at hle
  obtain rfl : rest = [] := List.length_eq_zero_iff.mp (by omega)
  obtain ⟨before, call, hlast, _⟩ := h'.exists_last
  rw [List.append_nil] at hlast
  obtain ⟨_, hfailed, _⟩ := h.complete ⟨call, .error err⟩ (hlast ▸ by simp)
  cases hfailed

theorem Executor.Fails.ne_nil (h : e.Fails query vectors exchanges err) : vectors ≠ [] := by
  cases h with
  | each => simp
  | batch hmany => exact List.length_pos_iff.mp (Nat.lt_trans Nat.zero_lt_one hmany)

theorem Visit.Fails.scopes_ne_nil (h : v.Fails e exchanges err) : v.scopes ≠ [] := by
  obtain ⟨query, vectors, hasks, hfails⟩ := h
  intro hnil
  rw [hnil] at hasks
  cases hasks
  exact hfails.ne_nil rfl

theorem Visit.Fails.ne_append (h : v.Fails e exchanges' err)
    (hasks : List.Forall₂ (v.group.Asks query) v.scopes vectors)
    (hsends : e.Sends query vectors answers exchanges) (rest : List Exchange) :
    exchanges' ≠ exchanges ++ rest := by
  have hne := h.scopes_ne_nil
  obtain ⟨query', vectors', hasks', hfails⟩ := h
  obtain ⟨rfl, rfl⟩ := asks_unique hne hasks hasks'
  exact (hsends.append_ne hfails hfails.ne_nil rest).symm

theorem Performs.unique {performed performed' failing failing' : List Exchange}
    {left left' : List Visit} {v' : Visit}
    (h : Performs c e strategy visits performed (v :: left))
    (h' : Performs c e strategy visits performed' (v' :: left')) (hv : v.Fails e failing err)
    (hv' : v'.Fails e failing' err') (heq : performed ++ failing = performed' ++ failing') :
    v = v' := by
  obtain ⟨remaining, hremaining⟩ : ∃ remaining, remaining = v :: left := ⟨_, rfl⟩
  rw [← hremaining] at h
  -- Both have performed the same visits so far, so the same one comes next, and the exchanges tell
  -- whether it was performed, and with which answers.
  induction h generalizing performed' with
  | stop =>
    subst hremaining
    cases h' with
    | stop => rfl
    | skip => exact absurd rfl hv.scopes_ne_nil
    | visit _ hasks hsends _ =>
      rw [List.append_assoc] at heq
      exact absurd heq (hv.ne_append hasks hsends _)
  | skip _ ih =>
    cases h' with
    | stop => exact absurd rfl hv'.scopes_ne_nil
    | skip h' => exact ih h' heq hremaining
    | visit hne => exact absurd rfl hne
  | visit hne hasks hsends _ ih =>
    cases h' with
    | stop =>
      rw [List.append_assoc] at heq
      exact absurd heq.symm (hv'.ne_append hasks hsends _)
    | skip => exact absurd rfl hne
    | visit _ hasks' hsends' h' =>
      rw [List.append_assoc, List.append_assoc] at heq
      obtain ⟨rfl, rfl⟩ := asks_unique hne hasks hasks'
      obtain ⟨rfl, hrest⟩ := hsends.append_inj hsends' (asks_ne_nil hne hasks) heq
      exact ih h' hrest hremaining

theorem BreaksOff.unique {v' : Visit} (h : BreaksOff c e strategy visits exchanges v err)
    (h' : BreaksOff c e strategy visits exchanges v' err') : v = v' := by
  obtain ⟨performed, failing, left, rfl, hperforms, hfails⟩ := h
  obtain ⟨performed', failing', left', heq, hperforms', hfails'⟩ := h'
  exact hperforms.unique hperforms' hfails hfails' heq

end Unique

namespace Error

def Unplaced (err : Error) : Prop :=
  ∀ group path source, err ≠ .assembly group path source

theorem located_of_not_unplaced (h : ¬ err.Unplaced) : err.located group path = err := by
  cases err with
  | assembly => rfl
  | _ => exact absurd (fun _ _ _ => Error.noConfusion) h

theorem located_located (group' : String) (path' : List String) :
    (err.located group path).located group' path' = err.located group path := by
  cases err <;> rfl

end Error

/-- The errors that are due to no call: cancellation, and those with the place of a group. -/
def Halts (c : Catalog) (requested : Group) (err : Error) : Prop :=
  err = .cancelled ∨ ∃ g ∈ c.subtree requested, ∃ source : Error,
    source.Unplaced ∧ err = .assembly g.name (c.pathTo g) source

theorem halts_located (hg : g ∈ c.subtree requested) (h : err.Unplaced) :
    Halts c requested (err.located g.name (c.pathTo g)) := by
  cases err with
  | assembly group path source => exact absurd rfl (h group path source)
  | cancelled => exact .inl rfl
  | _ => exact .inr ⟨g, hg, _, h, rfl⟩

theorem Halts.located_eq (h : Halts c requested err) : err.located group path = err := by
  obtain rfl | ⟨g, _, source, _, rfl⟩ := h <;> rfl

/-- The ways in which an agenda comes to an end before it is performed: for a reason other than a
call, or by a call that fails. -/
inductive Stops (c : Catalog) (e : Executor σ) (strategy : Strategy) (requested : Group)
    (visits : List Visit) : List Exchange → Error → Prop
  | halt {made cause} : (∀ x ∈ made, x.Succeeded) → Halts c requested cause →
      Stops c e strategy requested visits made cause
  | fail {made v cause} : v.group ∈ c.subtree requested →
      BreaksOff c e strategy visits made v cause →
      Stops c e strategy requested visits made
        (cause.located v.group.name (c.pathTo v.group))

namespace Stops

theorem of_performs (h : Performs c e strategy visits exchanges visits')
    (h' : Stops c e strategy requested visits' exchanges' err) :
    Stops c e strategy requested visits (exchanges ++ exchanges') err := by
  cases h' with
  | halt hsucceeded hhalts =>
    exact .halt (List.forall_mem_append.mpr ⟨h.succeeded, hsucceeded⟩) hhalts
  | fail hv hbreaks => exact .fail hv (.of_performs h hbreaks)

theorem append (h : Stops c e strategy requested visits exchanges err) (more : List Visit) :
    Stops c e strategy requested (visits ++ more) exchanges err := by
  cases h with
  | halt hsucceeded hhalts => exact .halt hsucceeded hhalts
  | fail hv hbreaks => exact .fail hv (hbreaks.append more)

theorem located_eq (h : Stops c e strategy requested visits exchanges err) :
    err.located group path = err := by
  cases h with
  | halt _ hhalts => exact hhalts.located_eq
  | fail => exact Error.located_located _ _

end Stops

end NestedViews
