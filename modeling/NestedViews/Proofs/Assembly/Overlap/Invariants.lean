import NestedViews.Proofs.Assembly.AgendaRuns
import NestedViews.Proofs.Future.Ensures

namespace NestedViews

open Async Effect

variable {σ α : Type}

inductive Outline.Places : Outline → List String → Group → List String → Prop
  | here {g nested path} : Places (.mk g nested) path g path
  | nested {g nested path o h path'} : o ∈ nested → Places o (path ++ [g.name]) h path' →
      Places (.mk g nested) path h path'

namespace Resolver

/-- Calls that are made while the flag is down change the world by `R` only. Their errors have a
property, and another one once a place is noted on them. -/
structure Keeps (r : Resolver σ) (R : σ → σ → Prop) (bare located : Error → σ → Prop) : Prop where
  preorder : IsPreorder σ R
  stable : ∀ e s s', R s s' → located e s → located e s'
  bare_of_located : ∀ e s, located e s → bare e s
  bare_of_unplaced : ∀ e s, e.Unplaced → bare e s
  execute : ∀ query vector s, ¬ r.cancelled s → Future.Ensures R
    (fun result s' => ∀ e, result = .error e → bare e s') (r.executor.execute query vector) s
  executeBatch : ∀ query vectors s, ¬ r.cancelled s → Future.Ensures R
    (fun result s' => ∀ e, result = .error e → bare e s') (r.executor.executeBatch query vectors) s

def InWorld (R : σ → σ → Prop) (p p' : Progress σ) : Prop :=
  R p.world p'.world

abbrev Fails (R : σ → σ → Prop) (bad : Error → σ → Prop) (x : Async (Progress σ) α) : Prop :=
  x.FailsWith (InWorld R) fun e p => bad e p.world

variable {r : Resolver σ} {R : σ → σ → Prop} {bare located : Error → σ → Prop}

instance [IsPreorder σ R] : IsPreorder (Progress σ) (InWorld R) where
  refl p := refl_of R p.world
  trans _ _ _ h h' := trans_of R h h'

theorem fails_located {x : Async (Progress σ) α} {group : Group} {path : List String}
    (h : Fails R bare x) (hlocated : ∀ e s, bare e s → located (e.located group.name path) s) :
    Fails R located (Async.located group path x) := by
  refine fun p => Future.Ensures.bind ((h p).mono fun result p' hpost => ?_)
  cases result with
  | error e => exact fun e' he' => by cases he'; exact hlocated e p'.world (hpost e rfl)
  | ok a => exact fun _ h => by cases h

theorem ensures_ofCall {post : Except Error α → σ → Prop} {call : Async σ α} {p : Progress σ}
    (h : Future.Ensures R post call p.world) :
    Future.Ensures (InWorld R) (fun result p' => post result p'.world) (Async.ofCall call) p :=
  h.within Progress.world (fun p world => { p with world }) fun _ _ => rfl

theorem fails_call [IsPreorder σ R] {call : Async σ α} (hcancelled : ∀ s, bare .cancelled s)
    (hcall : ∀ s, ¬ r.cancelled s → Future.Ensures R
      (fun result s' => ∀ e, result = .error e → bare e s') call s) (vectors : Nat)
    (batched : Bool) :
    Fails R bare (do
      .ofEffect r.context.checkCancelled
      .ofEffect (Run.countCall vectors batched)
      .ofCall call) := by
  intro p
  refine Future.Ensures.bind ?_
  change InWorld R p (r.context.checkCancelled p).2 ∧ Future.Ensures _ _
    (ExceptT.bindCont _ (r.context.checkCancelled p).1) (r.context.checkCancelled p).2
  rw [r.context.checkCancelled_eq]
  by_cases hup : r.context.cancelled p.world
  · rw [if_pos hup]
    exact ⟨refl_of (InWorld R) p, fun e he => by cases he; exact hcancelled p.world⟩
  · rw [if_neg hup]
    refine ⟨refl_of (InWorld R) p, refl_of R p.world, ?_⟩
    exact ensures_ofCall (p := (Run.countCall vectors batched p).2) (hcall p.world hup)

namespace Keeps

theorem bare_liftM (h : r.Keeps R bare located) {answer : Except Error α}
    (hanswer : ∀ e, answer = .error e → e.Unplaced) :
    Fails R bare (liftM answer : Async (Progress σ) α) :=
  .liftM fun e he p => h.bare_of_unplaced e p.world (hanswer e he)

theorem prepare (h : r.Keeps R bare located) (group : Group) (path : List String) :
    Fails R bare (r.prepare group path) := by
  have := h.preorder
  apply FailsWith.ofEffect
  intro p
  have hbare : ∀ e : Error, e.Unplaced → InWorld R p p ∧ bare e p.world :=
    fun e he => ⟨refl_of (InWorld R) p, h.bare_of_unplaced e p.world he⟩
  rw [Context.ends_prepare_iff]
  refine ⟨fun _ => hbare _ fun _ _ _ => Error.noConfusion, fun _ => ⟨fun _ => ?_, fun _ => ?_⟩⟩
  · exact hbare _ fun _ _ _ => Error.noConfusion
  · cases group.plan with
    | none => exact hbare _ fun _ _ _ => Error.noConfusion
    | some plan => exact refl_of (InWorld R) p

theorem addRows (h : r.Keeps R bare located) (count : Nat) : Fails R bare (r.addRows count) := by
  have := h.preorder
  apply FailsWith.ofEffect
  intro p
  rw [Context.ends_addRows]
  refine ⟨fun _ => ⟨refl_of R p.world, ?_⟩, fun _ => refl_of R p.world⟩
  exact h.bare_of_unplaced _ p.world fun _ _ _ => Error.noConfusion

theorem bare_cancelled (h : r.Keeps R bare located) (s : σ) : bare .cancelled s :=
  h.bare_of_unplaced _ s fun _ _ _ => Error.noConfusion

theorem fails_execute (h : r.Keeps R bare located) (query : String) (vector : List Value) :
    Fails R bare (r.execute query vector) :=
  have := h.preorder
  fails_call h.bare_cancelled (h.execute query vector) 1 false

theorem fails_executeBatch (h : r.Keeps R bare located) (query : String)
    (vectors : List (List Value)) : Fails R bare (r.executeBatch query vectors) := by
  have := h.preorder
  have hcall := fails_call h.bare_cancelled (h.executeBatch query vectors) vectors.length true
  have hlength : ∀ answers : List (List Row),
      Fails R bare (if answers.length ≠ vectors.length then do
        throw (.execution (.batchLength answers.length vectors.length))
        return answers else return answers) := by
    intro answers
    apply FailsWith.ite
    · have hthrow : ∀ e, (Except.error (.execution (.batchLength answers.length vectors.length)) :
          Except Error PUnit) = .error e → e.Unplaced := by
        rintro _ ⟨⟩
        exact fun _ _ _ => Error.noConfusion
      exact (h.bare_liftM hthrow).bind fun _ => .pure answers
    · exact .pure answers
  simpa only [Resolver.executeBatch, bind_assoc] using hcall.bind hlength

theorem fails_executeAll (h : r.Keeps R bare located) (query : String)
    (vectors : List (List Value)) : Fails R bare (r.executeAll query vectors) := by
  have := h.preorder
  have hget : Fails R bare (.ofEffect get) := .ofEffect fun p => refl_of R p.world
  exact hget.bind fun p => .ite (.mapM fun vector => h.fails_execute query vector)
    (h.fails_executeBatch query vectors)

theorem gather (h : r.Keeps R bare located) {parts : List (Async (Progress σ) α)}
    (hparts : ∀ part ∈ parts, Fails R located part) : Fails R located (r.gather parts) :=
  have := h.preorder
  .gather (fun e p p' => h.stable e p.world p'.world) hparts parts.length

theorem checkAnswers (h : r.Keeps R bare located) (group : Group) (answers : List (List Row)) :
    Fails R bare (answers.forM fun rows => do
      r.addRows rows.length
      rows.forM fun row => MonadLiftT.monadLift (group.checkRow row)) :=
  .forM fun rows => (h.addRows rows.length).bind fun _ =>
    .forM fun _ => h.bare_liftM fun _ => Group.unplaced_of_checkRow

def Notes (bare located : Error → σ → Prop) (o : Outline) (path : List String) : Prop :=
  ∀ g path', o.Places path g path' → ∀ e s, bare e s → located (e.located g.name path') s

theorem Notes.nested {group : Group} {nested : List Outline} {path : List String}
    (h : Notes bare located (.mk group nested) path) :
    ∀ o ∈ nested, Notes bare located o (path ++ [group.name]) :=
  fun _ ho g path' hplace => h g path' (.nested ho hplace)

mutual

theorem resolve (h : r.Keeps R bare located) : (o : Outline) → (scope : Scope) →
    (path : List String) → Notes bare located o path → Fails R located (o.resolve r scope path)
  | .mk group nested, scope, path, hnotes => by
    rw [Outline.resolve]
    refine fails_located ?_ (hnotes group path .here)
    apply (h.prepare group path).bind
    intro plan
    apply (h.bare_liftM fun _ => Plan.unplaced_of_parameters).bind
    intro vector
    apply (h.fails_execute plan.query vector).bind
    intro rows
    apply (h.addRows rows.length).bind
    intro _
    apply FailsWith.mapM
    intro row
    apply (h.bare_liftM fun _ => Group.unplaced_of_checkRow).bind
    intro _
    have hnested := h.resolveNested nested (⟨group, row⟩ :: scope) (path ++ [group.name])
      hnotes.nested
    exact ((h.gather hnested).mono fun e p => h.bare_of_located e p.world).bind fun _ => .pure _

theorem resolveNested (h : r.Keeps R bare located) : (outlines : List Outline) →
    (scope : Scope) → (path : List String) → (∀ o ∈ outlines, Notes bare located o path) →
      ∀ part ∈ Outline.resolveNested r outlines scope path, Fails R located part
  | [], _, _, _ => by
    rw [Outline.resolveNested]
    exact fun _ hpart => (List.not_mem_nil hpart).elim
  | o :: rest, scope, path, hnotes => by
    rw [Outline.resolveNested]
    obtain ⟨hfirst, hrest⟩ := List.forall_mem_cons.mp hnotes
    exact List.forall_mem_cons.mpr ⟨(h.resolve o scope path hfirst).bind fun _ => .pure _,
      h.resolveNested rest scope path hrest⟩

end

mutual

theorem resolveLevel (h : r.Keeps R bare located) : (o : Outline) → (scopes : List Scope) →
    (path : List String) → Notes bare located o path →
      Fails R located (o.resolveLevel r scopes path)
  | .mk group nested, scopes, path, hnotes => by
    rw [Outline.resolveLevel]
    refine fails_located ?_ (hnotes group path .here)
    apply (h.prepare group path).bind
    intro plan
    apply FailsWith.ite (.pure [])
    have hparameters : ∀ e, scopes.mapM plan.parameters = .error e → e.Unplaced := by
      intro e he
      obtain ⟨scope, _, hscope⟩ := mapM_eq_error he
      exact Plan.unplaced_of_parameters hscope
    apply (h.bare_liftM hparameters).bind
    intro vectors
    apply (h.fails_executeAll plan.query vectors).bind
    intro answers
    apply (h.checkAnswers group answers).bind
    intro _
    have hnested := h.resolveLevels nested (rowScopes group scopes answers) (path ++ [group.name])
      hnotes.nested
    exact ((h.gather hnested).mono fun e p => h.bare_of_located e p.world).bind fun _ => .pure _

theorem resolveLevels (h : r.Keeps R bare located) : (outlines : List Outline) →
    (scopes : List Scope) → (path : List String) → (∀ o ∈ outlines, Notes bare located o path) →
      ∀ part ∈ Outline.resolveLevels r outlines scopes path, Fails R located part
  | [], _, _, _ => by
    rw [Outline.resolveLevels]
    exact fun _ hpart => (List.not_mem_nil hpart).elim
  | o :: rest, scopes, path, hnotes => by
    rw [Outline.resolveLevels]
    obtain ⟨hfirst, hrest⟩ := List.forall_mem_cons.mp hnotes
    exact List.forall_mem_cons.mpr ⟨(h.resolveLevel o scopes path hfirst).bind fun _ => .pure _,
      h.resolveLevels rest scopes path hrest⟩

end

end Keeps

end Resolver

namespace SuspendingAssembler

open Resolver

variable {a : SuspendingAssembler σ} {R : σ → σ → Prop} {bare located : Error → σ → Prop}
variable {g : Group} {scope : Scope}

theorem fails_nodes (h : a.resolver.Keeps R bare located) (strategy : Strategy)
    (hnotes : Keeps.Notes bare located (a.catalog.outline g) scope.path) :
    Fails R located (a.nodes strategy g scope) := by
  have hat := h.resolve (a.catalog.outline g) scope scope.path hnotes
  cases strategy with
  | auto => exact hat
  | depthFirst => exact hat
  | batched =>
    exact (h.resolveLevel (a.catalog.outline g) [scope] scope.path hnotes).bind fun _ => .pure _

theorem ends_assembleIn_keeps (h : a.resolver.Keeps R bare located) (g : Group) (scope : Scope)
    (hnotes : Keeps.Notes bare located (a.catalog.outline g) scope.path) (s : σ) :
    Ends (a.assembleIn g scope) s (fun _ s' => R s s') fun e s' => R s s' ∧ located e s' := by
  have := h.preorder
  have hfails := fails_nodes h (a.strategy s) hnotes
  simp only [assembleIn, ends_bind, ends_get, Assembler.ends_start, ends_pure]
  exact hfails.ends ⟨s, .zero⟩

end SuspendingAssembler

end NestedViews
