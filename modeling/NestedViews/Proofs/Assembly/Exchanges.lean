import NestedViews.Proofs.Assembly.Steps
import NestedViews.Proofs.Executor.Recorded
import NestedViews.Proofs.Scope
import NestedViews.Proofs.Success

namespace NestedViews

open Effect

variable {σ : Type}

namespace Exchange

def single (query : String) (vector : List Value) (rows : List Row) : Exchange :=
  ⟨⟨query, [vector], false⟩, .ok [rows]⟩

def batch (query : String) (vectors : List (List Value)) (answers : List (List Row)) : Exchange :=
  ⟨⟨query, vectors, true⟩, .ok answers⟩

def answers (x : Exchange) : List (List Row) :=
  match x.answer with
  | .ok answers => answers
  | .error _ => []

def Complete (x : Exchange) : Prop :=
  ∃ answers, x.answer = .ok answers ∧ answers.length = x.call.vectors.length

end Exchange

def Stats.after (s : Stats) (exchanges : List Exchange) (rows : Nat) : Stats where
  calls := s.calls + exchanges.length
  batches := s.batches + exchanges.countP fun x => x.call.batched
  vectors := s.vectors + (exchanges.map fun x => x.call.vectors.length).sum
  rows := s.rows + rows

theorem Stats.after_after (s : Stats) (exchanges exchanges' : List Exchange) (rows rows' : Nat) :
    (s.after exchanges rows).after exchanges' rows' =
      s.after (exchanges ++ exchanges') (rows + rows') := by
  simp [after, Nat.add_assoc]

structure Adds (p p' : Progress (Recorded σ)) (exchanges : List Exchange) (rows : Nat) : Prop where
  exchanges_eq : p'.world.exchanges = p.world.exchanges ++ exchanges
  stats_eq : p'.stats = p.stats.after exchanges rows

namespace Adds

variable {p p' p'' : Progress (Recorded σ)} {exchanges exchanges' : List Exchange}
variable {rows rows' : Nat}

theorem refl (p : Progress (Recorded σ)) : Adds p p [] 0 :=
  ⟨(List.append_nil _).symm, rfl⟩

theorem trans (h : Adds p p' exchanges rows) (h' : Adds p' p'' exchanges' rows') :
    Adds p p'' (exchanges ++ exchanges') (rows + rows') where
  exchanges_eq := by rw [h'.exchanges_eq, h.exchanges_eq, List.append_assoc]
  stats_eq := by rw [h'.stats_eq, h.stats_eq, Stats.after_after]

end Adds

/-- The exchanges in which parameter vectors of a query are answered: one batch if there are several
vectors and the executor answers batches, else one call for each vector. -/
inductive Executor.Sends (e : Executor σ) (query : String) :
    List (List Value) → List (List Row) → List Exchange → Prop
  | each {vectors answers} : vectors.length ≤ 1 ∨ (∃ w, e.answersBatches w = false) →
      vectors.length = answers.length →
      Sends e query vectors answers (List.zipWith (Exchange.single query) vectors answers)
  | batch {vectors answers} : 1 < vectors.length → (∃ w, e.answersBatches w = true) →
      vectors.length = answers.length →
      Sends e query vectors answers [.batch query vectors answers]

namespace Executor.Sends

variable {e : Executor σ} {query : String} {vectors : List (List Value)}
variable {answers : List (List Row)} {exchanges : List Exchange}

theorem nil (e : Executor σ) (query : String) : e.Sends query [] [] [] :=
  .each (.inl (Nat.zero_le 1)) rfl

theorem length_eq (h : e.Sends query vectors answers exchanges) :
    vectors.length = answers.length := by
  cases h with
  | each _ h => exact h
  | batch _ _ h => exact h

theorem mem_zipWith_single {x : Exchange}
    (hx : x ∈ List.zipWith (Exchange.single query) vectors answers) :
    ∃ vector rows, x = .single query vector rows := by
  rw [← List.map_uncurry_zip_eq_zipWith] at hx
  obtain ⟨⟨vector, rows⟩, _, rfl⟩ := List.mem_map.mp hx
  exact ⟨vector, rows, rfl⟩

theorem query_eq (h : e.Sends query vectors answers exchanges) :
    ∀ x ∈ exchanges, x.call.query = query := by
  intro x hx
  cases h with
  | each =>
    obtain ⟨_, _, rfl⟩ := mem_zipWith_single hx
    rfl
  | batch =>
    obtain rfl := List.mem_singleton.mp hx
    rfl

theorem complete (h : e.Sends query vectors answers exchanges) : ∀ x ∈ exchanges, x.Complete := by
  intro x hx
  cases h with
  | each =>
    obtain ⟨_, _, rfl⟩ := mem_zipWith_single hx
    exact ⟨_, rfl, rfl⟩
  | batch _ _ hlength =>
    obtain rfl := List.mem_singleton.mp hx
    exact ⟨_, rfl, hlength.symm⟩

theorem flatMap_zipWith_single (h : vectors.length = answers.length) :
    (List.zipWith (Exchange.single query) vectors answers).flatMap (fun x => x.call.vectors) =
        vectors ∧
      (List.zipWith (Exchange.single query) vectors answers).flatMap Exchange.answers = answers := by
  induction vectors generalizing answers with
  | nil =>
    obtain rfl := List.length_eq_zero_iff.mp h.symm
    exact ⟨rfl, rfl⟩
  | cons vector vectors ih =>
    cases answers with
    | nil => cases h
    | cons rows answers =>
      obtain ⟨hvectors, hanswers⟩ := ih (Nat.succ.inj h)
      rw [List.zipWith_cons_cons, List.flatMap_cons, List.flatMap_cons, hvectors, hanswers]
      exact ⟨rfl, rfl⟩

theorem flatMap_vectors (h : e.Sends query vectors answers exchanges) :
    exchanges.flatMap (fun x => x.call.vectors) = vectors := by
  cases h with
  | each _ hlength => exact (flatMap_zipWith_single hlength).1
  | batch => exact List.flatMap_singleton _ _

theorem flatMap_answers (h : e.Sends query vectors answers exchanges) :
    exchanges.flatMap Exchange.answers = answers := by
  cases h with
  | each _ hlength => exact (flatMap_zipWith_single hlength).2
  | batch => exact List.flatMap_singleton _ _

end Executor.Sends

namespace Assembler

variable {a : Assembler σ} {p : Progress (Recorded σ)} {g : Group} {query : String}

theorem ends_prepare_plan (path : List String) :
    Ends (a.recorded.context.prepare g path) p (fun plan p' => g.plan = some plan ∧ p' = p)
      fun _ _ => True := by
  rw [Context.ends_prepare_iff]
  refine ⟨fun _ => trivial, fun _ => ⟨fun _ => trivial, fun _ => ?_⟩⟩
  cases g.plan with
  | none => trivial
  | some plan => exact ⟨rfl, rfl⟩

theorem ends_liftM_eq {α : Type} (answer : Except Error α) :
    Ends (liftM answer : Run (Recorded σ) α) p (fun b p' => answer = .ok b ∧ p' = p)
      fun _ _ => True := by
  rw [ends_liftM]
  cases answer with
  | ok b => exact ⟨rfl, rfl⟩
  | error e => trivial

theorem ends_execute_adds (vector : List Value) :
    Ends (a.recorded.context.execute query vector) p
      (fun rows p' => Adds p p' [.single query vector rows] 0) fun _ _ => True := by
  rw [Context.ends_execute]
  refine ⟨fun _ => trivial, fun _ => Recorded.ends_passOn.mpr ?_⟩
  exact ends_of_forall (fun _ _ => ⟨rfl, rfl⟩) fun _ _ => trivial

theorem ends_executeBatch_adds (vectors : List (List Value)) :
    Ends (a.recorded.context.executeBatch query vectors) p
      (fun answers p' => vectors.length = answers.length ∧
        Adds p p' [.batch query vectors answers] 0) fun _ _ => True := by
  rw [Context.ends_executeBatch]
  refine ⟨fun _ => trivial, fun _ => Recorded.ends_passOn.mpr ?_⟩
  apply ends_of_forall
  · exact fun answers w => ⟨fun _ => trivial, fun hlength => ⟨hlength.symm, rfl, rfl⟩⟩
  · exact fun _ _ => trivial

theorem ends_mapM_execute_adds (vectors : List (List Value)) :
    Ends (vectors.mapM (a.recorded.context.execute query)) p
      (fun answers p' => vectors.length = answers.length ∧
        Adds p p' (List.zipWith (Exchange.single query) vectors answers) 0) fun _ _ => True := by
  induction vectors generalizing p with
  | nil => exact ⟨rfl, .refl p⟩
  | cons vector vectors ih =>
    rw [List.mapM_cons, ends_bind]
    apply (ends_execute_adds vector).imp
    intro rows p' hfirst
    rw [ends_bind]
    apply ih.imp
    rintro answers p'' ⟨hlength, hrest⟩
    exact ⟨congrArg (· + 1) hlength, hfirst.trans hrest⟩

theorem ends_executeAll_adds {vectors : List (List Value)} (hne : vectors ≠ []) :
    Ends (a.recorded.context.executeAll query vectors) p
      (fun answers p' => ∃ exchanges, a.executor.Sends query vectors answers exchanges ∧
        Adds p p' exchanges 0) fun _ _ => True := by
  rw [Context.executeAll, ends_bind, ends_get, ends_ite]
  have hanswers : a.recorded.context.executor.answersBatches p.world =
      a.executor.answersBatches p.world.world := rfl
  constructor
  · intro h
    apply (ends_mapM_execute_adds vectors).imp
    rintro answers p' ⟨hlength, hadds⟩
    refine ⟨_, .each ?_ hlength, hadds⟩
    exact h.imp le_of_eq fun hbatches => ⟨p.world.world, by simpa [hanswers] using hbatches⟩
  · intro h
    rw [not_or] at h
    obtain ⟨hmany, hbatches⟩ := h
    apply (ends_executeBatch_adds vectors).imp
    rintro answers p' ⟨hlength, hadds⟩
    have hpos := List.length_pos_iff.mpr hne
    exact ⟨_, .batch (by omega) ⟨p.world.world, by simpa [hanswers] using hbatches⟩ hlength, hadds⟩

theorem ends_addRows_adds (count : Nat) :
    Ends (a.recorded.context.addRows count) p (fun _ p' => Adds p p' [] count) fun _ _ => True := by
  rw [Context.ends_addRows]
  exact ⟨fun _ => trivial, fun _ => ⟨(List.append_nil _).symm, rfl⟩⟩

theorem ends_checkRows_fits (rows : List Row) :
    Ends (rows.forM fun row => liftM (g.checkRow row) : Run (Recorded σ) Unit) p
      (fun _ p' => (∀ row ∈ rows, row.length = g.arity) ∧ p' = p) fun _ _ => True := by
  rw [forM_liftM]
  apply (ends_liftM_eq (rows.forM g.checkRow)).imp
  rintro _ _ ⟨hchecks, rfl⟩
  exact ⟨Group.checkRows_eq_ok.mp hchecks, rfl⟩

theorem ends_countAnswers_adds (answers : List (List Row)) :
    Ends
      (answers.forM fun rows => do
        a.recorded.context.addRows rows.length
        rows.forM fun row => liftM (g.checkRow row)) p
      (fun _ p' => (∀ rows ∈ answers, ∀ row ∈ rows, row.length = g.arity) ∧
        Adds p p' [] (answers.map List.length).sum) fun _ _ => True := by
  induction answers generalizing p with
  | nil => exact ⟨by simp, .refl p⟩
  | cons rows answers ih =>
    change Ends (_ >>= fun _ => answers.forM _) p _ _
    rw [ends_bind, ends_bind]
    apply (ends_addRows_adds rows.length).imp
    intro _ p' hfirst
    apply (ends_checkRows_fits rows).imp
    rintro _ _ ⟨hrows, rfl⟩
    apply ih.imp
    rintro _ p'' ⟨hanswers, hrest⟩
    exact ⟨List.forall_mem_cons.mpr ⟨hrows, hanswers⟩, hfirst.trans hrest⟩

end Assembler

end NestedViews
