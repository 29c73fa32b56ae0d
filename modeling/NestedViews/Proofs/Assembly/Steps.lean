import NestedViews.Assembly.Run
import NestedViews.Proofs.Effect

namespace NestedViews

open Effect

variable {σ α : Type} {p : Progress σ} {bad : Error → Progress σ → Prop}

namespace Error

@[simp] theorem rootCause_located (group : String) (path : List String) (e : Error) :
    (e.located group path).rootCause = e.rootCause := by
  cases e <;> rfl

end Error

def Stats.count (s : Stats) (vectors : Nat) (batched : Bool) : Stats :=
  ⟨s.calls + 1, s.batches + if batched then 1 else 0, s.vectors + vectors, s.rows⟩

namespace Run

variable {good : α → Progress σ → Prop}

@[simp] theorem ends_ofEffect (effect : Effect σ α) :
    Ends (ofEffect effect) p good bad ↔
      Ends effect p.world (fun a w => good a { p with world := w })
        fun e w => bad e { p with world := w } :=
  ends_wrap (fun (result, w) => (result, { p with world := w })) rfl (fun _ _ => rfl)
    fun _ _ => rfl

@[simp] theorem ends_located (group : Group) (path : List String) (step : Run σ α) :
    Ends (located group path step) p good bad ↔
      Ends step p good fun e p' => bad (e.located group.name path) p' :=
  ends_wrap (fun (result, p') => (result.mapError (Error.located group.name path), p')) rfl
    (fun _ _ => rfl) fun _ _ => rfl

@[simp] theorem ends_countCall (vectors : Nat) (batched : Bool) {good : Unit → Progress σ → Prop} :
    Ends (countCall vectors batched) p good bad ↔
      good () ⟨p.world, p.stats.count vectors batched⟩ := Iff.rfl

end Run

namespace Context

variable {c : Context σ} {group : Group} {path : List String}

theorem checkCancelled_eq (p : Progress σ) :
    c.checkCancelled p = (if c.cancelled p.world then .error .cancelled else .ok (), p) := by
  change (if c.cancelled p.world then throw .cancelled else pure () : Run σ Unit) p = _
  split <;> rfl

theorem exists_prepare_eq (group : Group) (path : List String) :
    ∃ answer : Except Error Plan, ∀ {σ : Type} (c : Context σ) (p : Progress σ),
      c.prepare group path p = (if c.cancelled p.world then .error .cancelled else answer, p) := by
  refine ⟨if group.name ∈ path then .error (.cyclic (path ++ [group.name])) else
    group.plan.elim (.error (.schema (.notVirtual group.name))) .ok, fun c p => ?_⟩
  have hcheck := c.checkCancelled_eq p
  by_cases hcancelled : c.cancelled p.world
  · rw [if_pos hcancelled] at hcheck ⊢
    exact bind_eq_of_error hcheck
  · rw [if_neg hcancelled] at hcheck ⊢
    refine (bind_eq_of_ok hcheck).trans ?_
    by_cases hcyclic : group.name ∈ path
    · rw [if_pos hcyclic, if_pos hcyclic]
      rfl
    · rw [if_neg hcyclic, if_neg hcyclic]
      cases group.plan <;> rfl

@[simp] theorem ends_checkCancelled {good : Unit → Progress σ → Prop} :
    Ends c.checkCancelled p good bad ↔
      (c.cancelled p.world → bad .cancelled p) ∧ (¬ c.cancelled p.world → good () p) := by
  simp [checkCancelled]

@[simp] theorem ends_addRows (count : Nat) {good : Unit → Progress σ → Prop} :
    Ends (c.addRows count) p good bad ↔
      (0 < c.rowLimit ∧ c.rowLimit < p.stats.rows + count →
        bad (.rowLimit c.rowLimit) ⟨p.world, { p.stats with rows := p.stats.rows + count }⟩) ∧
      (¬ (0 < c.rowLimit ∧ c.rowLimit < p.stats.rows + count) →
        good () ⟨p.world, { p.stats with rows := p.stats.rows + count }⟩) := by
  simp [addRows]

theorem ends_prepare_iff {good : Plan → Progress σ → Prop} :
    Ends (c.prepare group path) p good bad ↔
      (c.cancelled p.world → bad .cancelled p) ∧
      (¬ c.cancelled p.world →
        (group.name ∈ path → bad (.cyclic (path ++ [group.name])) p) ∧
        (group.name ∉ path → match group.plan with
          | some plan => good plan p
          | none => bad (.schema (.notVirtual group.name)) p)) := by
  cases hplan : group.plan <;> simp [prepare, hplan]

theorem ends_prepare (hpath : group.name ∉ path) {good : Plan → Progress σ → Prop} :
    Ends (c.prepare group path) p good bad ↔
      (c.cancelled p.world → bad .cancelled p) ∧
      (¬ c.cancelled p.world → match group.plan with
        | some plan => good plan p
        | none => bad (.schema (.notVirtual group.name)) p) := by
  rw [ends_prepare_iff]
  simp only [hpath, false_implies, not_false_eq_true, true_implies, true_and]

theorem ends_execute (query : String) (vector : List Value)
    {good : List Row → Progress σ → Prop} :
    Ends (c.execute query vector) p good bad ↔
      (c.cancelled p.world → bad .cancelled p) ∧
      (¬ c.cancelled p.world → Ends (c.executor.execute query vector) p.world
        (fun rows w => good rows ⟨w, p.stats.count 1 false⟩)
        fun e w => bad e ⟨w, p.stats.count 1 false⟩) := by
  simp only [execute, ends_bind, ends_checkCancelled, Run.ends_countCall, Run.ends_ofEffect]

theorem ends_executeBatch (query : String) (vectors : List (List Value))
    {good : List (List Row) → Progress σ → Prop} :
    Ends (c.executeBatch query vectors) p good bad ↔
      (c.cancelled p.world → bad .cancelled p) ∧
      (¬ c.cancelled p.world → Ends (c.executor.executeBatch query vectors) p.world
        (fun answers w =>
          (answers.length ≠ vectors.length →
            bad (.execution (.batchLength answers.length vectors.length))
              ⟨w, p.stats.count vectors.length true⟩) ∧
          (answers.length = vectors.length →
            good answers ⟨w, p.stats.count vectors.length true⟩))
        fun e w => bad e ⟨w, p.stats.count vectors.length true⟩) := by
  simp only [executeBatch, ends_bind, ends_checkCancelled, Run.ends_countCall, Run.ends_ofEffect,
    ends_ite, ends_throw, ends_pure, not_not]

end Context

end NestedViews
