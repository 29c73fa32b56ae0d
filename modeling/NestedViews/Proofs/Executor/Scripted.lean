import NestedViews.Executor.Script
import NestedViews.Executor.Watched
import NestedViews.Proofs.Effect
import NestedViews.Proofs.Success

namespace NestedViews

inductive ScriptStep
  | rows (query : String) (vector : List Value) (rows : List Row)
  | failure (query : String) (vector : List Value) (message : String)
  | fallback (query : String) (rows : List Row)
  | batches (offered : Bool)
  deriving DecidableEq, Repr

structure Scripting where
  script : Script
  batches : Bool

namespace Scripting

def step (s : Scripting) : ScriptStep → Scripting
  | .rows query vector rows => { s with script := s.script.withAnswer query vector (.rows rows) }
  | .failure query vector message =>
    { s with script := s.script.withAnswer query vector (.failure message) }
  | .fallback query rows => { s with script := s.script.withFallback query rows }
  | .batches offered => { s with batches := offered }

def ofSteps (steps : List ScriptStep) : Scripting :=
  steps.foldl step ⟨.empty, false⟩

@[simp] theorem ofSteps_nil : ofSteps [] = ⟨.empty, false⟩ := rfl

@[simp] theorem ofSteps_concat (steps : List ScriptStep) (last : ScriptStep) :
    ofSteps (steps ++ [last]) = (ofSteps steps).step last :=
  List.foldl_concat _ _ _ _

def executor {σ : Type} (s : Scripting) : Executor (Logged σ) :=
  (Executor.answering s.script.answer s.batches).logged

end Scripting

/-- Parameters match if they are of one kind and the same, floating point numbers bit for bit. -/
inductive Value.Matches : Value → Value → Prop
  | int64 {n} : Matches (.int64 n) (.int64 n)
  | float64 {x y} : x.bits = y.bits → Matches (.float64 x) (.float64 y)
  | bool {b} : Matches (.bool b) (.bool b)
  | string {s} : Matches (.string s) (.string s)
  | date {days} : Matches (.date days) (.date days)
  | timestamp {micros} : Matches (.timestamp micros) (.timestamp micros)
  | null : Matches .null .null

theorem Value.matches_iff {v w : Value} : v.Matches w ↔ v = w := by
  constructor
  · rintro (_ | @⟨⟨_⟩, ⟨_⟩, ⟨⟩⟩ | _ | _ | _ | _ | _) <;> rfl
  · rintro rfl
    cases v <;> constructor
    rfl

instance {v w : Value} : Decidable (v.Matches w) :=
  decidable_of_iff (v = w) Value.matches_iff.symm

example : (Value.float64 (.nan false)).Matches (.float64 (.nan false)) ∧
    ¬ (Value.float64 ⟨0⟩).Matches (.float64 ⟨0x8000000000000000⟩) ∧
    ¬ (Value.int64 1).Matches (.timestamp 1) := by
  decide

theorem forall₂_matches {vector vector' : List Value} :
    List.Forall₂ Value.Matches vector vector' ↔ vector = vector' := by
  have heq : Value.Matches = Eq := by
    funext v w
    exact propext Value.matches_iff
  rw [heq, List.forall₂_eq_eq_eq]

namespace ScriptStep

def query? : ScriptStep → Option String
  | .rows query _ _ => some query
  | .failure query _ _ => some query
  | .fallback query _ => some query
  | .batches _ => none

def answerTo? (query : String) (vector : List Value) : ScriptStep → Option Answer
  | .rows query' vector' found =>
    if query' = query ∧ List.Forall₂ Value.Matches vector' vector then some (.rows found) else none
  | .failure query' vector' message =>
    if query' = query ∧ List.Forall₂ Value.Matches vector' vector then some (.failure message)
    else none
  | .fallback _ _ => none
  | .batches _ => none

def fallbackFor? (query : String) : ScriptStep → Option (List Row)
  | .rows _ _ _ => none
  | .failure _ _ _ => none
  | .fallback query' found => if query' = query then some found else none
  | .batches _ => none

def last? {α : Type} (tell : ScriptStep → Option α) (steps : List ScriptStep) : Option α :=
  (steps.filterMap tell).getLast?

variable {α : Type} {tell : ScriptStep → Option α}

@[simp] theorem last?_nil : last? tell [] = none := rfl

@[simp] theorem last?_concat (steps : List ScriptStep) (last : ScriptStep) :
    last? tell (steps ++ [last]) = (tell last).or (last? tell steps) := by
  rw [last?, List.filterMap_append, List.getLast?_append]
  cases htell : tell last <;> simp [htell, last?]

theorem last?_eq (view : Scripting → Option α) (hempty : view (.ofSteps []) = none)
    (hstep : ∀ s step, view (s.step step) = (tell step).or (view s)) (steps : List ScriptStep) :
    view (.ofSteps steps) = last? tell steps := by
  induction steps using List.reverseRecOn with
  | nil => exact hempty
  | append_singleton steps step ih => rw [Scripting.ofSteps_concat, hstep, ih, last?_concat]

end ScriptStep

def Answer.result : Answer → Except Error (List Row)
  | .rows found => .ok found
  | .failure message => .error (.execution (.other message))

/-- The answer of a script as told by its steps: an answer of their own if the parameters have one,
else the rows for all other parameters, else no rows as long as the query is written down at all. -/
def respond (steps : List ScriptStep) (query : String) (vector : List Value) :
    Except Error (List Row) :=
  match ScriptStep.last? (ScriptStep.answerTo? query vector) steps with
  | some answer => answer.result
  | none =>
    match ScriptStep.last? (ScriptStep.fallbackFor? query) steps with
    | some rows => .ok rows
    | none =>
      if ∃ step ∈ steps, step.query? = some query then .ok []
      else .error (.execution (.unknownQuery query))

namespace Script

variable (s : Script) (query query' : String) (vector vector' : List Value)

def Knows : Prop :=
  (s.queries.lookup query).isSome

instance : Decidable (s.Knows query) :=
  inferInstanceAs (Decidable (_ = true))

def entry : QueryScript :=
  (s.queries.lookup query).getD ⟨[], none⟩

def own? : Option Answer :=
  (s.entry query).answers.lookup vector

def fallback? : Option (List Row) :=
  (s.entry query).fallback

theorem answer_eq : s.answer query vector =
    match s.own? query vector with
    | some answer => answer.result
    | none =>
      match s.fallback? query with
      | some rows => .ok rows
      | none => if s.Knows query then .ok [] else .error (.execution (.unknownQuery query)) := by
  unfold answer own? fallback? entry Knows
  obtain hknown | ⟨q, hknown⟩ := (s.queries.lookup query).eq_none_or_eq_some
  · simp [hknown]
  · simp only [hknown, Option.getD_some, Option.isSome_some, if_true]
    rcases q.answers.lookup vector with _ | found | message
    · rcases q.fallback with _ | found <;> rfl
    · rfl
    · rfl

variable (change : QueryScript → QueryScript) (answer : Answer) (rows : List Row)

theorem lookup_update : (s.update query' change).queries.lookup query =
    if query' = query then some (change (s.entry query)) else s.queries.lookup query := by
  by_cases hquery : query' = query
  · subst hquery
    simp [update, entry]
  · have hne : (query == query') = false := beq_false_of_ne fun h => hquery h.symm
    simp [update, List.lookup_cons, hne, hquery]

theorem knows_update :
    (s.update query' change).Knows query ↔ query' = query ∨ s.Knows query := by
  rw [Knows, lookup_update]
  by_cases hquery : query' = query <;> simp [Knows, hquery]

theorem entry_update : (s.update query' change).entry query =
    if query' = query then change (s.entry query) else s.entry query := by
  rw [entry, lookup_update]
  split <;> rfl

theorem own?_withAnswer : (s.withAnswer query' vector' answer).own? query vector =
    if query' = query ∧ List.Forall₂ Value.Matches vector' vector then some answer
    else s.own? query vector := by
  rw [own?, withAnswer, entry_update]
  simp only [forall₂_matches]
  by_cases hquery : query' = query
  · by_cases hvector : vector' = vector
    · simp [hquery, hvector]
    · have hne : (vector == vector') = false := beq_false_of_ne fun h => hvector h.symm
      simp [hquery, hvector, hne, List.lookup_cons, own?]
  · simp [hquery, own?]

theorem own?_withFallback :
    (s.withFallback query' rows).own? query vector = s.own? query vector := by
  rw [own?, withFallback, entry_update]
  split <;> rfl

theorem fallback?_withAnswer :
    (s.withAnswer query' vector' answer).fallback? query = s.fallback? query := by
  rw [fallback?, withAnswer, entry_update]
  split <;> rfl

theorem fallback?_withFallback : (s.withFallback query' rows).fallback? query =
    if query' = query then some rows else s.fallback? query := by
  rw [fallback?, withFallback, entry_update]
  split <;> rfl

end Script

namespace Scripting

variable (s : Scripting) (step : ScriptStep) (query : String) (vector : List Value)

theorem own?_step : (s.step step).script.own? query vector =
    (step.answerTo? query vector).or (s.script.own? query vector) := by
  cases step with
  | rows query' vector' rows =>
    rw [Scripting.step, Script.own?_withAnswer, ScriptStep.answerTo?]
    split <;> rfl
  | failure query' vector' message =>
    rw [Scripting.step, Script.own?_withAnswer, ScriptStep.answerTo?]
    split <;> rfl
  | fallback query' rows => exact s.script.own?_withFallback query query' vector rows
  | batches offered => rfl

theorem fallback?_step : (s.step step).script.fallback? query =
    (step.fallbackFor? query).or (s.script.fallback? query) := by
  cases step with
  | rows query' vector' rows => exact s.script.fallback?_withAnswer query query' vector' _
  | failure query' vector' message => exact s.script.fallback?_withAnswer query query' vector' _
  | fallback query' rows =>
    rw [Scripting.step, Script.fallback?_withFallback, ScriptStep.fallbackFor?]
    split <;> rfl
  | batches offered => rfl

theorem knows_step : (s.step step).script.Knows query ↔
    step.query? = some query ∨ s.script.Knows query := by
  cases step
  case batches => simp [Scripting.step, ScriptStep.query?]
  all_goals
    simp only [Scripting.step, Script.withAnswer, Script.withFallback, Script.knows_update,
      ScriptStep.query?, Option.some.injEq]

theorem knows_ofSteps (steps : List ScriptStep) :
    (ofSteps steps).script.Knows query ↔ ∃ step ∈ steps, step.query? = some query := by
  induction steps using List.reverseRecOn with
  | nil => simp [Script.Knows, Script.empty]
  | append_singleton steps step ih =>
    rw [ofSteps_concat, knows_step, ih]
    simp [or_and_right, exists_or, or_comm]

theorem answer_ofSteps (steps : List ScriptStep) :
    (ofSteps steps).script.answer query vector = respond steps query vector := by
  have hown : (ofSteps steps).script.own? query vector =
      ScriptStep.last? (ScriptStep.answerTo? query vector) steps :=
    ScriptStep.last?_eq (fun s => s.script.own? query vector) rfl
      (fun s step => own?_step s step query vector) steps
  have hfallback : (ofSteps steps).script.fallback? query =
      ScriptStep.last? (ScriptStep.fallbackFor? query) steps :=
    ScriptStep.last?_eq (fun s => s.script.fallback? query) rfl
      (fun s step => fallback?_step s step query) steps
  simp only [Script.answer_eq, hown, hfallback, knows_ofSteps, respond]

end Scripting

inductive AnswersInOrder (answer : List Value → Except Error (List Row)) :
    List (List Value) → Except Error (List (List Row)) → Prop
  | all {vectors answers} :
    List.Forall₂ (fun vector rows => answer vector = .ok rows) vectors answers →
    AnswersInOrder answer vectors (.ok answers)
  | first {before vector after e} : (∀ vector ∈ before, ∃ rows, answer vector = .ok rows) →
    answer vector = .error e → AnswersInOrder answer (before ++ vector :: after) (.error e)

theorem answersInOrder_mapM (answer : List Value → Except Error (List Row))
    (vectors : List (List Value)) : AnswersInOrder answer vectors (vectors.mapM answer) := by
  rcases hanswers : vectors.mapM answer with e | answers
  · obtain ⟨before, vector, after, rfl, hbefore, hvector⟩ := mapM_eq_error_iff.mp hanswers
    exact .first hbefore hvector
  · exact .all (mapM_eq_ok.mp hanswers)

theorem Effect.fst_mapM {σ α β : Type} {call : α → Effect σ β} {answer : α → Except Error β}
    (h : ∀ a s, (call a s).1 = answer a) (as : List α) (s : σ) :
    (as.mapM call s).1 = as.mapM answer := by
  induction as generalizing s with
  | nil => rfl
  | cons a as ih =>
    rw [List.mapM_cons, List.mapM_cons, ← h a s]
    rcases hcall : call a s with ⟨e | b, s'⟩
    · rw [bind_eq_of_error hcall]
      rfl
    · rw [bind_eq_of_ok hcall, ← ih s']
      rcases hrest : as.mapM call s' with ⟨e | bs, s''⟩
      · rw [bind_eq_of_error hrest]
        rfl
      · rw [bind_eq_of_ok hrest]
        rfl

namespace Scripting

variable {σ : Type}

theorem fst_execute (s : Scripting) (query : String) (vector : List Value) (l : Logged σ) :
    (s.executor.execute query vector l).1 = s.script.answer query vector :=
  rfl

theorem fst_executeBatch (s : Scripting) (query : String) (vectors : List (List Value))
    (l : Logged σ) :
    (s.executor.executeBatch query vectors l).1 = vectors.mapM (s.script.answer query) :=
  rfl

theorem answers_as_scripted (steps : List ScriptStep) (query : String) (l : Logged σ) :
    (∀ vector, ((ofSteps steps).executor.execute query vector l).1 = respond steps query vector) ∧
    ∀ vectors,
      AnswersInOrder (respond steps query) vectors
        ((ofSteps steps).executor.executeBatch query vectors l).1 ∧
      AnswersInOrder (respond steps query) vectors
        ((ofSteps steps).executor.oneByOne.executeBatch query vectors l).1 := by
  have hanswer : (ofSteps steps).script.answer query = respond steps query := by
    funext vector
    exact answer_ofSteps query vector steps
  refine ⟨fun vector => ?_, fun vectors => ⟨?_, ?_⟩⟩
  · rw [fst_execute, answer_ofSteps]
  · rw [fst_executeBatch, hanswer]
    exact answersInOrder_mapM _ _
  · have hcalls : ((ofSteps steps).executor.oneByOne.executeBatch query vectors l).1 =
        vectors.mapM (respond steps query) :=
      Effect.fst_mapM (fun vector l => by rw [fst_execute, hanswer]) vectors l
    rw [hcalls]
    exact answersInOrder_mapM _ _

end Scripting

end NestedViews
