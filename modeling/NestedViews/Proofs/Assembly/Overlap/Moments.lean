import NestedViews.Proofs.Assembly.Cancellation

namespace NestedViews

variable {σ α : Type}

/-- A moment during the call with a number: after the call was pending a number of times, or when it
is answered if it was not pending that often. Number zero is before all calls. -/
structure Moment where
  call : Nat
  suspensions : Nat

namespace Watched

def note (call : Call) (w : Watched (Logged σ)) : Watched (Logged σ) :=
  ⟨⟨w.world.world, w.world.calls ++ [call]⟩, w.count + 1, w.cancelled⟩

def raise (w : Watched (Logged σ)) : Watched (Logged σ) :=
  { w with cancelled := true }

def setWorld (w : Watched (Logged σ)) (world : σ) : Watched (Logged σ) :=
  { w with world := { w.world with world } }

def unaware (call : Future σ α) : Future (Watched (Logged σ)) α :=
  call.within (·.world.world) setWorld

def raising : Nat → Future σ α → Future (Watched (Logged σ)) α
  | _, .ready a => .step raise fun _ => .ready a
  | n, .step act next =>
    .step (fun w => w.setWorld (act w.world.world)) fun w => raising n (next w.world.world)
  | 0, .pending rest => .step raise fun _ => .pending (unaware rest)
  | n + 1, .pending rest => .pending (raising n rest)

def answering : Option Moment → Future σ α → Future (Watched (Logged σ)) α
  | some m, answer => raising m.suspensions answer
  | none, answer => unaware answer

def issue (moment : Option Moment) (call : Call) (answer : Async σ α) :
    Async (Watched (Logged σ)) α :=
  .step (note call) fun w => answering (moment.filter (·.call = w.count + 1)) answer

theorem run_unaware (call : Future σ α) (w : Watched (Logged σ)) :
    (unaware call).run w = ((call.run w.world.world).1, w.setWorld (call.run w.world.world).2) :=
  Future.run_within (fun w : Watched (Logged σ) => w.world.world) setWorld (fun _ _ => rfl)
    (fun _ => rfl) (fun _ _ _ => rfl) call w

theorem run_raising (call : Future σ α) (n : Nat) (w : Watched (Logged σ)) :
    (raising n call).run w =
      ((call.run w.world.world).1, raise (w.setWorld (call.run w.world.world).2)) := by
  induction call generalizing n w with
  | ready a => rfl
  | step act next ih => exact ih w.world.world n (w.setWorld (act w.world.world))
  | pending rest ih =>
    cases n with
    | zero => exact run_unaware rest w.raise
    | succ n => exact ih n w

theorem passOn_eq (cancelAt : Option Nat) (call : Call) (answer : Effect σ α)
    (w : Watched (Logged σ)) :
    passOn cancelAt (Logged.passOn call answer) w =
      ((answer w.world.world).1, ⟨⟨(answer w.world.world).2, w.world.calls ++ [call]⟩, w.count + 1,
        w.cancelled || cancelAt == some (w.count + 1)⟩) := rfl

theorem run_issue (moment : Option Moment) (call : Call) (answer : Async σ α) :
    (issue moment call answer).run =
      passOn (moment.map Moment.call) (Logged.passOn call answer.run) := by
  funext w
  rw [passOn_eq]
  cases moment with
  | none =>
    refine (run_unaware answer (w.note call)).trans ?_
    simp [Async.run, note, setWorld]
  | some m =>
    change Future.run (answering ((some m).filter (·.call = w.count + 1)) answer) (w.note call) = _
    by_cases hnow : m.call = w.count + 1
    · rw [Option.filter_some_pos (by simpa using hnow)]
      refine (run_raising answer m.suspensions (w.note call)).trans ?_
      simp [Async.run, raise, note, setWorld, hnow]
    · rw [Option.filter_some_neg (by simpa using hnow)]
      refine (run_unaware answer (w.note call)).trans ?_
      simp [Async.run, note, setWorld, beq_false_of_ne hnow]

theorem prompt_raising {call : Future σ α} (h : call.Prompt) (n : Nat) :
    (raising n call).Prompt := by
  induction call with
  | ready a => exact fun _ => trivial
  | step act next ih => exact fun w => ih w.world.world (h w.world.world)
  | pending rest => exact h.elim

theorem prompt_issue (moment : Option Moment) (call : Call) {answer : Async σ α}
    (h : Future.Prompt answer) : Future.Prompt (issue moment call answer) := by
  intro w
  change Future.Prompt (answering (moment.filter (·.call = w.count + 1)) answer)
  cases moment.filter (·.call = w.count + 1) with
  | none => exact h.within
  | some m => exact prompt_raising h m.suspensions

end Watched

def SuspendingExecutor.watched (moment : Option Moment) (e : SuspendingExecutor σ) :
    SuspendingExecutor (Watched (Logged σ)) where
  answersBatches w := e.answersBatches w.world.world
  execute query vector := Watched.issue moment ⟨query, [vector], false⟩ (e.execute query vector)
  executeBatch query vectors :=
    Watched.issue moment ⟨query, vectors, true⟩ (e.executeBatch query vectors)
  turns w := e.turns w.world.world

theorem SuspendingExecutor.Prompt.watched {e : SuspendingExecutor σ} (h : e.Prompt)
    (moment : Option Moment) : (e.watched moment).Prompt where
  execute query vector := Watched.prompt_issue moment _ (h.execute query vector)
  executeBatch query vectors := Watched.prompt_issue moment _ (h.executeBatch query vectors)

namespace SuspendingAssembler

def watched (a : SuspendingAssembler σ) (moment : Option Moment) :
    SuspendingAssembler (Watched (Logged σ)) :=
  ⟨a.catalog, a.executor.watched moment, a.config, Watched.cancelled⟩

theorem blocking_watched (a : SuspendingAssembler σ) (moment : Option Moment) :
    (a.watched moment).blocking = a.blocking.watched (moment.map Moment.call) := by
  have hexecutor : (a.executor.watched moment).blocking =
      a.executor.blocking.logged.watched (moment.map Moment.call) := by
    unfold SuspendingExecutor.blocking SuspendingExecutor.watched
    simp only [Watched.run_issue]
    rfl
  unfold blocking watched
  rw [hexecutor]
  rfl

theorem sequential_watched {a : SuspendingAssembler σ} (h : a.resolver.Sequential)
    (moment : Option Moment) : (a.watched moment).resolver.Sequential :=
  h.imp_right fun hprompt => hprompt.watched moment

theorem cutShort_sequential {a : SuspendingAssembler σ} (h : a.resolver.Sequential) (m : Moment)
    (world : σ) :
    AtEntries (fun _ x y => Assembler.CutShort m.call (x (.start (some m.call) world))
      (y (.start none world))) (a.watched (some m)) (a.watched none) := by
  have hcut := sequential_watched h (some m)
  have hfull := sequential_watched h none
  obtain ⟨hstats, hassemble, hxml, hwithin⟩ := Assembler.cutShort_assembly a.blocking m.call world
  constructor
  · rwa [assembleWithStats_blocking hcut, assembleWithStats_blocking hfull, blocking_watched,
      blocking_watched]
  · rwa [assemble_blocking hcut, assemble_blocking hfull, blocking_watched, blocking_watched]
  · rwa [assembleXml_blocking hcut, assembleXml_blocking hfull, blocking_watched, blocking_watched]
  · rwa [assembleWithin_blocking hcut, assembleWithin_blocking hfull, blocking_watched,
      blocking_watched]

end SuspendingAssembler

end NestedViews
