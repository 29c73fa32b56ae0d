import NestedViews.Executor.Script
import NestedViews.Proofs.Assembly.Overlap.Follows
import NestedViews.Proofs.Assembly.Overlap.Moments
import NestedViews.Proofs.Catalog.Acceptance

namespace NestedViews

variable {σ α : Type} {k : Nat}

namespace Watched

structure Grows (k : Nat) (w w' : Watched (Logged σ)) : Prop where
  calls : w.world.calls <+: w'.world.calls
  count : w'.count + w.world.calls.length = w.count + w'.world.calls.length
  stopped : w.cancelled → w'.cancelled ∧ w'.world.calls = w.world.calls
  raised : w'.cancelled → w.cancelled ∨ k ≤ w'.count

theorem Grows.count_le {w w' : Watched (Logged σ)} (h : Grows k w w') : w.count ≤ w'.count := by
  have hlength := h.calls.length_le
  have hcount := h.count
  omega

theorem grows_setWorld (w : Watched (Logged σ)) (world : σ) : Grows k w (w.setWorld world) :=
  ⟨List.prefix_refl _, rfl, fun h => ⟨h, rfl⟩, .inl⟩

instance : IsPreorder (Watched (Logged σ)) (Grows k) where
  refl w := grows_setWorld w w.world.world
  trans _ _ _ h h' := by
    refine ⟨h.calls.trans h'.calls, ?_, fun hup => ?_, fun hup => ?_⟩
    · have hcount := h.count
      have hcount' := h'.count
      omega
    · obtain ⟨hup', hcalls⟩ := h.stopped hup
      obtain ⟨hup'', hcalls'⟩ := h'.stopped hup'
      exact ⟨hup'', hcalls'.trans hcalls⟩
    · obtain hup' | hle := h'.raised hup
      · exact (h.raised hup').imp_right fun hle => hle.trans h'.count_le
      · exact .inr hle

theorem ensures_unaware (call : Future σ α) (w : Watched (Logged σ)) :
    (unaware call).Ensures (Grows k) (fun _ _ => True) w :=
  .of_within grows_setWorld call w

theorem grows_raise {w : Watched (Logged σ)} (h : k ≤ w.count) : Grows k w w.raise :=
  ⟨List.prefix_refl _, rfl, fun _ => ⟨rfl, rfl⟩, fun _ => .inr h⟩

theorem ensures_raising (call : Future σ α) (n : Nat) {w : Watched (Logged σ)} (h : k ≤ w.count) :
    (raising n call).Ensures (Grows k) (fun _ _ => True) w := by
  induction call generalizing n w with
  | ready a => exact ⟨grows_raise h, trivial⟩
  | step act next ih => exact ⟨grows_setWorld w _, ih w.world.world n h⟩
  | pending rest ih =>
    cases n with
    | zero => exact ⟨grows_raise h, fun w' _ => ensures_unaware rest w'⟩
    | succ n => exact fun w' hw' => ih n (h.trans hw'.count_le)

theorem ensures_issue {moment : Option Moment} (hmoment : ∀ m ∈ moment, m.call = k) (call : Call)
    (answer : Async σ α) {w : Watched (Logged σ)} (hdown : ¬ w.cancelled) :
    Future.Ensures (Grows k) (fun _ _ => True) (issue moment call answer) w := by
  refine ⟨⟨List.prefix_append _ _, ?_, fun hup => absurd hup hdown, .inl⟩, ?_⟩
  · simp only [note, List.length_append, List.length_singleton]
    omega
  · change Future.Ensures _ _ (answering (moment.filter (·.call = w.count + 1)) answer)
      (w.note call)
    cases hnow : moment.filter (·.call = w.count + 1) with
    | none => exact ensures_unaware answer _
    | some m =>
      obtain ⟨hm, hcall⟩ := Option.filter_eq_some_iff.mp hnow
      have hk : k = w.count + 1 := (hmoment m hm).symm.trans (by simpa using hcall)
      exact ensures_raising answer m.suspensions (Nat.le_of_eq hk)

def unasked (w : Watched (Logged σ)) : Watched (Logged σ) :=
  { w with cancelled := false }

def lockstep (apart : Watched (Logged σ) → Prop) (mayFail : Prop) :
    Lockstep (Watched (Logged σ)) (Watched (Logged σ)) :=
  ⟨unasked, apart, mayFail⟩

variable {apart : Watched (Logged σ) → Prop} {mayFail : Prop} {failed : α → Prop}

theorem follows_unaware (call : Future σ α) :
    Future.Follows (lockstep apart mayFail) failed Eq (unaware call) (unaware call) := by
  induction call with
  | ready a => exact .ready rfl
  | step act next ih => exact .step (fun _ _ => rfl) fun w _ => ih w.world.world
  | pending rest ih => exact .pending ih

theorem follows_raising (call : Future σ α) (n : Nat) :
    Future.Follows (lockstep apart mayFail) failed Eq (raising n call) (unaware call) := by
  induction call generalizing n with
  | ready a => exact .silent (fun _ _ => rfl) fun _ _ => .ready rfl
  | step act next ih => exact .step (fun _ _ => rfl) fun w _ => ih w.world.world n
  | pending rest ih =>
    cases n with
    | zero => exact .silent (fun _ _ => rfl) fun _ _ => .pending (follows_unaware rest)
    | succ n => exact .pending (ih n)

theorem follows_issue (moment : Option Moment) (call : Call) (answer : Async σ α) :
    Async.Follows (lockstep apart mayFail) (issue moment call answer) (issue none call answer) := by
  refine .step (fun _ _ => rfl) fun w _ => ?_
  change Future.Follows _ _ _ (answering (moment.filter (·.call = w.count + 1)) answer)
    (unaware answer)
  cases moment.filter (·.call = w.count + 1) with
  | none => exact follows_unaware answer
  | some m => exact follows_raising answer m.suspensions

end Watched

namespace SuspendingAssembler

open Watched

variable (a : SuspendingAssembler σ)

theorem keeps_watched {moment : Option Moment} (hmoment : ∀ m ∈ moment, m.call = k) :
    (a.watched moment).resolver.Keeps (Grows k) (fun _ _ => True) fun _ _ => True where
  preorder := inferInstance
  stable _ _ _ _ _ := trivial
  bare_of_located _ _ _ := trivial
  bare_of_unplaced _ _ _ := trivial
  execute _ _ _ hdown := (ensures_issue hmoment _ _ hdown).mono fun _ _ _ _ _ => trivial
  executeBatch _ _ _ hdown := (ensures_issue hmoment _ _ hdown).mono fun _ _ _ _ _ => trivial

theorem relates_watched (apart : Watched (Logged σ) → Prop) (mayFail : Prop)
    (hflag : ∀ w, w.cancelled → apart w ∨ mayFail) (m : Moment) :
    Relates (fun _ => Effect.Follows (lockstep apart mayFail) (Grows m.call) (Grows m.call))
      (a.watched (some m)) (a.watched none) := by
  refine relates_follows ?_ rfl rfl
    (a.keeps_watched fun _ h => congrArg Moment.call (Option.some.inj h).symm)
    (a.keeps_watched fun _ h => absurd h (Option.not_mem_none _))
  constructor
  · exact fun _ _ => rfl
  · exact fun _ _ => follows_issue _ _ _
  · exact fun _ _ => follows_issue _ _ _
  · exact fun _ _ => rfl
  · intro w hw
    by_cases hup : w.cancelled
    · exact .inr ⟨(hflag w hup).resolve_left hw, hup⟩
    · exact .inl (Bool.eq_false_of_not_eq_true hup)
  · rfl
  · rfl

/-- What becomes of a run that is cancelled during a call with a number, beside the same run when
nobody asks it to stop. -/
structure Halted (k : Nat) (cut full : Except Error α × Watched (Logged σ)) : Prop where
  calls : cut.2.world.calls <+: full.2.world.calls
  le_length : k ≤ full.2.world.calls.length → k ≤ cut.2.world.calls.length
  calls_eq : full.2.world.calls.length ≤ k → cut.2.world.calls = full.2.world.calls
  fst_eq : full.2.world.calls.length < k → cut.1 = full.1
  fails : cut.2.world.calls.length < full.2.world.calls.length → ∃ e, cut.1 = .error e

theorem calls_of_follows {x y : Effect (Watched (Logged σ)) α}
    (h : Effect.Follows (lockstep (·.cancelled) False) (Grows k) (Grows k) x y)
    (w : Watched (Logged σ)) : y w.unasked = ((x w).1, (x w).2.unasked) ∨
      (x w).2.cancelled ∧ (x w).2.world.calls <+: (y w.unasked).2.world.calls := by
  by_cases hup : w.cancelled
  · obtain ⟨hup', hcalls⟩ := (h.changes w).stopped hup
    exact .inr ⟨hup', hcalls ▸ (h.changes' w.unasked).calls⟩
  · obtain ⟨hmay, _⟩ | hsame | ⟨w', hup', hgrows, hgrows'⟩ := h.goes w hup
    · exact hmay.elim
    · exact .inl hsame
    · obtain ⟨hup'', hcalls⟩ := hgrows.stopped hup'
      exact .inr ⟨hup'', hcalls ▸ hgrows'.calls⟩

theorem halted_of_follows {x y : Effect (Watched (Logged σ)) α}
    (h : Effect.Follows (lockstep (·.cancelled) False) (Grows k) (Grows k) x y)
    (h' : Effect.Follows (lockstep (fun _ => False) True) (Grows k) (Grows k) x y) (world : σ) :
    Halted k (x (.start (some k) world)) (y (.start none world)) := by
  -- The calls are told by following up to the flag, the outcome by following up to a failure.
  have hgrows := h.changes (start (some k) world)
  have hreached : (x (start (some k) world)).2.cancelled →
      k ≤ (x (start (some k) world)).2.world.calls.length := by
    intro hup
    have hcount : _ + 0 = 0 + _ := hgrows.count
    obtain hzero | hle := hgrows.raised hup
    · have hk : k = 0 := by simpa [start] using hzero
      omega
    · omega
  obtain hsame | ⟨hup, hfirst⟩ := calls_of_follows h (start (some k) world)
  · change y (start none world) = _ at hsame
    rw [hsame]
    exact ⟨List.prefix_refl _, id, fun _ => rfl, fun _ => rfl, fun hlt => absurd hlt (lt_irrefl _)⟩
  · change _ <+: (y (start none world)).2.world.calls at hfirst
    refine ⟨hfirst, fun _ => hreached hup, fun hle => ?_, fun hlt => ?_, fun hlt => ?_⟩
    · exact hfirst.eq_of_length_le (hle.trans (hreached hup))
    · exact absurd ((hreached hup).trans hfirst.length_le) (Nat.not_le.mpr hlt)
    · obtain ⟨_, hfails⟩ | hsame | ⟨_, hnever, _⟩ := h'.goes (start (some k) world) id
      · exact hfails
      · change y (start none world) = _ at hsame
        rw [hsame] at hlt
        exact absurd hlt (lt_irrefl _)
      · exact hnever.elim

theorem halted_assembly (m : Moment) (world : σ) :
    AtEntries (fun _ x y => Halted m.call (x (.start (some m.call) world)) (y (.start none world)))
      (a.watched (some m)) (a.watched none) := by
  have h := (a.relates_watched (·.cancelled) False (fun _ => .inl) m).atEntries
  have h' := (a.relates_watched (fun _ => False) True (fun _ _ => .inr trivial) m).atEntries
  constructor
  · exact fun name => halted_of_follows (h.assembleWithStats name) (h'.assembleWithStats name) world
  · exact fun name => halted_of_follows (h.assemble name) (h'.assemble name) world
  · exact fun name tag => halted_of_follows (h.assembleXml name tag) (h'.assembleXml name tag) world
  · exact fun name rows =>
      halted_of_follows (h.assembleWithin name rows) (h'.assembleWithin name rows) world

end SuspendingAssembler

/-- A world with the calls that were issued in it while the flag was up. -/
structure Overrun (σ : Type) where
  world : σ
  late : List Call

namespace Overrun

def setWorld (o : Overrun σ) (world : σ) : Overrun σ :=
  { o with world }

def issue (cancelled : σ → Bool) (call : Call) (answer : Async σ α) : Async (Overrun σ) α :=
  .step (fun o => if cancelled o.world then { o with late := o.late ++ [call] } else o) fun _ =>
    Future.within world setWorld answer

def Keeps (o o' : Overrun σ) : Prop :=
  o'.late = o.late

instance : IsPreorder (Overrun σ) Keeps where
  refl _ := rfl
  trans _ _ _ h h' := h'.trans h

theorem ensures_issue {cancelled : σ → Bool} {o : Overrun σ} (hdown : ¬ cancelled o.world)
    (call : Call) (answer : Async σ α) :
    Future.Ensures Keeps (fun _ _ => True) (issue cancelled call answer) o := by
  have hissue : Keeps o (if cancelled o.world then { o with late := o.late ++ [call] } else o) := by
    rw [if_neg hdown]
    rfl
  have hkeeps : ∀ (o : Overrun σ) (world : σ), Keeps o (o.setWorld world) := fun _ _ => rfl
  exact ⟨hissue, .of_within hkeeps answer _⟩

theorem follows_issue (cancelled : σ → Bool) (call : Call) (answer : Async σ α) :
    Async.Follows (.seen world) (issue cancelled call answer) answer := by
  refine .silent (fun o _ => ?_) fun _ _ => Future.follows_within (fun _ _ => rfl) answer
  change world (if cancelled o.world then { o with late := o.late ++ [call] } else o) = _
  split <;> rfl

end Overrun

def SuspendingExecutor.overrun (cancelled : σ → Bool) (e : SuspendingExecutor σ) :
    SuspendingExecutor (Overrun σ) where
  answersBatches o := e.answersBatches o.world
  execute query vector := Overrun.issue cancelled ⟨query, [vector], false⟩ (e.execute query vector)
  executeBatch query vectors :=
    Overrun.issue cancelled ⟨query, vectors, true⟩ (e.executeBatch query vectors)
  turns o := e.turns o.world

namespace SuspendingAssembler

def overrun (a : SuspendingAssembler σ) : SuspendingAssembler (Overrun σ) :=
  a.through Overrun.world (a.executor.overrun a.cancelled)

/-- A run issues no call while the flag is up. The record makes no difference to it. -/
def Punctual (world : σ) (recording : Effect (Overrun σ) α) (plain : Effect σ α) : Prop :=
  ∃ result world', recording ⟨world, []⟩ = (result, ⟨world', []⟩) ∧ plain world = (result, world')

theorem punctual_of_follows {x : Effect (Overrun σ) α} {y : Effect σ α}
    (h : Effect.Follows (.seen Overrun.world) Overrun.Keeps (fun _ _ => True) x y) (world : σ) :
    Punctual world x y := by
  have hlate : (x ⟨world, []⟩).2.late = [] := h.changes ⟨world, []⟩
  have hplain := h.mirrors ⟨world, []⟩
  rcases hx : x ⟨world, []⟩ with ⟨result, o, late⟩
  rw [hx] at hlate hplain
  obtain rfl : late = [] := hlate
  exact ⟨result, o, hx, hplain⟩

theorem punctual_assembly (a : SuspendingAssembler σ) (world : σ) :
    AtEntries (fun _ => Punctual world) a.overrun a := by
  have hfollows : a.overrun.resolver.Follows (.seen Overrun.world) a.resolver :=
    ⟨fun _ _ => rfl, fun _ _ => Overrun.follows_issue _ _ _, fun _ _ => Overrun.follows_issue _ _ _,
      fun _ _ => rfl, fun _ _ => .inl rfl, rfl, rfl⟩
  have hkeeps : a.overrun.resolver.Keeps Overrun.Keeps (fun _ _ => True) fun _ _ => True :=
    ⟨inferInstance, fun _ _ _ _ _ => trivial, fun _ _ _ => trivial, fun _ _ _ => trivial,
      fun _ _ _ hdown => (Overrun.ensures_issue hdown _ _).mono fun _ _ _ _ _ => trivial,
      fun _ _ _ hdown => (Overrun.ensures_issue hdown _ _).mono fun _ _ _ _ _ => trivial⟩
  have h := (relates_follows hfollows rfl rfl hkeeps (Resolver.keeps_true _)).atEntries
  exact h.mono fun _ _ _ h => punctual_of_follows h world

/-- An assembly that is cancelled during one of its calls, with no two calls under way at once,
makes no further call, and fails for being cancelled if it would have made one. If calls overlap,
those that were issued before may still be answered, and one of them may be what it fails for. -/
theorem cancellation_stops_calls (a : SuspendingAssembler σ) (m : Moment) (world : σ) :
    (a.resolver.Sequential → AtEntries (fun _ x y => Assembler.CutShort m.call
      (x (.start (some m.call) world)) (y (.start none world))) (a.watched (some m))
      (a.watched none)) ∧
    AtEntries (fun _ x y => Halted m.call (x (.start (some m.call) world)) (y (.start none world)))
      (a.watched (some m)) (a.watched none) ∧
    AtEntries (fun _ => Punctual world) a.overrun a :=
  ⟨fun h => cutShort_sequential h m world, halted_assembly a m world, punctual_assembly a world⟩

end SuspendingAssembler

/-- Keeps the calls for one query pending once, while the groups next to it go on. -/
def Executor.slowedDown (e : Executor σ) (slow : String) : SuspendingExecutor σ where
  answersBatches := e.answersBatches
  execute query vector :=
    let call := Async.ofEffect (e.execute query vector)
    if query = slow then Future.pending call else call
  executeBatch query vectors :=
    let call := Async.ofEffect (e.executeBatch query vectors)
    if query = slow then Future.pending call else call
  turns _ := [0]

def noteDefinitions : List GroupDefinition :=
  Catalog.orderDefinitions ++ [⟨"orders.notes", [⟨"text", .string⟩],
    some ⟨"SELECT text FROM notes WHERE order_id = ?", [⟨"orders.id", none⟩]⟩, none⟩]

@[irreducible] def Catalog.noteCatalog : Catalog :=
  (ofDefinitions noteDefinitions).toOption.getD ⟨[], .empty⟩

theorem Catalog.built_noteCatalog : noteCatalog.Built :=
  ⟨noteDefinitions, by decide +kernel⟩

def noteScript : Script :=
  (((Script.empty.withFallback "SELECT id, placed FROM orders"
    [[.int64 7, .date 19000]]).withFallback "SELECT sku FROM lines WHERE order_id = ?"
    [[.string "cup"]]).withFallback "SELECT code FROM parcels WHERE sku = ? AND sent >= ?"
    [[.string "P1"]]).withFallback "SELECT text FROM notes WHERE order_id = ?"
    [[.string "call first"]]

def lostLines : Script :=
  noteScript.withAnswer "SELECT sku FROM lines WHERE order_id = ?" [.int64 7]
    (.failure "lines are gone")

def noteAssembler (script : Script) (concurrency : Nat) : SuspendingAssembler Unit where
  catalog := Catalog.noteCatalog
  executor := (Executor.answering script.answer false).slowedDown
    "SELECT sku FROM lines WHERE order_id = ?"
  config := { strategy := .depthFirst, concurrency }
  cancelled _ := false

namespace SuspendingAssembler

open Assembler

theorem cutShort_while_lines_pending :
    CutShort 2
      (((noteAssembler noteScript 1).watched (some ⟨2, 1⟩)).assemble "orders" (.start (some 2) ()))
      (((noteAssembler noteScript 1).watched none).assemble "orders" (.start none ())) ∧
    (((noteAssembler noteScript 1).watched none).assemble "orders"
      (.start none ())).2.world.calls.length = 4 :=
  ⟨((cancellation_stops_calls (noteAssembler noteScript 1) ⟨2, 1⟩ ()).1
    (.inl (by decide))).assemble "orders", by decide +kernel⟩

/-- While the second call is pending, the third one is issued. The second call then asks to stop,
and fails. -/
theorem overlapping_not_cutShort :
    (noteAssembler lostLines 2).catalog.Built ∧
      (((noteAssembler lostLines 2).watched none).assemble "orders"
        (.start none ())).2.world.calls.length = 3 ∧
      (((noteAssembler lostLines 2).watched (some ⟨2, 1⟩)).assemble "orders"
        (.start (some 2) ())).2.world.calls.length = 3 ∧
      (((noteAssembler lostLines 2).watched (some ⟨2, 1⟩)).assemble "orders"
        (.start (some 2) ())).1 =
          .error (.assembly "orders.lines" ["orders"] (.execution (.other "lines are gone"))) ∧
      ¬ CutShort 2
        (((noteAssembler lostLines 2).watched (some ⟨2, 1⟩)).assemble "orders" (.start (some 2) ()))
        (((noteAssembler lostLines 2).watched none).assemble "orders" (.start none ())) := by
  have hfull : (((noteAssembler lostLines 2).watched none).assemble "orders"
      (.start none ())).2.world.calls.length = 3 := by
    decide +kernel
  have hcut : (((noteAssembler lostLines 2).watched (some ⟨2, 1⟩)).assemble "orders"
      (.start (some 2) ())).2.world.calls.length = 3 := by
    decide +kernel
  refine ⟨Catalog.built_noteCatalog, hfull, hcut, by cbv, fun h => ?_⟩
  have htake := congrArg List.length (h.stops (by omega)).2
  rw [List.length_take] at htake
  omega

end SuspendingAssembler

end NestedViews
