import NestedViews.Executor.Watched
import NestedViews.Proofs.Assembly.Mirrors
import NestedViews.Proofs.Assembly.Steps

namespace NestedViews

open Effect

variable {σ α β : Type} {k : Nat} {calls : σ → List Call}

namespace Effect

variable {x y : Effect σ α} {f g : α → Effect σ β} {s s' : σ}

/-- A computation goes like another one until a number of calls are made in all. There it may fail
for being cancelled, and has to if the other one goes on to the next call. -/
def StopsAt (k : Nat) (calls : σ → List Call) (x y : Effect σ α) : Prop :=
  ∀ s, calls s <+: calls (y s).2 ∧
    ((calls s).length ≤ k →
      x s = y s ∧ (calls (y s).2).length ≤ k ∨
      (∃ s', x s = (.error .cancelled, s') ∧ calls s' = (calls (y s).2).take k) ∧
        k ≤ (calls (y s).2).length)

namespace StopsAt

theorem of_eq (h : ∀ s, x s = y s)
    (hy : ∀ s, Ends y s (fun _ s' => calls s' = calls s) fun _ s' => calls s' = calls s) :
    StopsAt k calls x y := by
  intro s
  have hcalls : calls (y s).2 = calls s := Ends.snd (hy s)
  rw [hcalls]
  exact ⟨List.prefix_refl _, fun hle => .inl ⟨h s, hle⟩⟩

theorem liftM (answer : Except Error α) :
    StopsAt k calls (liftM answer : Effect σ α) (liftM answer) :=
  of_eq (fun _ => rfl) fun _ => by cases answer <;> rfl

theorem bind (h : StopsAt k calls x y) (hf : ∀ a, StopsAt k calls (f a) (g a)) :
    StopsAt k calls (x >>= f) (y >>= g) := by
  intro s
  obtain ⟨hgrows, hstops⟩ := h s
  rcases hy : y s with ⟨e | a, t⟩ <;> rw [hy] at hgrows hstops
  · rw [bind_eq_of_error hy]
    refine ⟨hgrows, fun hle => ?_⟩
    rcases hstops hle with ⟨hx, hle'⟩ | ⟨⟨s', hx, hcut⟩, hge⟩
    · exact .inl ⟨bind_eq_of_error hx, hle'⟩
    · exact .inr ⟨⟨s', bind_eq_of_error hx, hcut⟩, hge⟩
  · rw [bind_eq_of_ok hy]
    obtain ⟨hgrows', hstops'⟩ := hf a t
    refine ⟨hgrows.trans hgrows', fun hle => ?_⟩
    rcases hstops hle with ⟨hx, hle'⟩ | ⟨⟨s', hx, hcut⟩, hge⟩
    · rw [bind_eq_of_ok hx]
      exact hstops' hle'
    · -- The calls of what would have come next are beyond those that are kept.
      have hlength := hgrows'.length_le
      obtain ⟨more, hmore⟩ := hgrows'
      refine .inr ⟨⟨s', bind_eq_of_error hx, ?_⟩, hge.trans hlength⟩
      rw [hcut, ← hmore, List.take_append_of_le_length hge]

theorem compositional (k : Nat) (calls : σ → List Call) :
    Compositional (fun α => @StopsAt σ α k calls) :=
  ⟨liftM, bind⟩

theorem get_bind {f g : σ → Effect σ β} (h : ∀ s, StopsAt k calls (f s) (g s)) :
    StopsAt k calls (get >>= f) (get >>= g) :=
  fun s => h s s

theorem check {x y : Effect σ Unit} (hx : ∀ s, x s =
    if k ≤ (calls s).length then (.error .cancelled, s) else (.ok (), s))
    (hy : ∀ s, y s = (.ok (), s)) : StopsAt k calls x y := by
  intro s
  rw [hx s, hy s]
  refine ⟨List.prefix_refl _, fun hle => ?_⟩
  by_cases hreached : k ≤ (calls s).length
  · rw [if_pos hreached]
    exact .inr ⟨⟨s, rfl, (List.take_of_length_le hle).symm⟩, hreached⟩
  · rw [if_neg hreached]
    exact .inl ⟨rfl, hle⟩

theorem check_bind (call : Call) {x y : Effect σ Unit} {z : Effect σ β} (hx : ∀ s, x s =
    if k ≤ (calls s).length then (.error .cancelled, s) else (.ok (), s))
    (hy : ∀ s, y s = (.ok (), s)) (hz : ∀ s, Ends z s (fun _ s' => calls s' = calls s ++ [call])
      fun _ s' => calls s' = calls s ++ [call]) :
    StopsAt k calls (x >>= fun _ => z) (y >>= fun _ => z) := by
  intro s
  have hcalls : calls (z s).2 = calls s ++ [call] := Ends.snd (hz s)
  rw [bind_eq_of_ok (hy s), hcalls]
  refine ⟨List.prefix_append _ _, fun hle => ?_⟩
  by_cases hreached : k ≤ (calls s).length
  · have hcheck : x s = (.error .cancelled, s) := by rw [hx s, if_pos hreached]
    refine .inr ⟨⟨s, bind_eq_of_error hcheck, ?_⟩, by simp; omega⟩
    rw [Nat.le_antisymm hreached hle, List.take_left]
  · have hcheck : x s = (.ok (), s) := by rw [hx s, if_neg hreached]
    exact .inl ⟨bind_eq_of_ok hcheck, by simp; omega⟩

end StopsAt

end Effect

namespace Logged

@[simp] theorem ends_passOn {call : Call} {answer : Effect σ α} {l : Logged σ}
    {good : α → Logged σ → Prop} {bad : Error → Logged σ → Prop} :
    Ends (passOn call answer) l good bad ↔
      Ends answer l.world (fun a w => good a ⟨w, l.calls ++ [call]⟩)
        fun e w => bad e ⟨w, l.calls ++ [call]⟩ :=
  ends_wrap (fun (result, w) => (result, ⟨w, l.calls ++ [call]⟩)) rfl (fun _ _ => rfl)
    fun _ _ => rfl

end Logged

namespace Watched

def raisedAfter (cancelAt : Option Nat) (count : Nat) : Bool :=
  cancelAt.any (· ≤ count)

def ofLogged (cancelAt : Option Nat) (l : Logged σ) : Watched (Logged σ) :=
  ⟨l, l.calls.length, raisedAfter cancelAt l.calls.length⟩

theorem raisedAfter_succ (cancelAt : Option Nat) (count : Nat) :
    raisedAfter cancelAt (count + 1) =
      (raisedAfter cancelAt count || cancelAt == some (count + 1)) := by
  cases cancelAt with
  | none => rfl
  | some k =>
    rw [Bool.eq_iff_iff]
    simp [raisedAfter]
    omega

theorem mirrors_passOn (cancelAt : Option Nat) (call : Call) (answer : Effect σ α) :
    Mirrors (ofLogged cancelAt) (Logged.passOn call answer)
      (passOn cancelAt (Logged.passOn call answer)) := by
  intro l
  change (_, Watched.mk _ (l.calls.length + 1) (raisedAfter cancelAt l.calls.length ||
    cancelAt == some (l.calls.length + 1))) = (_, Watched.mk _ (l.calls ++ [call]).length
      (raisedAfter cancelAt (l.calls ++ [call]).length))
  rw [List.length_append, List.length_singleton, raisedAfter_succ]
  rfl

def start (cancelAt : Option Nat) (world : σ) : Watched (Logged σ) :=
  ⟨⟨world, []⟩, 0, cancelAt == some 0⟩

theorem start_eq (cancelAt : Option Nat) (world : σ) :
    start cancelAt world = ofLogged cancelAt ⟨world, []⟩ := by
  cases cancelAt with
  | none => rfl
  | some k => cases k <;> rfl

end Watched

def Progress.log (p : Progress (Logged σ)) : List Call :=
  p.world.calls

namespace Run

theorem stopsAt_located {x y : Run (Logged σ) α} (h : StopsAt k Progress.log x y) (group : Group)
    (path : List String) :
    StopsAt k Progress.log (located group path x) (located group path y) := by
  intro p
  have hlocated : ∀ z : Run (Logged σ) α, located group path z p =
      ((z p).1.mapError (Error.located group.name path), (z p).2) := fun _ => rfl
  obtain ⟨hgrows, hstops⟩ := h p
  rw [hlocated y]
  refine ⟨hgrows, fun hle => ?_⟩
  rcases hstops hle with ⟨hx, hle'⟩ | ⟨⟨p', hx, hcut⟩, hge⟩
  · exact .inl ⟨by rw [hlocated x, hx], hle'⟩
  · exact .inr ⟨⟨p', by rw [hlocated x, hx]; rfl, hcut⟩, hge⟩

end Run

namespace Context

def stopping (e : Executor σ) (limit : Nat) (cancelAt : Option Nat) : Context (Logged σ) :=
  ⟨e.logged, fun l => Watched.raisedAfter cancelAt l.calls.length, limit⟩

variable (e : Executor σ) (limit : Nat)

theorem checkCancelled_stopping (p : Progress (Logged σ)) :
    (stopping e limit (some k)).checkCancelled p =
      if k ≤ p.log.length then (.error .cancelled, p) else (.ok (), p) := by
  have hflag : (stopping e limit (some k)).cancelled p.world = decide (k ≤ p.log.length) := rfl
  rw [checkCancelled_eq, hflag]
  simp only [decide_eq_true_eq]
  split <;> rfl

theorem checkCancelled_never (p : Progress (Logged σ)) :
    (stopping e limit none).checkCancelled p = (.ok (), p) := rfl

theorem stopsAt_addRows (count : Nat) : StopsAt k Progress.log
    ((stopping e limit (some k)).addRows count) ((stopping e limit none).addRows count) := by
  apply StopsAt.of_eq
  · exact fun _ => rfl
  · exact fun p => (ends_addRows count).mpr ⟨fun _ => rfl, fun _ => rfl⟩

theorem stopsAt_execute (query : String) (vector : List Value) : StopsAt k Progress.log
    ((stopping e limit (some k)).execute query vector)
    ((stopping e limit none).execute query vector) := by
  apply StopsAt.check_bind ⟨query, [vector], false⟩ (checkCancelled_stopping e limit)
    (checkCancelled_never e limit)
  intro p
  rw [ends_bind, Run.ends_countCall, Run.ends_ofEffect]
  exact Logged.ends_passOn.mpr (ends_of_forall (fun _ _ => rfl) fun _ _ => rfl)

theorem stopsAt_executeBatch (query : String) (vectors : List (List Value)) :
    StopsAt k Progress.log ((stopping e limit (some k)).executeBatch query vectors)
      ((stopping e limit none).executeBatch query vectors) := by
  apply StopsAt.check_bind ⟨query, vectors, true⟩ (checkCancelled_stopping e limit)
    (checkCancelled_never e limit)
  intro p
  rw [ends_bind, Run.ends_countCall, ends_bind, Run.ends_ofEffect]
  refine Logged.ends_passOn.mpr (ends_of_forall (fun answers w => ?_) fun _ _ => rfl)
  rw [ends_ite]
  exact ⟨fun _ => rfl, fun _ => rfl⟩

theorem relates_stopping : Relates (fun _ => StopsAt k Progress.log) (stopping e limit (some k))
    (stopping e limit none) where
  toCompositional := StopsAt.compositional k Progress.log
  located := Run.stopsAt_located
  checkCancelled := .check (checkCancelled_stopping e limit) (checkCancelled_never e limit)
  addRows := stopsAt_addRows e limit
  execute := stopsAt_execute e limit
  executeAll query vectors := by
    have hcomp := StopsAt.compositional (σ := Progress (Logged σ)) k Progress.log
    apply StopsAt.get_bind
    intro p
    exact hcomp.ite (hcomp.mapM (stopsAt_execute e limit query))
      (stopsAt_executeBatch e limit query vectors)

end Context

namespace Assembler

def watched (a : Assembler σ) (cancelAt : Option Nat) : Assembler (Watched (Logged σ)) :=
  ⟨a.catalog, a.executor.logged.watched cancelAt, a.config, Watched.cancelled⟩

def stopping (a : Assembler σ) (cancelAt : Option Nat) : Assembler (Logged σ) :=
  (a.watched cancelAt).through (Watched.ofLogged cancelAt) a.executor.logged

theorem mirrors_stopping (a : Assembler σ) (cancelAt : Option Nat) :
    (a.stopping cancelAt).context.Mirrors (Watched.ofLogged cancelAt)
      (a.watched cancelAt).context where
  answersBatches _ := rfl
  execute _ _ := Watched.mirrors_passOn _ _ _
  executeBatch _ _ := Watched.mirrors_passOn _ _ _
  cancelled _ := rfl
  rowLimit := rfl

theorem stopsAt_start {x y : Run (Logged σ) α} (h : StopsAt k Progress.log x y) :
    StopsAt k Logged.calls (Run.start x) (Run.start y) := by
  intro l
  have hstart : ∀ z : Run (Logged σ) α, Run.start z l =
      ((z ⟨l, .zero⟩).1.map fun a => (a, (z ⟨l, .zero⟩).2.stats), (z ⟨l, .zero⟩).2.world) :=
    fun _ => rfl
  obtain ⟨hgrows, hstops⟩ := h ⟨l, .zero⟩
  rw [hstart y]
  refine ⟨hgrows, fun hle => ?_⟩
  rcases hstops hle with ⟨hx, hle'⟩ | ⟨⟨p', hx, hcut⟩, hge⟩
  · exact .inl ⟨by rw [hstart x, hx], hle'⟩
  · exact .inr ⟨⟨p'.world, by rw [hstart x, hx]; rfl, hcut⟩, hge⟩

theorem relates_stopping (a : Assembler σ) (k : Nat) :
    Relates (fun _ => StopsAt k Logged.calls) (a.stopping (some k)) (a.stopping none) where
  toCompositional := StopsAt.compositional k Logged.calls
  catalog := rfl
  assembleIn group scope := by
    change StopsAt k Logged.calls ((a.stopping (some k)).assembleIn group scope)
      ((a.stopping none).assembleIn group scope)
    rw [assembleIn_eq, assembleIn_eq]
    apply StopsAt.get_bind
    intro l
    have hnodes := relates_nodes (a := a.stopping (some k)) (b := a.stopping none)
      (Context.relates_stopping a.executor a.config.rowLimit) rfl
    exact (stopsAt_start (hnodes _ group scope)).bind fun result => .liftM (.ok _)

/-- What becomes of a run when it is cancelled after a number of calls. -/
structure CutShort (k : Nat) (cut full : Except Error α × Watched (Logged σ)) : Prop where
  stops : k < full.2.world.calls.length →
    cut.1 = .error .cancelled ∧ cut.2.world.calls = full.2.world.calls.take k
  calls_eq : full.2.world.calls.length ≤ k → cut.2.world.calls = full.2.world.calls
  fst_eq : full.2.world.calls.length < k → cut.1 = full.1

theorem cutShort {x y : Effect (Logged σ) α} {x' y' : Effect (Watched (Logged σ)) α}
    (hx : Mirrors (Watched.ofLogged (some k)) x x') (hy : Mirrors (Watched.ofLogged none) y y')
    (h : StopsAt k Logged.calls x y) (world : σ) :
    CutShort k (x' (.start (some k) world)) (y' (.start none world)) := by
  rw [Watched.start_eq, Watched.start_eq, hx, hy]
  obtain ⟨_, hstops⟩ := h ⟨world, []⟩
  rcases hstops (Nat.zero_le k) with ⟨hxy, hle⟩ | ⟨⟨l, hxy, hcut⟩, hge⟩
  · rw [hxy]
    exact ⟨fun hlt => absurd hle (Nat.not_le.mpr hlt), fun _ => rfl, fun _ => rfl⟩
  · rw [hxy]
    refine ⟨fun _ => ⟨rfl, hcut⟩, fun hle => ?_, fun hlt => absurd hge (Nat.not_le.mpr hlt)⟩
    exact hcut.trans (List.take_of_length_le hle)

theorem cutShort_assembly (a : Assembler σ) (k : Nat) (world : σ) :
    (∀ name, CutShort k
      ((a.watched (some k)).assembleWithStats name (.start (some k) world))
      ((a.watched none).assembleWithStats name (.start none world))) ∧
    (∀ name, CutShort k ((a.watched (some k)).assemble name (.start (some k) world))
      ((a.watched none).assemble name (.start none world))) ∧
    (∀ name tag, CutShort k ((a.watched (some k)).assembleXml name tag (.start (some k) world))
      ((a.watched none).assembleXml name tag (.start none world))) ∧
    ∀ name rows, CutShort k
      ((a.watched (some k)).assembleWithin name rows (.start (some k) world))
      ((a.watched none).assembleWithin name rows (.start none world)) := by
  have hflag := fun cancelAt => relates_through (mirrors_stopping a cancelAt)
  have hstops := relates_stopping a k
  refine ⟨fun name => ?_, fun name => ?_, fun name tag => ?_, fun name rows => ?_⟩
  · exact cutShort ((hflag (some k)).assembleWithStats name) ((hflag none).assembleWithStats name)
      (hstops.assembleWithStats name) world
  · exact cutShort ((hflag (some k)).assemble name) ((hflag none).assemble name)
      (hstops.assemble name) world
  · exact cutShort ((hflag (some k)).assembleXml name tag) ((hflag none).assembleXml name tag)
      (hstops.assembleXml name tag) world
  · exact cutShort ((hflag (some k)).assembleWithin name rows)
      ((hflag none).assembleWithin name rows) (hstops.assembleWithin name rows) world

end Assembler

end NestedViews
