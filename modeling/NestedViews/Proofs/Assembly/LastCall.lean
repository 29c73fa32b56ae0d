import NestedViews.Proofs.Assembly.Cancellation
import NestedViews.Proofs.Assembly.Entry

/-! Assemblies that are asked to stop during their last call. Whether to stop is only looked at in
front of groups and of calls, so where nothing is left to be visited it is not noticed. -/

namespace NestedViews

open Effect

variable {σ α β : Type} {k : Nat} {calls : σ → List Call}

namespace Effect

variable {x y : Effect σ α} {f g : α → Effect σ β} {s s' t : σ}

/-- There are calls on the way to a state, and a computation that is to stop after a number of calls
goes that way like another one as long as there are no more. -/
def KeepsUp (k : Nat) (calls : σ → List Call) (x y : Effect σ α) (s t : σ) : Prop :=
  (calls s).length < (calls t).length ∧ ((calls t).length ≤ k → x s = y s)

def EndsWithCall (k : Nat) (calls : σ → List Call) (x y : Effect σ α) : Prop :=
  ∀ s a t, y s = (.ok a, t) → KeepsUp k calls x y s t

def ChecksCalls (k : Nat) (calls : σ → List Call) (x y : Effect σ α) : Prop :=
  ∀ s a t, y s = (.ok a, t) → calls t = calls s ∧ x s = y s ∨ KeepsUp k calls x y s t

theorem exists_of_bind_ok {b : β} (h : (y >>= g) s = (.ok b, t)) :
    ∃ a s', y s = (.ok a, s') ∧ g a s' = (.ok b, t) := by
  rcases hy : y s with ⟨e | a, s'⟩
  · rw [bind_eq_of_error hy] at h
    cases h
  · rw [bind_eq_of_ok hy] at h
    exact ⟨a, s', rfl, h⟩

namespace KeepsUp

theorem bind {a : α} (h : KeepsUp k calls x y s s') (hy : y s = (.ok a, s'))
    (hf : calls t = calls s' ∧ f a s' = g a s' ∨ KeepsUp k calls (f a) (g a) s' t) :
    KeepsUp k calls (x >>= f) (y >>= g) s t := by
  obtain ⟨hlt, hx⟩ := h
  rcases hf with ⟨hcalls, hf⟩ | ⟨hlt', hf⟩
  · rw [KeepsUp, hcalls, bind_eq_of_ok hy]
    exact ⟨hlt, fun hle => (bind_eq_of_ok ((hx hle).trans hy)).trans hf⟩
  · refine ⟨hlt.trans hlt', fun hle => ?_⟩
    rw [bind_eq_of_ok hy, bind_eq_of_ok ((hx (hlt'.le.trans hle)).trans hy), hf hle]

theorem of_bind {a : α} (hx : (calls s).length < k → x s = (.ok a, s')) (hy : y s = (.ok a, s'))
    (hcalls : calls s' = calls s) (hf : KeepsUp k calls (f a) (g a) s' t) :
    KeepsUp k calls (x >>= f) (y >>= g) s t := by
  obtain ⟨hlt, hf⟩ := hf
  rw [hcalls] at hlt
  refine ⟨hlt, fun hle => ?_⟩
  rw [bind_eq_of_ok hy, bind_eq_of_ok (hx (hlt.trans_le hle)), hf hle]

end KeepsUp

namespace EndsWithCall

theorem of_call (call : Call) (h : ∀ s, Ends y s (fun _ t => calls t = calls s ++ [call])
    fun _ _ => True) : EndsWithCall k calls y y := by
  intro s a t hy
  rw [KeepsUp, (h s).of_run hy, List.length_append, List.length_singleton]
  exact ⟨Nat.lt_succ_self _, fun _ => rfl⟩

theorem bind (h : EndsWithCall k calls x y) (hf : ∀ a, ChecksCalls k calls (f a) (g a)) :
    EndsWithCall k calls (x >>= f) (y >>= g) := by
  intro s b t hrun
  obtain ⟨a, s', hy, hg⟩ := exists_of_bind_ok hrun
  exact (h s a s' hy).bind hy (hf a s' b t hg)

theorem liftM_bind (answer : Except Error α) (hf : ∀ a, EndsWithCall k calls (f a) (g a)) :
    EndsWithCall k calls (liftM answer >>= f) (liftM answer >>= g) := by
  cases answer with
  | ok a => exact hf a
  | error e =>
    intro s b t hrun
    cases hrun

theorem check_bind (hx : ∀ s, x s = if k ≤ (calls s).length then (.error .cancelled, s) else y s)
    (hy : ∀ s, Ends y s (fun _ t => calls t = calls s) fun _ _ => True)
    (hf : ∀ a, EndsWithCall k calls (f a) (g a)) : EndsWithCall k calls (x >>= f) (y >>= g) := by
  intro s b t hrun
  obtain ⟨a, s', hrun', hg⟩ := exists_of_bind_ok hrun
  refine .of_bind (fun hlt => ?_) hrun' ((hy s).of_run hrun') (hf a s' b t hg)
  rw [hx s, if_neg (Nat.not_le.mpr hlt), hrun']

end EndsWithCall

namespace ChecksCalls

theorem of_endsWithCall (h : EndsWithCall k calls x y) : ChecksCalls k calls x y :=
  fun s a t hy => .inr (h s a t hy)

theorem of_eq (h : ∀ s, x s = y s)
    (hy : ∀ s, Ends y s (fun _ t => calls t = calls s) fun _ _ => True) :
    ChecksCalls k calls x y :=
  fun s _ _ hrun => .inl ⟨(hy s).of_run hrun, h s⟩

theorem liftM (answer : Except Error α) :
    ChecksCalls k calls (liftM answer : Effect σ α) (liftM answer) :=
  of_eq (fun _ => rfl) fun _ => by cases answer <;> trivial

theorem bind (h : ChecksCalls k calls x y) (hf : ∀ a, ChecksCalls k calls (f a) (g a)) :
    ChecksCalls k calls (x >>= f) (y >>= g) := by
  intro s b t hrun
  obtain ⟨a, s', hy, hg⟩ := exists_of_bind_ok hrun
  rcases h s a s' hy with ⟨hcalls, hx⟩ | hkeeps
  · rcases hf a s' b t hg with ⟨hcalls', hf⟩ | hkeeps
    · left
      rw [bind_eq_of_ok hy, bind_eq_of_ok (hx.trans hy)]
      exact ⟨hcalls'.trans hcalls, hf⟩
    · exact .inr (.of_bind (fun _ => hx.trans hy) hy hcalls hkeeps)
  · exact .inr (hkeeps.bind hy (hf a s' b t hg))

theorem compositional (k : Nat) (calls : σ → List Call) :
    Compositional (fun α => @ChecksCalls σ α k calls) :=
  ⟨liftM, bind⟩

theorem get_bind {f g : σ → Effect σ β} (h : ∀ s, ChecksCalls k calls (f s) (g s)) :
    ChecksCalls k calls (get >>= f) (get >>= g) :=
  fun s => h s s

end ChecksCalls

end Effect

namespace Run

theorem endsWithCall_located {x y : Run (Logged σ) α} (h : EndsWithCall k Progress.log x y)
    (group : Group) (path : List String) :
    EndsWithCall k Progress.log (located group path x) (located group path y) := by
  intro p a p' hrun
  have hlocated : ∀ z : Run (Logged σ) α, located group path z p =
      ((z p).1.mapError (Error.located group.name path), (z p).2) := fun _ => rfl
  rw [hlocated y] at hrun
  rcases hy : y p with ⟨e | b, q⟩ <;> rw [hy] at hrun
  · cases hrun
  · obtain ⟨hlt, hx⟩ := h p b q hy
    cases hrun
    exact ⟨hlt, fun hle => by rw [hlocated x, hlocated y, hx hle]⟩

end Run

namespace Context

variable (e : Executor σ) (limit : Nat)

theorem checkCancelled_stopping_eq (p : Progress (Logged σ)) :
    (stopping e limit (some k)).checkCancelled p =
      if k ≤ p.log.length then (.error .cancelled, p)
      else (stopping e limit none).checkCancelled p :=
  checkCancelled_stopping e limit p

theorem prepare_stopping_eq (group : Group) (path : List String) (p : Progress (Logged σ)) :
    (stopping e limit (some k)).prepare group path p =
      if k ≤ p.log.length then (.error .cancelled, p)
      else (stopping e limit none).prepare group path p := by
  by_cases hle : k ≤ p.log.length
  · rw [if_pos hle]
    apply bind_eq_of_error
    rw [checkCancelled_stopping, if_pos hle]
  · have hcheck : (stopping e limit (some k)).checkCancelled p = (.ok (), p) := by
      rw [checkCancelled_stopping, if_neg hle]
    rw [if_neg hle, prepare, prepare, bind_eq_of_ok hcheck,
      bind_eq_of_ok (checkCancelled_never e limit p)]

theorem endsWithCall_execute (query : String) (vector : List Value) :
    EndsWithCall k Progress.log ((stopping e limit (some k)).execute query vector)
      ((stopping e limit none).execute query vector) := by
  apply EndsWithCall.check_bind (checkCancelled_stopping_eq e limit)
  · intro p
    rw [ends_checkCancelled]
    exact ⟨fun _ => trivial, fun _ => rfl⟩
  intro _
  apply EndsWithCall.of_call ⟨query, [vector], false⟩
  intro p
  rw [ends_bind, Run.ends_countCall, Run.ends_ofEffect]
  exact Logged.ends_passOn.mpr (ends_of_forall (fun _ _ => rfl) fun _ _ => trivial)

theorem checksCalls_addRows (count : Nat) : ChecksCalls k Progress.log
    ((stopping e limit (some k)).addRows count) ((stopping e limit none).addRows count) := by
  apply ChecksCalls.of_eq
  · exact fun _ => rfl
  · exact fun p => (ends_addRows count).mpr ⟨fun _ => trivial, fun _ => rfl⟩

theorem ends_prepare_log (group : Group) (path : List String) (p : Progress (Logged σ)) :
    Ends ((stopping e limit none).prepare group path) p (fun _ q => q.log = p.log)
      fun _ _ => True := by
  rw [ends_prepare_iff]
  refine ⟨fun _ => trivial, fun _ => ⟨fun _ => trivial, fun _ => ?_⟩⟩
  cases group.plan <;> trivial

end Context

namespace Outline

variable (e : Executor σ) (limit : Nat)

mutual

theorem endsWithCall_assembleAt : (o : Outline) → (scope : Scope) → (path : List String) →
    EndsWithCall k Progress.log (o.assembleAt (.stopping e limit (some k)) scope path)
      (o.assembleAt (.stopping e limit none) scope path)
  | .mk group nested, scope, path => by
    have hcomp := ChecksCalls.compositional (σ := Progress (Logged σ)) k Progress.log
    rw [assembleAt, assembleAt]
    apply Run.endsWithCall_located
    apply EndsWithCall.check_bind (Context.prepare_stopping_eq e limit group path)
      (Context.ends_prepare_log e limit group path)
    intro plan
    apply EndsWithCall.liftM_bind
    intro vector
    apply (Context.endsWithCall_execute e limit plan.query vector).bind
    intro rows
    apply (Context.checksCalls_addRows e limit rows.length).bind
    intro _
    apply hcomp.mapM
    intro row
    apply hcomp.bind (hcomp.liftM (group.checkRow row))
    intro _
    exact (checksCalls_assembleNested nested (⟨group, row⟩ :: scope) (path ++ [group.name])).bind
      fun collections => hcomp.pure _

theorem checksCalls_assembleNested : (outlines : List Outline) → (scope : Scope) →
    (path : List String) →
      ChecksCalls k Progress.log (assembleNested (.stopping e limit (some k)) outlines scope path)
        (assembleNested (.stopping e limit none) outlines scope path)
  | [], _, _ => (ChecksCalls.compositional k Progress.log).pure []
  | o :: rest, scope, path => by
    have hcomp := ChecksCalls.compositional (σ := Progress (Logged σ)) k Progress.log
    rw [assembleNested, assembleNested]
    apply hcomp.bind (.of_endsWithCall (endsWithCall_assembleAt o scope path))
    intro nodes
    exact hcomp.bind (checksCalls_assembleNested rest scope path) fun collections => hcomp.pure _

end

end Outline

namespace Assembler

variable {a : Assembler σ}

theorem checksCalls_start {x y : Run (Logged σ) α} (h : ChecksCalls k Progress.log x y) :
    ChecksCalls k Logged.calls (Run.start x) (Run.start y) := by
  intro l result l' hrun
  have hstart : ∀ z : Run (Logged σ) α, Run.start z l =
      ((z ⟨l, .zero⟩).1.map fun a => (a, (z ⟨l, .zero⟩).2.stats), (z ⟨l, .zero⟩).2.world) :=
    fun _ => rfl
  rw [hstart y] at hrun
  rcases hy : y ⟨l, .zero⟩ with ⟨e | b, q⟩ <;> rw [hy] at hrun
  · cases hrun
  · have hkeeps := h ⟨l, .zero⟩ b q hy
    cases hrun
    have heq : x ⟨l, .zero⟩ = y ⟨l, .zero⟩ → Run.start x l = Run.start y l := by
      intro hx
      rw [hstart x, hstart y, hx]
    exact hkeeps.imp (.imp id heq) (.imp id fun hx hle => heq (hx hle))

theorem relates_checksCalls (hstrategy : ∀ w, a.strategy w = .depthFirst) (k : Nat) :
    Relates (fun _ => ChecksCalls k Logged.calls) (a.stopping (some k)) (a.stopping none) where
  toCompositional := ChecksCalls.compositional k Logged.calls
  catalog := rfl
  assembleIn group scope := by
    change ChecksCalls k Logged.calls ((a.stopping (some k)).assembleIn group scope)
      ((a.stopping none).assembleIn group scope)
    rw [assembleIn_eq, assembleIn_eq]
    apply ChecksCalls.get_bind
    intro l
    have hdepthFirst : ∀ cancelAt, (a.stopping cancelAt).strategy l = .depthFirst :=
      fun _ => hstrategy l.world
    rw [hdepthFirst, hdepthFirst]
    refine .bind (checksCalls_start (.of_endsWithCall ?_)) fun result => .liftM (.ok _)
    exact Outline.endsWithCall_assembleAt a.executor a.config.rowLimit _ scope scope.path

theorem ends_assembleIn_cancelled {world : σ} (hcancelled : a.cancelled world) (g : Group)
    (scope : Scope) :
    Ends (a.assembleIn g scope) world (fun _ _ => False) fun e _ => e = .cancelled := by
  apply ends_assembleIn_strategies
  · intro _
    cases a.catalog.outline g with
    | mk group nested =>
      rw [Outline.assembleAt, Run.ends_located, ends_bind, Context.ends_prepare_iff]
      exact ⟨fun _ => rfl, fun h => absurd hcancelled h⟩
  · intro _
    cases a.catalog.outline g with
    | mk group nested =>
      rw [Outline.assembleAll, Run.ends_located, ends_bind, Context.ends_prepare_iff]
      exact ⟨fun _ => rfl, fun h => absurd hcancelled h⟩

theorem ends_assembleWithStats_cancelled {world : σ} {name : String} (h : a.cancelled world) :
    Ends (a.assembleWithStats name) world (fun _ _ => False) fun _ _ => True := by
  apply ends_assembleWithStats_enters
  · exact fun _ _ => trivial
  · exact fun g scope _ => (ends_assembleIn_cancelled h g scope).mono (fun _ _ => id)
      fun _ _ _ => trivial

theorem ends_assemble_cancelled {world : σ} {name : String} (h : a.cancelled world) :
    Ends (a.assemble name) world (fun _ _ => False) fun _ _ => True := by
  rw [assemble_eq, ends_bind]
  exact (ends_assembleWithStats_cancelled h).imp fun _ _ => False.elim

theorem ends_assembleWithin_cancelled {world : σ} {name : String} {rows : List Row}
    (h : a.cancelled world) :
    Ends (a.assembleWithin name rows) world (fun _ _ => False) fun _ _ => True := by
  apply ends_assembleWithin_enters
  · exact fun _ _ => trivial
  · exact fun g scope _ => (ends_assembleIn_cancelled h g scope).mono (fun _ _ => id)
      fun _ _ _ => trivial

/-- What becomes of a run that is cancelled during the call with a number, or before it starts if
that is zero. -/
structure Overtaken (depthFirst : Prop) (k : Nat) (cut full : Except Error α × Watched (Logged σ)) :
    Prop where
  stops : k < full.2.world.calls.length → cut.1 = .error .cancelled
  fails : k = 0 → ∀ b, cut.1 ≠ .ok b
  fst_eq : cut.1 = .error .cancelled ∨ cut.1 = full.1
  last : depthFirst → k = full.2.world.calls.length → ∀ b, full.1 = .ok b → cut.1 = .ok b

theorem overtaken {depthFirst : Prop} {x y : Effect (Logged σ) α}
    {x' y' : Effect (Watched (Logged σ)) α} (hx : Mirrors (Watched.ofLogged (some k)) x x')
    (hy : Mirrors (Watched.ofLogged none) y y') (hstops : StopsAt k Logged.calls x y)
    (hchecks : depthFirst → ChecksCalls k Logged.calls x y)
    (hfails : ∀ w, w.cancelled = true → Ends x' w (fun _ _ => False) fun _ _ => True)
    (world : σ) :
    Overtaken depthFirst k (x' (.start (some k) world)) (y' (.start none world)) := by
  have hcut : ∀ b, k = 0 → (x' (.start (some k) world)).1 ≠ .ok b := by
    rintro b rfl hok
    exact (hfails (.start (some 0) world) rfl).of_ok hok
  rw [Watched.start_eq, hx] at hcut ⊢
  rw [Watched.start_eq, hy]
  obtain ⟨_, hstops⟩ := hstops ⟨world, []⟩
  refine ⟨fun hlt => ?_, fun hk b => hcut b hk, ?_, fun hdepthFirst hlast b hok => ?_⟩
  · rcases hstops (Nat.zero_le k) with ⟨_, hle⟩ | ⟨⟨l, hcancelled, _⟩, _⟩
    · exact absurd hle (Nat.not_le.mpr hlt)
    · rw [hcancelled]
  · rcases hstops (Nat.zero_le k) with ⟨hxy, _⟩ | ⟨⟨l, hcancelled, _⟩, _⟩
    · rw [hxy]
      exact .inr rfl
    · rw [hcancelled]
      exact .inl rfl
  · have hxy : x ⟨world, []⟩ = y ⟨world, []⟩ := by
      rcases hchecks hdepthFirst ⟨world, []⟩ b _ (Prod.ext hok rfl) with ⟨_, hxy⟩ | ⟨_, hxy⟩
      · exact hxy
      · exact hxy (Nat.le_of_eq hlast.symm)
    rw [hxy]
    exact hok

/-- An assembly that is cancelled before it starts, or during a call that is not its last one, does
not succeed. Cancelled during its last call, it either fails for that or ends as it would have
ended; depth first, it still succeeds if it would have. -/
theorem overtaken_assembly (a : Assembler σ) (k : Nat) (world : σ) :
    (∀ name, Overtaken (∀ w, a.strategy w = .depthFirst) k
      ((a.watched (some k)).assembleWithStats name (.start (some k) world))
      ((a.watched none).assembleWithStats name (.start none world))) ∧
    (∀ name, Overtaken (∀ w, a.strategy w = .depthFirst) k
      ((a.watched (some k)).assemble name (.start (some k) world))
      ((a.watched none).assemble name (.start none world))) ∧
    (∀ name tag, Overtaken (∀ w, a.strategy w = .depthFirst) k
      ((a.watched (some k)).assembleXml name tag (.start (some k) world))
      ((a.watched none).assembleXml name tag (.start none world))) ∧
    ∀ name rows, Overtaken (∀ w, a.strategy w = .depthFirst) k
      ((a.watched (some k)).assembleWithin name rows (.start (some k) world))
      ((a.watched none).assembleWithin name rows (.start none world)) := by
  have hflag := fun cancelAt => relates_through (mirrors_stopping a cancelAt)
  have hstops := relates_stopping a k
  have hchecks := fun hstrategy => relates_checksCalls (a := a) hstrategy k
  refine ⟨fun name => ?_, fun name => ?_, fun name tag => ?_, fun name rows => ?_⟩
  · exact overtaken ((hflag (some k)).assembleWithStats name) ((hflag none).assembleWithStats name)
      (hstops.assembleWithStats name) (fun h => (hchecks h).assembleWithStats name)
      (fun _ h => ends_assembleWithStats_cancelled h) world
  · exact overtaken ((hflag (some k)).assemble name) ((hflag none).assemble name)
      (hstops.assemble name) (fun h => (hchecks h).assemble name)
      (fun _ h => ends_assemble_cancelled h) world
  · exact overtaken ((hflag (some k)).assembleXml name tag) ((hflag none).assembleXml name tag)
      (hstops.assembleXml name tag) (fun h => (hchecks h).assembleXml name tag)
      (fun _ h => (ends_bind _ _).mpr (ends_assemble_cancelled h)) world
  · exact overtaken ((hflag (some k)).assembleWithin name rows)
      ((hflag none).assembleWithin name rows) (hstops.assembleWithin name rows)
      (fun h => (hchecks h).assembleWithin name rows)
      (fun _ h => ends_assembleWithin_cancelled h) world

theorem assemble_orders_cancelled_in_last_call :
    orderAssembler.catalog.Built ∧
      ((orderAssembler.watched none).assemble "orders" (.start none ())).2.world.calls.length = 4 ∧
      ((orderAssembler.watched (some 4)).assemble "orders" (.start (some 4) ())).2.cancelled ∧
      ∃ doc, ((orderAssembler.watched (some 4)).assemble "orders" (.start (some 4) ())).1 =
        .ok doc := by
  refine ⟨built_orderAssembler, by decide +kernel, by decide +kernel, ?_⟩
  apply exists_ok_of_isSome
  decide +kernel

end Assembler

end NestedViews
