import NestedViews.Proofs.Assembly.FailFast
import NestedViews.Proofs.Assembly.Overlap.Cancellation

namespace NestedViews

open Assembler Effect

variable {σ α : Type}

namespace Recorded

def setWorld (r : Recorded σ) (world : σ) : Recorded σ :=
  { r with world }

def add (x : Exchange) (r : Recorded σ) : Recorded σ :=
  { r with exchanges := r.exchanges ++ [x] }

def issue (call : Call) (rows : α → List (List Row)) (answer : Async σ α) : Async (Recorded σ) α :=
  (Future.within world setWorld answer).bind fun result =>
    .step (add ⟨call, result.map rows⟩) fun _ => .ready result

def issueAnswered (call : Call) (rows : α → List (List Row)) (answer : Async σ α) :
    Async (Recorded σ) α :=
  (Future.within world setWorld answer).bind fun result =>
    match result with
    | .ok a => .step (add ⟨call, .ok (rows a)⟩) fun _ => .ready (.ok a)
    | .error e => .ready (.error e)

variable (call : Call) (rows : α → List (List Row)) (answer : Async σ α)

theorem run_issue : (issue call rows answer).run = passOn call rows answer.run := by
  funext r
  have hrun := Future.run_within world setWorld (fun _ _ => rfl) (fun _ => rfl)
    (fun _ _ _ => rfl) answer r
  refine (Future.run_bind _ _ r).trans ?_
  rw [hrun]
  rfl

theorem follows_issue : Async.Follows (.seen world) (issue call rows answer) answer := by
  have hwithin : Async.Follows (.seen world) (Future.within world setWorld answer) answer :=
    Future.follows_within (fun _ _ => rfl) answer
  have hbind : Future.Follows (.seen world) (fun result => ∃ e, result = .error e) Eq
      (issue call rows answer) (Future.bind answer .ready) := by
    apply Future.Follows.bind hwithin
    · rintro result _ rfl
      exact .silent (fun _ _ => rfl) fun _ _ => .ready rfl
    · rintro _ ⟨e, rfl⟩
      exact fun _ => ⟨e, rfl⟩
  have hpure : Future.bind answer .ready = answer := bind_pure (m := Future σ) answer
  rwa [hpure] at hbind

theorem follows_issueAnswered :
    Async.Follows ⟨id, fun _ => False, True⟩ (issue call rows answer)
      (issueAnswered call rows answer) := by
  have hself : Async.Follows ⟨id, fun _ => False, True⟩ (Future.within world setWorld answer)
      (Future.within world setWorld answer) := Future.follows_self _
  apply Future.Follows.bind hself
  · rintro result _ rfl
    cases result with
    | error e => exact .fails trivial fun _ => ⟨e, rfl⟩
    | ok a => exact .step (fun _ _ => rfl) fun _ _ => .ready rfl
  · rintro _ ⟨e, rfl⟩
    exact fun _ => ⟨e, rfl⟩

def Extends (r r' : Recorded σ) : Prop :=
  r.exchanges <+: r'.exchanges

instance : IsPreorder (Recorded σ) Extends where
  refl _ := List.prefix_refl _
  trans _ _ _ := List.IsPrefix.trans

theorem ensures_issue (r : Recorded σ) : Future.Ensures Extends (fun result r' =>
    ∀ err, result = .error err → ∃ x ∈ r'.exchanges, x.answer = .error err)
      (issue call rows answer) r := by
  have hworld : ∀ (r : Recorded σ) (world : σ), Extends r (r.setWorld world) :=
    fun _ _ => List.prefix_refl _
  refine .bind ((Future.Ensures.of_within hworld answer r).mono fun result r' _ => ?_)
  refine ⟨List.prefix_append _ _, ?_⟩
  rintro err rfl
  exact ⟨_, List.mem_append_right _ (.head _), rfl⟩

def KeepsSuccess (r r' : Recorded σ) : Prop :=
  (∀ x ∈ r.exchanges, x.Succeeded) → ∀ x ∈ r'.exchanges, x.Succeeded

instance : IsPreorder (Recorded σ) KeepsSuccess where
  refl _ := id
  trans _ _ _ h h' := h' ∘ h

theorem ensures_issueAnswered (r : Recorded σ) :
    Future.Ensures KeepsSuccess (fun _ _ => True) (issueAnswered call rows answer) r := by
  have hworld : ∀ (r : Recorded σ) (world : σ), KeepsSuccess r (r.setWorld world) := fun _ _ => id
  refine .bind ((Future.Ensures.of_within hworld answer r).mono fun result r' _ => ?_)
  cases result with
  | error e => trivial
  | ok a =>
    refine ⟨fun h => ?_, trivial⟩
    exact List.forall_mem_append.mpr ⟨h, List.forall_mem_singleton.mpr ⟨rows a, rfl⟩⟩

end Recorded

def SuspendingExecutor.recorded (e : SuspendingExecutor σ) : SuspendingExecutor (Recorded σ) where
  answersBatches r := e.answersBatches r.world
  execute query vector := Recorded.issue ⟨query, [vector], false⟩ ([·]) (e.execute query vector)
  executeBatch query vectors :=
    Recorded.issue ⟨query, vectors, true⟩ id (e.executeBatch query vectors)
  turns r := e.turns r.world

def SuspendingExecutor.recordedAnswered (e : SuspendingExecutor σ) :
    SuspendingExecutor (Recorded σ) :=
  { e.recorded with
    execute := fun query vector =>
      Recorded.issueAnswered ⟨query, [vector], false⟩ ([·]) (e.execute query vector)
    executeBatch := fun query vectors =>
      Recorded.issueAnswered ⟨query, vectors, true⟩ id (e.executeBatch query vectors) }

theorem SuspendingExecutor.Prompt.recorded {e : SuspendingExecutor σ} (h : e.Prompt) :
    e.recorded.Prompt where
  execute query vector := (h.execute query vector).within.bind fun _ _ => trivial
  executeBatch query vectors := (h.executeBatch query vectors).within.bind fun _ _ => trivial

variable {requested g h : Group} {scope : Scope} {path : List String}

theorem mem_subtree_of_places {c : Catalog} (hc : c.Coherent) (hg : g ∈ c.subtree requested)
    (hplace : (c.outline g).Places (c.pathTo g) h path) :
    h ∈ c.subtree requested ∧ path = c.pathTo h := by
  have hmem : g ∈ c.groups := (List.mem_filter.mp hg).1
  revert hg hplace
  apply hc.induction _ hmem
  intro g hmem ih hg hplace
  rw [hc.outline_eq hmem] at hplace
  cases hplace with
  | here => exact ⟨hg, rfl⟩
  | nested ho hplace =>
    obtain ⟨child, hchild, rfl⟩ := List.mem_map.mp ho
    rw [← hc.pathTo_of_mem_children hmem hchild] at hplace
    exact ih child hchild (hc.mem_subtree_of_mem_children hg hchild) hplace

theorem Placed.located {c : Catalog} {exchanges : List Exchange} {err : Error}
    (h : Placed c requested exchanges err) (group : String) (path : List String) :
    Placed c requested exchanges (err.located group path) := by
  have hsame : err.located group path = err :=
    h.elim Halts.located_eq fun h => Error.located_of_not_unplaced h.1
  rwa [hsame]

/-- What is left of failing fast when other calls may be under way. -/
structure FailsInPlace (c : Catalog) (requested : Group) (exchanges : List Exchange)
    (result : Except Error α) : Prop where
  succeeded : ∀ b, result = .ok b → ∀ x ∈ exchanges, x.Succeeded
  error : ∀ err, result = .error err → Placed c requested exchanges err

namespace FailsInPlace

variable {c : Catalog} {exchanges : List Exchange} {err : Error}

theorem of_succeeded (h : ∀ x ∈ exchanges, x.Succeeded) (b : α) :
    FailsInPlace c requested exchanges (.ok b : Except Error α) where
  succeeded _ _ := h
  error _ h := nomatch h

theorem of_placed (h : Placed c requested exchanges err) :
    FailsInPlace c requested exchanges (.error err : Except Error α) where
  succeeded _ h := nomatch h
  error := by
    rintro _ ⟨⟩
    exact h

end FailsInPlace

namespace SuspendingAssembler

variable {a : SuspendingAssembler σ}

def recorded (a : SuspendingAssembler σ) : SuspendingAssembler (Recorded σ) :=
  a.through Recorded.world a.executor.recorded

theorem blocking_recorded (a : SuspendingAssembler σ) :
    a.recorded.blocking = a.blocking.recorded := by
  have hexecutor : a.executor.recorded.blocking = a.executor.blocking.recorded := by
    unfold SuspendingExecutor.blocking SuspendingExecutor.recorded
    simp only [Recorded.run_issue]
    rfl
  unfold blocking recorded through
  rw [hexecutor]
  rfl

theorem sequential_recorded (h : a.resolver.Sequential) : a.recorded.resolver.Sequential :=
  h.imp_right fun hprompt => hprompt.recorded

theorem failsFast_sequential (hc : a.catalog.Built) (h : a.resolver.Sequential) (world : σ) :
    Guards world (fun _ => FailsFast a.blocking world) a.recorded a := by
  have hrecorded := sequential_recorded h
  obtain ⟨hstats, hassemble, hxml, hwithin⟩ := failsFast_assembly (a := a.blocking) hc world
  constructor
  · rwa [assembleWithStats_blocking h, assembleWithStats_blocking hrecorded, blocking_recorded]
  · rwa [assemble_blocking h, assemble_blocking hrecorded, blocking_recorded]
  · rwa [assembleXml_blocking h, assembleXml_blocking hrecorded, blocking_recorded]
  · rwa [assembleWithin_blocking h, assembleWithin_blocking hrecorded, blocking_recorded]

theorem relates_recorded (a : SuspendingAssembler σ) :
    Relates (fun _ => Effect.Mirrors Recorded.world) a.recorded a :=
  relates_through ⟨fun _ _ => rfl, fun _ _ => Recorded.follows_issue _ _ _,
    fun _ _ => Recorded.follows_issue _ _ _, fun _ _ => rfl, fun _ _ => .inl rfl, rfl, rfl⟩

theorem relates_recordedAnswered (a : SuspendingAssembler σ) :
    Relates (fun _ => Effect.Follows ⟨id, fun _ => False, True⟩ (fun _ _ => True)
      Recorded.KeepsSuccess) a.recorded (a.through Recorded.world a.executor.recordedAnswered) := by
  have hfollows : a.recorded.resolver.Follows ⟨id, fun _ => False, True⟩
      (a.through Recorded.world a.executor.recordedAnswered).resolver :=
    ⟨fun _ _ => rfl, fun _ _ => Recorded.follows_issueAnswered _ _ _,
      fun _ _ => Recorded.follows_issueAnswered _ _ _, fun _ _ => rfl, fun _ _ => .inl rfl, rfl,
      rfl⟩
  refine relates_follows hfollows rfl rfl (Resolver.keeps_true _)
    ⟨inferInstance, fun _ _ _ _ _ => trivial, fun _ _ _ => trivial, fun _ _ _ => trivial, ?_, ?_⟩
  · exact fun _ _ r _ => (Recorded.ensures_issueAnswered _ _ _ r).mono fun _ _ _ _ _ => trivial
  · exact fun _ _ r _ => (Recorded.ensures_issueAnswered _ _ _ r).mono fun _ _ _ _ _ => trivial

theorem keeps_recorded (a : SuspendingAssembler σ) (c : Catalog) (requested : Group) :
    a.recorded.resolver.Keeps Recorded.Extends
      (fun err r => err.Unplaced ∨ Placed c requested r.exchanges err)
      fun err r => Placed c requested r.exchanges err := by
  refine ⟨inferInstance, ?_, fun _ _ => .inr, fun _ _ => .inl, ?_, ?_⟩
  · rintro err r r' hextends (hhalts | ⟨hplaced, x, hx, hanswer⟩)
    · exact .inl hhalts
    · exact .inr ⟨hplaced, x, hextends.subset hx, hanswer⟩
  · refine fun query vector r _ => (Recorded.ensures_issue _ _ _ r).mono fun _ _ h err herr => ?_
    exact or_iff_not_imp_left.mpr fun hplaced => .inr ⟨hplaced, h err herr⟩
  · refine fun query vector r _ => (Recorded.ensures_issue _ _ _ r).mono fun _ _ h err herr => ?_
    exact or_iff_not_imp_left.mpr fun hplaced => .inr ⟨hplaced, h err herr⟩

theorem ends_succeeded_of_follows {x x' : Effect (Recorded σ) α} (h : Effect.Follows
    ⟨id, fun _ => False, True⟩ (fun _ _ => True) Recorded.KeepsSuccess x x') (world : σ) :
    Ends x ⟨world, []⟩ (fun _ r => ∀ x ∈ r.exchanges, x.Succeeded) fun _ _ => True := by
  unfold Ends
  rcases hrun : x ⟨world, []⟩ with ⟨err | b, r⟩
  · trivial
  · -- The run does not fail, so one that records only the calls that are answered records the same.
    obtain ⟨_, _, hfails⟩ | hsame | ⟨_, hnever, _⟩ := h.goes ⟨world, []⟩ id
    · rw [hrun] at hfails
      cases hfails
    · have hsucceeded := h.changes' ⟨world, []⟩ fun _ hx => absurd hx List.not_mem_nil
      change x' ⟨world, []⟩ = _ at hsame
      rw [hsame, hrun] at hsucceeded
      exact hsucceeded
    · exact hnever.elim

theorem ends_assembleIn_placed (hc : a.catalog.Coherent) (hg : g ∈ a.catalog.groups)
    (haround : a.catalog.Around g scope) (r : Recorded σ) :
    Ends (a.recorded.assembleIn g scope) r (fun _ _ => True)
      fun err r' => Placed a.catalog g r'.exchanges err := by
  have hself : g ∈ a.catalog.subtree g := List.mem_filter.mpr ⟨hg, by simp [Catalog.lineage]⟩
  refine (ends_assembleIn_keeps (keeps_recorded a a.catalog g) g scope ?_ r).mono
    (fun _ _ _ => trivial) fun _ _ => And.right
  rw [haround.path_eq]
  rintro h path hplace err r (hunplaced | hplaced)
  · obtain ⟨hh, rfl⟩ := mem_subtree_of_places hc hself hplace
    exact .inl (halts_located hh hunplaced)
  · exact hplaced.located _ _

theorem failsInPlace_assembly (hc : a.catalog.Built) (world : σ) :
    Guards world (fun _ g _ => FailsInPlace a.catalog g) a.recorded a := by
  apply guards_of_ends hc.coherent a.relates_recorded
  · intro g scope hg haround
    have hsucceeds := ends_succeeded_of_follows (a.relates_recordedAnswered.assembleIn g scope) world
    exact (hsucceeds.and (ends_assembleIn_placed hc.coherent hg haround _)).mono
      (fun _ _ => And.left) fun _ _ => And.right
  · exact fun _ _ _ _ b hsucceeded => .of_succeeded hsucceeded b
  · exact fun _ _ _ _ _ hplaced => .of_placed hplaced

/-- A call that fails is the last one of an assembly with no two calls under way at once, and its
error is returned with the innermost place. If calls overlap, another error may be returned, which
has a place of its own. -/
theorem failure_stops_calls (hc : a.catalog.Built) (world : σ) :
    (a.resolver.Sequential →
      Guards world (fun _ => FailsFast a.blocking world) a.recorded a) ∧
    Guards world (fun _ g _ => FailsInPlace a.catalog g) a.recorded a :=
  ⟨fun h => failsFast_sequential hc h world, failsInPlace_assembly hc world⟩

end SuspendingAssembler

def lostNotes : Script :=
  (noteScript.withAnswer "SELECT code FROM parcels WHERE sku = ? AND sent >= ?"
    [.string "cup", .timestamp 1641600000000000] (.failure "parcels are gone")).withAnswer
    "SELECT text FROM notes WHERE order_id = ?" [.int64 7] (.failure "notes are gone")

namespace SuspendingAssembler

theorem failsFast_lostNotes : ∃ r : Recorded Unit, ∃ g scope,
    (noteAssembler lostNotes 1).recorded.assemble "orders" ⟨(), []⟩ =
        (.error (.assembly "parcels" ["orders", "orders.lines"]
          (.execution (.other "parcels are gone"))), r) ∧
      Enters (noteAssembler lostNotes 1).catalog "orders" g scope ∧
        FailsFast (noteAssembler lostNotes 1).blocking () g scope r.exchanges
          (.error (.assembly "parcels" ["orders", "orders.lines"]
            (.execution (.other "parcels are gone"))) : Except Error Node) := by
  have hresult : ((noteAssembler lostNotes 1).assemble "orders" ()).1 =
      .error (.assembly "parcels" ["orders", "orders.lines"]
        (.execution (.other "parcels are gone"))) := by
    cbv
  obtain ⟨result, r, hrun, hplain, hends⟩ := ((failure_stops_calls (a := noteAssembler lostNotes 1)
    Catalog.built_noteCatalog ()).1 (.inl (by decide))).assemble "orders"
  obtain rfl : result = _ := (congrArg Prod.fst hplain).symm.trans hresult
  rcases hends with ⟨err, hrefused, herr, _⟩ | ⟨g, scope, henters, hfails⟩
  · cases herr
    cases hrefused
  · exact ⟨r, g, scope, hrun, henters, hfails⟩

/-- While the lines are waited for, the notes turn out to be lost. When the lines are there, their
parcels are asked for all the same. -/
theorem overlapping_not_failsFast :
    (noteAssembler lostNotes 2).catalog.Built ∧
      ((noteAssembler lostNotes 2).recorded.assemble "orders" ⟨(), []⟩).1 =
        .error (.assembly "parcels" ["orders", "orders.lines"]
          (.execution (.other "parcels are gone"))) ∧
      ((noteAssembler lostNotes 2).recorded.assemble "orders" ⟨(), []⟩).2.exchanges.map
        (·.answer.toOption.isSome) = [true, false, true, false] ∧
      ¬ Guards () (fun _ => FailsFast (noteAssembler lostNotes 2).blocking ())
        (noteAssembler lostNotes 2).recorded (noteAssembler lostNotes 2) := by
  have hresult : ((noteAssembler lostNotes 2).recorded.assemble "orders" ⟨(), []⟩).1 =
      .error (.assembly "parcels" ["orders", "orders.lines"]
        (.execution (.other "parcels are gone"))) := by
    cbv
  have hexchanges : ((noteAssembler lostNotes 2).recorded.assemble "orders"
      ⟨(), []⟩).2.exchanges.map (·.answer.toOption.isSome) = [true, false, true, false] := by
    decide +kernel
  refine ⟨Catalog.built_noteCatalog, hresult, hexchanges, fun h => ?_⟩
  obtain ⟨result, r, hrun, _, hends⟩ := h.assemble "orders"
  rw [hrun] at hresult hexchanges
  obtain ⟨err, hrefused, herr, _⟩ | ⟨g, scope, _, hfails⟩ := hends
  · cases herr.symm.trans hresult
    cases hrefused
  · have hsucceeded : ∀ succeeded ∈ (r.exchanges.map (·.answer.toOption.isSome)).dropLast,
        succeeded = true := by
      rw [← List.map_dropLast, List.forall_mem_map]
      intro x hx
      obtain ⟨answers, hok⟩ := hfails.succeeded x hx
      rw [hok]
      rfl
    rw [hexchanges] at hsucceeded
    exact Bool.noConfusion (hsucceeded _ (.tail _ (.head _)))

end SuspendingAssembler

end NestedViews
