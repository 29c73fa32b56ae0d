import NestedViews.Proofs.Future

/-! What futures ensure while others go on wherever they are pending. Each future relies on the
others to change the world only in a certain way, and changes it only in that way itself. -/

namespace NestedViews

variable {σ α β : Type} {R : σ → σ → Prop} {width count : Nat} {turns : σ → List Nat} {s s' : σ}

namespace Future

/-- Every step changes the world by `R` if whatever happens while the future is pending does so, and
the result has a property at last. -/
def Ensures (R : σ → σ → Prop) (post : α → σ → Prop) : Future σ α → σ → Prop
  | ready a, s => post a s
  | step act next, s => R s (act s) ∧ (next s).Ensures R post (act s)
  | pending rest, s => ∀ s', R s s' → rest.Ensures R post s'

def AllEnsure (R : σ → σ → Prop) (post : α → σ → Prop) (futures : List (Future σ α)) (s : σ) :
    Prop :=
  ∀ future ∈ futures, ∀ s', R s s' → future.Ensures R post s'

variable {post : α → σ → Prop} {post' : β → σ → Prop} {x : Future σ α} {f : α → Future σ β}

namespace Ensures

theorem mono {post' : α → σ → Prop} (h : x.Ensures R post s) (hpost : ∀ a s, post a s → post' a s) :
    x.Ensures R post' s := by
  induction x generalizing s with
  | ready a => exact hpost a s h
  | step act next ih => exact ⟨h.1, ih s h.2⟩
  | pending rest ih => exact fun s' hs' => ih (h s' hs')

theorem bind (h : x.Ensures R (fun a s' => (f a).Ensures R post' s') s) :
    (x >>= f).Ensures R post' s := by
  change (x.bind f).Ensures R post' s
  induction x generalizing s with
  | ready a => exact h
  | step act next ih => exact ⟨h.1, ih s h.2⟩
  | pending rest ih => exact fun s' hs' => ih (h s' hs')

theorem within {τ : Type} (view : τ → σ) (update : τ → σ → τ)
    (hview : ∀ t s, view (update t s) = s) {t : τ} (h : x.Ensures R post (view t)) :
    (x.within view update).Ensures (fun t t' => R (view t) (view t'))
      (fun a t' => post a (view t')) t := by
  induction x generalizing t with
  | ready a => exact h
  | step act next ih =>
    rw [Ensures, ← hview t (act (view t))] at h
    exact ⟨h.1, ih (view t) h.2⟩
  | pending rest ih => exact fun t' ht' => ih (h (view t') ht')

theorem of_true (x : Future σ α) (s : σ) : x.Ensures (fun _ _ => True) (fun _ _ => True) s := by
  induction x generalizing s with
  | ready a => trivial
  | step act next ih => exact ⟨trivial, ih s (act s)⟩
  | pending rest ih => exact fun s' _ => ih s'

theorem of_within {τ : Type} {view : τ → σ} {update : τ → σ → τ} {R : τ → τ → Prop}
    (hupdate : ∀ t s, R t (update t s)) (x : Future σ α) (t : τ) :
    (x.within view update).Ensures R (fun _ _ => True) t := by
  induction x generalizing t with
  | ready a => trivial
  | step act next ih => exact ⟨hupdate t _, ih (view t) _⟩
  | pending rest ih => exact fun t' _ => ih t'

variable [IsPreorder σ R]

theorem reaches (h : x.Ensures R post s) : x.Ensures R (fun a s' => post a s' ∧ R s s') s := by
  induction x generalizing s with
  | ready a => exact ⟨h, refl_of R s⟩
  | step act next ih =>
    exact ⟨h.1, (ih s h.2).mono fun _ _ hpost => ⟨hpost.1, trans_of R h.1 hpost.2⟩⟩
  | pending rest ih =>
    exact fun s' hs' => (ih (h s' hs')).mono fun _ _ hpost => ⟨hpost.1, trans_of R hs' hpost.2⟩

theorem run (h : x.Ensures R post s) : post (x.run s).1 (x.run s).2 := by
  induction x generalizing s with
  | ready a => exact h
  | step act next ih => exact ih s h.2
  | pending rest ih => exact ih (h s (refl_of R s))

end Ensures

theorem AllEnsure.of_reach [IsPreorder σ R] {futures : List (Future σ α)}
    (h : AllEnsure R post futures s) (hs' : R s s') : AllEnsure R post futures s' :=
  fun future hfuture s'' hs'' => h future hfuture s'' (trans_of R hs' hs'')

theorem allEnsure_cons {futures : List (Future σ α)} : AllEnsure R post (x :: futures) s ↔
    (∀ s', R s s' → x.Ensures R post s') ∧ AllEnsure R post futures s :=
  List.forall_mem_cons

section Gather

variable (hstable : ∀ a s s', R s s' → post a s → post a s')
include hstable

theorem ensures_poll (h : x.Ensures R post s) :
    x.poll.Ensures R (fun rest s' => ∀ s'', R s' s'' → rest.Ensures R post s'') s := by
  induction x generalizing s with
  | ready a => exact fun s' hs' => hstable a s s' hs' h
  | step act next ih => exact ⟨h.1, ih s h.2⟩
  | pending rest => exact h

variable [IsPreorder σ R]

theorem ensures_pollAt {futures : List (Future σ α)} (h : AllEnsure R post futures s) (i : Nat) :
    (pollAt futures i).Ensures R (AllEnsure R post) s := by
  induction futures generalizing i s with
  | nil => exact h
  | cons future futures ih =>
    obtain ⟨hfuture, hfutures⟩ := allEnsure_cons.mp h
    cases i with
    | zero =>
      have hpoll := (ensures_poll hstable (hfuture s (refl_of R s))).reaches
      exact (hpoll.mono fun rest s' hrest =>
        allEnsure_cons.mpr ⟨hrest.1, hfutures.of_reach hrest.2⟩).bind
    | succ i =>
      exact ((ih hfutures i).reaches.mono fun futures' s' hfutures' =>
        allEnsure_cons.mpr ⟨fun s'' hs'' => hfuture s'' (trans_of R hfutures'.2 hs''),
          hfutures'.1⟩).bind

theorem ensures_pollEach {futures : List (Future σ α)} (h : AllEnsure R post futures s)
    (turns : List Nat) : (pollEach futures turns).Ensures R (AllEnsure R post) s := by
  induction turns generalizing futures s with
  | nil => exact h
  | cons i turns ih =>
    exact ((ensures_pollAt hstable h i).mono fun futures' s' hfutures' => ih hfutures').bind

theorem ensures_await {others : List (Future σ α)} (h : x.Ensures R post s)
    (hothers : AllEnsure R post others s) :
    (x.await width turns others).Ensures R
      (fun result s' => post result.1 s' ∧ AllEnsure R post result.2 s') s := by
  induction x generalizing s others with
  | ready a => exact ⟨h, hothers⟩
  | step act next ih => exact ⟨h.1, ih s h.2 (hothers.of_reach h.1)⟩
  | pending rest ih =>
    refine ⟨refl_of R s, ?_⟩
    -- The others have their turns here, and anybody else before the first future goes on.
    have hpolled := ensures_pollEach hstable hothers ((turns s).filter (· + 1 < width))
    refine (hpolled.reaches.mono fun others' s' hothers' s'' hs'' => ?_).bind
    exact ih (h s'' (trans_of R hothers'.2 hs'')) (hothers'.1.of_reach hs'')

end Gather

theorem ensures_gather {ε : Type} [IsPreorder σ R] {bad : ε → σ → Prop}
    (hstable : ∀ e s s', R s s' → bad e s → bad e s') {futures : List (Future σ (Except ε α))}
    (h : AllEnsure R (fun result s' => ∀ e, result = .error e → bad e s') futures s)
    (count : Nat) : (gather width turns count futures).Ensures R
      (fun result s' => ∀ e, result = .error e → bad e s') s := by
  induction count generalizing futures s with
  | zero => exact fun _ h => by cases h
  | succ count ih =>
    cases futures with
    | nil => exact fun _ h => by cases h
    | cons first others =>
      obtain ⟨hfirst, hothers⟩ := allEnsure_cons.mp h
      have hawait : (first.await width turns others).Ensures R _ s :=
        ensures_await (fun _ _ _ hs' hpost e he => hstable e _ _ hs' (hpost e he))
          (hfirst s (refl_of R s)) hothers
      refine (hawait.mono fun result s' hresult => ?_).bind
      rcases result with ⟨e | a, others'⟩
      · exact fun e' he' => by cases he'; exact hresult.1 e rfl
      · refine ((ih hresult.2).mono fun results s'' hresults => ?_).bind
        cases results with
        | error e => exact fun e' he' => by cases he'; exact hresults e rfl
        | ok as => exact fun _ h => by cases h

end Future

namespace Async

variable {bad bad' : Error → σ → Prop} {x : Async σ α} {f : α → Async σ β}

def FailsWith (R : σ → σ → Prop) (bad : Error → σ → Prop) (x : Async σ α) : Prop :=
  ∀ s, Future.Ensures R (fun result s' => ∀ e, result = .error e → bad e s') x s

namespace FailsWith

theorem mono (h : x.FailsWith R bad) (hbad : ∀ e s, bad e s → bad' e s) : x.FailsWith R bad' :=
  fun s => (h s).mono fun _ _ hpost e he => hbad e _ (hpost e he)

theorem liftM {answer : Except Error α} (h : ∀ e, answer = .error e → ∀ s, bad e s) :
    FailsWith R bad (liftM answer : Async σ α) :=
  fun s e he => h e he s

theorem pure (a : α) : FailsWith R bad (pure a : Async σ α) :=
  liftM fun _ h => by cases h

theorem ofEffect {y : Effect σ α}
    (h : ∀ s, Effect.Ends y s (fun _ s' => R s s') fun e s' => R s s' ∧ bad e s') :
    FailsWith R bad (.ofEffect y) := by
  intro s
  have hends := h s
  unfold Effect.Ends at hends
  change R s (y s).2 ∧ ∀ e, (y s).1 = .error e → bad e (y s).2
  rcases hy : y s with ⟨e | a, s'⟩ <;> rw [hy] at hends
  · exact ⟨hends.1, fun e' he' => by cases he'; exact hends.2⟩
  · exact ⟨hends, fun _ h => by cases h⟩

theorem bind (h : x.FailsWith R bad) (hf : ∀ a, (f a).FailsWith R bad) :
    (x >>= f).FailsWith R bad := by
  refine fun s => Future.Ensures.bind ((h s).mono fun result s' hpost => ?_)
  cases result with
  | error e => exact fun e' he' => by cases he'; exact hpost e rfl
  | ok a => exact hf a s'

theorem ite {p : Prop} [Decidable p] {x' : Async σ α} (h : x.FailsWith R bad)
    (h' : x'.FailsWith R bad) : (if p then x else x').FailsWith R bad := by
  split
  · exact h
  · exact h'

theorem mapM {bs : List β} {f : β → Async σ α} (hf : ∀ b, (f b).FailsWith R bad) :
    FailsWith R bad (bs.mapM f) := by
  induction bs with
  | nil => exact pure []
  | cons b bs ih =>
    rw [List.mapM_cons]
    exact (hf b).bind fun a => ih.bind fun as => pure (a :: as)

theorem forM {bs : List β} {f : β → Async σ Unit} (hf : ∀ b, (f b).FailsWith R bad) :
    FailsWith R bad (bs.forM f) := by
  induction bs with
  | nil => exact pure ()
  | cons b bs ih => exact (hf b).bind fun _ => ih

theorem gather [IsPreorder σ R] (hstable : ∀ e s s', R s s' → bad e s → bad e s')
    {futures : List (Async σ α)} (h : ∀ future ∈ futures, future.FailsWith R bad) (count : Nat) :
    FailsWith R bad (Future.gather width turns count futures) :=
  fun _ => Future.ensures_gather hstable (fun future hfuture s' _ => h future hfuture s') count

theorem ends [IsPreorder σ R] (h : x.FailsWith R bad) (s : σ) :
    Effect.Ends x.run s (fun _ s' => R s s') fun e s' => R s s' ∧ bad e s' := by
  obtain ⟨hbad, hreaches⟩ := (h s).reaches.run
  unfold Effect.Ends
  change R s (x.run s).2 at hreaches
  change ∀ e, (x.run s).1 = .error e → bad e (x.run s).2 at hbad
  rcases hrun : x.run s with ⟨e | a, s'⟩ <;> rw [hrun] at hbad hreaches
  · exact ⟨hreaches, hbad e rfl⟩
  · exact hreaches

end FailsWith

end Async

end NestedViews
