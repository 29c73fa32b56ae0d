import NestedViews.Proofs.Assembly.Mirrors
import NestedViews.Proofs.Future.Ensures

namespace NestedViews

variable {σ τ α β γ δ : Type} {width count : Nat} {turns : τ → List Nat} {turns' : σ → List Nat}

/-- How a run is followed by another one. -/
structure Lockstep (τ σ : Type) where
  view : τ → σ
  apart : τ → Prop
  mayFail : Prop

namespace Future

def Always (p : α → Prop) : Future σ α → Prop
  | ready a => p a
  | step _ next => ∀ s, (next s).Always p
  | pending rest => rest.Always p

section Always

variable {p q : α → Prop} {x : Future σ α} {xs : List (Future σ α)}

namespace Always

theorem bind {p : β → Prop} {f : α → Future σ β} (h : x.Always fun a => (f a).Always p) :
    (x >>= f).Always p := by
  change (x.bind f).Always p
  induction x with
  | ready a => exact h
  | step act next ih => exact fun s => ih s (h s)
  | pending rest ih => exact ih h

theorem mono (h : x.Always p) (hpq : ∀ a, p a → q a) : x.Always q := by
  induction x with
  | ready a => exact hpq a h
  | step act next ih => exact fun s => ih s (h s)
  | pending rest ih => exact ih h

theorem and (h : x.Always p) (h' : x.Always q) : x.Always fun a => p a ∧ q a := by
  induction x with
  | ready a => exact ⟨h, h'⟩
  | step act next ih => exact fun s => ih s (h s) (h' s)
  | pending rest ih => exact ih h h'

theorem of_forall (h : ∀ a, p a) (x : Future σ α) : x.Always p := by
  induction x with
  | ready a => exact h a
  | step act next ih => exact ih
  | pending rest ih => exact ih

theorem run (h : x.Always p) (s : σ) : p (x.run s).1 := by
  induction x generalizing s with
  | ready a => exact h
  | step act next ih => exact ih s (h s) (act s)
  | pending rest ih => exact ih h s

theorem poll (h : x.Always p) : x.poll.Always (·.Always p) := by
  induction x with
  | ready a => exact h
  | step act next ih => exact fun s => ih s (h s)
  | pending rest => exact h

theorem within {view : τ → σ} {update : τ → σ → τ} (h : x.Always p) :
    (x.within view update).Always p := by
  induction x with
  | ready a => exact h
  | step act next ih => exact fun t => ih (view t) (h (view t))
  | pending rest ih => exact ih h

theorem await (h : x.Always p) (turns : σ → List Nat) (others : List (Future σ α)) :
    (x.await width turns others).Always fun result => p result.1 := by
  induction x generalizing others with
  | ready a => exact h
  | step act next ih => exact fun s => ih s (h s) others
  | pending rest ih =>
    rw [await_pending]
    exact fun s => .bind (.of_forall (fun others => ih h others) _)

end Always

theorem always_length_pollAt (xs : List (Future σ α)) (i : Nat) :
    (pollAt xs i).Always (·.length = xs.length) := by
  induction xs generalizing i with
  | nil => rfl
  | cons x xs ih =>
    cases i with
    | zero => exact .bind (.of_forall (fun _ => rfl) _)
    | succ i => exact .bind ((ih i).mono fun _ => congrArg Nat.succ)

theorem always_length_pollEach (xs : List (Future σ α)) (is : List Nat) :
    (pollEach xs is).Always (·.length = xs.length) := by
  induction is generalizing xs with
  | nil => rfl
  | cons i is ih =>
    exact .bind ((always_length_pollAt xs i).mono fun xs' hxs' =>
      (ih xs').mono fun _ hlength => hlength.trans hxs')

theorem always_length_await (turns : σ → List Nat) (x : Future σ α) (xs : List (Future σ α)) :
    (x.await width turns xs).Always (·.2.length = xs.length) := by
  induction x generalizing xs with
  | ready a => rfl
  | step act next ih => exact fun s => ih s xs
  | pending rest ih =>
    rw [await_pending]
    exact fun s => .bind ((always_length_pollEach xs _).mono fun xs' hxs' =>
      (ih xs').mono fun _ hlength => hlength.trans hxs')

theorem always_pollAt (h : ∃ x ∈ xs, x.Always p) (i : Nat) :
    (pollAt xs i).Always fun xs' => ∃ x ∈ xs', x.Always p := by
  induction xs generalizing i with
  | nil => exact h
  | cons x xs ih =>
    rw [List.exists_mem_cons_iff] at h
    obtain hx | hxs := h
    · cases i with
      | zero => exact .bind (hx.poll.mono fun x' hx' => ⟨x', .head xs, hx'⟩)
      | succ i => exact .bind (.of_forall (fun xs' => ⟨x, .head xs', hx⟩) _)
    · cases i with
      | zero =>
        obtain ⟨y, hy, halways⟩ := hxs
        exact .bind (.of_forall (fun _ => ⟨y, .tail _ hy, halways⟩) _)
      | succ i => exact .bind ((ih hxs i).mono fun _ ⟨y, hy, halways⟩ => ⟨y, .tail _ hy, halways⟩)

theorem always_pollEach (h : ∃ x ∈ xs, x.Always p) (is : List Nat) :
    (pollEach xs is).Always fun xs' => ∃ x ∈ xs', x.Always p := by
  induction is generalizing xs with
  | nil => exact h
  | cons i is ih => exact .bind ((always_pollAt h i).mono fun _ hxs' => ih hxs')

theorem always_await (h : ∃ x ∈ xs, x.Always p) (turns : σ → List Nat) (x : Future σ α) :
    (x.await width turns xs).Always fun result => ∃ x ∈ result.2, x.Always p := by
  induction x generalizing xs with
  | ready a => exact h
  | step act next ih => exact fun s => ih s h
  | pending rest ih =>
    rw [await_pending]
    exact fun s => .bind ((always_pollEach h _).mono fun _ hxs' => ih hxs')

theorem Always.map_error {ε : Type} {x : Future σ (Except ε α)}
    (h : x.Always fun result => ∃ e, result = .error e) (f : α → β) :
    Always (fun result => ∃ e, result = .error e) (x >>= fun result => pure (result.map f)) := by
  refine .bind (h.mono ?_)
  rintro _ ⟨e, rfl⟩
  exact ⟨e, rfl⟩

theorem always_gather {ε : Type} {xs : List (Future σ (Except ε α))} (turns : σ → List Nat)
    (h : ∃ x ∈ xs, x.Always fun result => ∃ e, result = .error e) (hcount : xs.length ≤ count) :
    (gather width turns count xs).Always fun result => ∃ e, result = .error e := by
  induction count generalizing xs with
  | zero =>
    obtain ⟨x, hx, _⟩ := h
    exact absurd (List.length_pos_of_mem hx) (Nat.not_lt.mpr hcount)
  | succ count ih =>
    cases xs with
    | nil =>
      obtain ⟨x, hx, _⟩ := h
      exact absurd hx List.not_mem_nil
    | cons first others =>
      -- The one that is sure to fail is the first, or is among the others when the first is done.
      have hawait : (first.await width turns others).Always fun result =>
          (∃ e, result.1 = .error e) ∨ ∃ x ∈ result.2, x.Always fun r => ∃ e, r = .error e := by
        rw [List.exists_mem_cons_iff] at h
        obtain hfirst | hothers := h
        · exact (hfirst.await turns others).mono fun _ => .inl
        · exact (always_await hothers turns first).mono fun _ => .inr
      apply Always.bind
      apply (hawait.and (always_length_await turns first others)).mono
      rintro ⟨e | a, others'⟩ ⟨hfails, hlength⟩
      · exact ⟨e, rfl⟩
      · obtain ⟨_, hfails⟩ | hrest := hfails
        · cases hfails
        · exact (ih hrest (hlength.trans_le (Nat.succ_le_succ_iff.mp hcount))).map_error _

end Always

/-- A future takes the steps of another one in the worlds that are seen of its own, and others that
cannot be seen. Or it fails for sure. -/
inductive Follows (l : Lockstep τ σ) (failed : α → Prop) (related : α → β → Prop) :
    Future τ α → Future σ β → Prop
  | ready {a b} : related a b → Follows l failed related (ready a) (ready b)
  | silent {act next y} : (∀ t, ¬ l.apart t → l.view (act t) = l.view t) →
      (∀ t, ¬ l.apart t → Follows l failed related (next t) y) →
        Follows l failed related (step act next) y
  | step {act next act' next'} : (∀ t, ¬ l.apart t → l.view (act t) = act' (l.view t)) →
      (∀ t, ¬ l.apart t → Follows l failed related (next t) (next' (l.view t))) →
        Follows l failed related (step act next) (step act' next')
  | pending {rest rest'} : Follows l failed related rest rest' →
      Follows l failed related (pending rest) (pending rest')
  | fails {x y} : l.mayFail → x.Always failed → Follows l failed related x y

namespace Follows

variable {l : Lockstep τ σ} {failed : α → Prop} {related : α → β → Prop}
variable {x : Future τ α} {y : Future σ β} {xs : List (Future τ α)} {ys : List (Future σ β)}

theorem bind {failed' : γ → Prop} {related' : γ → δ → Prop} {f : α → Future τ γ}
    {g : β → Future σ δ} (h : Follows l failed related x y)
    (hf : ∀ a b, related a b → Follows l failed' related' (f a) (g b))
    (hfailed : ∀ a, failed a → (f a).Always failed') :
    Follows l failed' related' (x >>= f) (y >>= g) := by
  change Follows l failed' related' (x.bind f) (y.bind g)
  induction h with
  | ready hab => exact hf _ _ hab
  | silent hact _ ih => exact .silent hact ih
  | step hact _ ih => exact .step hact ih
  | pending _ ih => exact .pending ih
  | fails hmay hx => exact .fails hmay (.bind (hx.mono hfailed))

theorem and_always {p : α → Prop} (h : Follows l failed related x y) (hx : x.Always p) :
    Follows l (fun a => failed a ∧ p a) (fun a b => related a b ∧ p a) x y := by
  induction h with
  | ready hab => exact .ready ⟨hab, hx⟩
  | silent hact _ ih => exact .silent hact fun t ht => ih t ht (hx t)
  | step hact _ ih => exact .step hact fun t ht => ih t ht (hx t)
  | pending _ ih => exact .pending (ih hx)
  | fails hmay hfailed => exact .fails hmay (hfailed.and hx)

theorem poll (h : Follows l failed related x y) :
    Follows l (·.Always failed) (Follows l failed related) x.poll y.poll := by
  induction h with
  | ready hab => exact .ready (.ready hab)
  | silent hact _ ih => exact .silent hact ih
  | step hact _ ih => exact .step hact ih
  | pending hrest => exact .ready hrest
  | fails hmay hx => exact .fails hmay hx.poll

theorem pollAt (h : List.Forall₂ (Follows l failed related) xs ys) (i : Nat) :
    Follows l (fun xs' => ∃ x ∈ xs', x.Always failed) (List.Forall₂ (Follows l failed related))
      (pollAt xs i) (pollAt ys i) := by
  induction h generalizing i with
  | nil => exact .ready .nil
  | @cons x y xs ys hxy hrest ih =>
    cases i with
    | zero =>
      exact hxy.poll.bind (fun _ _ hpolled => .ready (.cons hpolled hrest))
        fun x' hx' => ⟨x', .head xs, hx'⟩
    | succ i =>
      exact (ih i).bind (fun _ _ hpolled => .ready (.cons hxy hpolled))
        fun xs' ⟨x', hx', hfailed⟩ => ⟨x', .tail _ hx', hfailed⟩

theorem pollEach (h : List.Forall₂ (Follows l failed related) xs ys) (is : List Nat) :
    Follows l (fun xs' => ∃ x ∈ xs', x.Always failed) (List.Forall₂ (Follows l failed related))
      (pollEach xs is) (pollEach ys is) := by
  induction is generalizing xs ys with
  | nil => exact .ready h
  | cons i is ih =>
    exact (pollAt h i).bind (fun _ _ hpolled => ih hpolled) fun _ hfailed =>
      always_pollEach hfailed is

theorem within {τ' σ' : Type} {part : τ' → τ} {update : τ' → τ → τ'} {part' : σ' → σ}
    {update' : σ' → σ → σ'} (h : Follows l failed related x y) (l' : Lockstep τ' σ')
    (hapart : ∀ t, ¬ l'.apart t → ¬ l.apart (part t)) (hmay : l.mayFail → l'.mayFail)
    (hpart : ∀ t, part' (l'.view t) = l.view (part t))
    (hupdate : ∀ t s, l'.view (update t s) = update' (l'.view t) (l.view s))
    (hself : ∀ t, update' t (part' t) = t) :
    Follows l' failed related (x.within part update) (y.within part' update') := by
  induction h with
  | ready hab => exact .ready hab
  | silent hact _ ih =>
    refine .silent (fun t ht => ?_) fun t ht => ih (part t) (hapart t ht)
    rw [hupdate, hact _ (hapart t ht), ← hpart, hself]
  | @step act next act' next' hact _ ih =>
    refine .step (fun t ht => ?_) fun t ht => ?_
    · rw [hupdate, hact _ (hapart t ht), hpart]
    · rw [hpart]
      exact ih (part t) (hapart t ht)
  | pending _ ih => exact .pending ih
  | fails hmayFail hx => exact .fails (hmay hmayFail) hx.within

section Gather

variable (hturns : ∀ t, ¬ l.apart t → turns t = turns' (l.view t))
include hturns

theorem await (h : Follows l failed related x y)
    (hothers : List.Forall₂ (Follows l failed related) xs ys) :
    Follows l (fun result => failed result.1 ∨ ∃ x ∈ result.2, x.Always failed)
      (fun r r' => related r.1 r'.1 ∧ List.Forall₂ (Follows l failed related) r.2 r'.2)
      (x.await width turns xs) (y.await width turns' ys) := by
  induction h generalizing xs ys with
  | ready hab => exact .ready ⟨hab, hothers⟩
  | silent hact _ ih => exact .silent hact fun t ht => ih t ht hothers
  | step hact _ ih => exact .step hact fun t ht => ih t ht hothers
  | @pending rest rest' _ ih =>
    rw [await_pending, await_pending]
    refine .step (fun _ _ => rfl) fun t ht => ?_
    rw [← hturns t ht]
    refine (pollEach hothers ((turns t).filter (· + 1 < width))).bind
      (fun _ _ hpolled => .pending (ih hpolled)) fun _ hfailed => ?_
    exact (always_await hfailed turns rest).mono fun _ => .inr
  | fails hmay hx => exact .fails hmay ((hx.await turns xs).mono fun _ => .inl)

theorem gather {ε : Type} {xs : List (Future τ (Except ε α))} {ys : List (Future σ (Except ε α))}
    (h : List.Forall₂ (Follows l (fun result => ∃ e, result = .error e) Eq) xs ys)
    (hcount : xs.length ≤ count) :
    Follows l (fun result => ∃ e, result = .error e) Eq (gather width turns count xs)
      (gather width turns' count ys) := by
  induction count generalizing xs ys with
  | zero => exact .ready rfl
  | succ count ih =>
    cases h with
    | nil => exact .ready rfl
    | @cons first first' others others' hfirst hothers =>
      apply ((hfirst.await hturns hothers).and_always
        (always_length_await turns first others)).bind
      · rintro ⟨result, xs⟩ ⟨_, ys⟩ ⟨⟨rfl, hrest⟩, hlength⟩
        cases result with
        | error e => exact .ready rfl
        | ok a =>
          apply (ih hrest (hlength.trans_le (Nat.succ_le_succ_iff.mp hcount))).bind
          · rintro results _ rfl
            exact .ready rfl
          · rintro _ ⟨e, rfl⟩
            exact ⟨e, rfl⟩
      · rintro ⟨e | a, xs⟩ ⟨hfailed, hlength⟩
        · exact ⟨e, rfl⟩
        · obtain ⟨_, hfailed⟩ | hrest := hfailed
          · cases hfailed
          · exact (always_gather turns hrest
              (hlength.trans_le (Nat.succ_le_succ_iff.mp hcount))).map_error _

end Gather

theorem run {R : τ → τ → Prop} {R' : σ → σ → Prop} [IsPreorder τ R] [IsPreorder σ R'] {t : τ}
    (h : Follows l failed related x y) (ht : ¬ l.apart t) (hx : x.Ensures R (fun _ _ => True) t)
    (hy : y.Ensures R' (fun _ _ => True) (l.view t)) :
    (l.mayFail ∧ failed (x.run t).1) ∨
      (related (x.run t).1 (y.run (l.view t)).1 ∧ l.view (x.run t).2 = (y.run (l.view t)).2) ∨
        ∃ t', l.apart t' ∧ R t' (x.run t).2 ∧ R' (l.view t') (y.run (l.view t)).2 := by
  induction h generalizing t with
  | ready hab => exact .inr (.inl ⟨hab, rfl⟩)
  | @silent act next y hact _ ih =>
    rw [← hact t ht] at hy ⊢
    by_cases happart : l.apart (act t)
    · exact .inr (.inr ⟨act t, happart, hx.2.reaches.run.2, hy.reaches.run.2⟩)
    · exact ih t ht happart hx.2 hy
  | @step act next act' next' hact _ ih =>
    have hy' := hy.2
    have hrun : (Future.step act' next').run (l.view t) =
        (next' (l.view t)).run (l.view (act t)) := by
      rw [hact t ht]
      rfl
    rw [← hact t ht] at hy'
    rw [hrun]
    by_cases happart : l.apart (act t)
    · exact .inr (.inr ⟨act t, happart, hx.2.reaches.run.2, hy'.reaches.run.2⟩)
    · exact ih t ht happart hx.2 hy'
  | pending _ ih => exact ih ht (hx t (refl_of R t)) (hy (l.view t) (refl_of R' (l.view t)))
  | fails hmay hfailed => exact .inl ⟨hmay, hfailed.run t⟩

end Follows

theorem follows_self {apart : σ → Prop} {mayFail : Prop} {failed : α → Prop} (x : Future σ α) :
    Follows ⟨id, apart, mayFail⟩ failed Eq x x := by
  induction x with
  | ready a => exact .ready rfl
  | step act next ih => exact .step (fun _ _ => rfl) fun s _ => ih s
  | pending rest ih => exact .pending ih

theorem follows_within {l : Lockstep τ σ} {failed : α → Prop} {update : τ → σ → τ}
    (hview : ∀ t s, l.view (update t s) = s) (x : Future σ α) :
    Follows l failed Eq (x.within l.view update) x := by
  induction x with
  | ready a => exact .ready rfl
  | step act next ih => exact .step (fun t _ => hview t _) fun t _ => ih (l.view t)
  | pending rest ih => exact .pending ih

end Future

namespace Async

abbrev Follows (l : Lockstep τ σ) (x : Async τ α) (y : Async σ α) : Prop :=
  Future.Follows l (fun result => ∃ e, result = .error e) Eq x y

variable {l : Lockstep τ σ} {x : Async τ α} {y : Async σ α}

theorem follows_compositional (l : Lockstep τ σ) :
    Compositional fun α => @Follows σ τ α l where
  liftM _ := .ready rfl
  bind := by
    intro α β x y f g h hf
    apply Future.Follows.bind h
    · rintro result _ rfl
      cases result with
      | error e => exact .ready rfl
      | ok a => exact hf a
    · rintro _ ⟨e, rfl⟩
      exact ⟨e, rfl⟩

theorem follows_ofEffect {x : Effect τ α} {y : Effect σ α} (h : ∀ t, ¬ l.apart t →
    l.view (x t).2 = (y (l.view t)).2 ∧
      ((x t).1 = (y (l.view t)).1 ∨ l.mayFail ∧ ∃ e, (x t).1 = .error e)) :
    Follows l (ofEffect x) (ofEffect y) := by
  refine .step (fun t ht => (h t ht).1) fun t ht => ?_
  obtain hsame | ⟨hmay, hfails⟩ := (h t ht).2
  · exact .ready hsame
  · exact .fails hmay hfails

theorem follows_of_mirrors {x : Effect τ α} {y : Effect σ α} (h : Effect.Mirrors l.view x y) :
    Follows l (ofEffect x) (ofEffect y) :=
  follows_ofEffect fun t _ =>
    ⟨(congrArg Prod.snd (h t)).symm, .inl (congrArg Prod.fst (h t)).symm⟩

theorem follows_get_bind {f : τ → Async τ α} {g : σ → Async σ α}
    (h : ∀ t, ¬ l.apart t → Follows l (f t) (g (l.view t))) :
    Follows l (ofEffect get >>= f) (ofEffect get >>= g) :=
  .step (fun _ _ => rfl) h

theorem follows_located {x : Async (Progress τ) α} {y : Async (Progress σ) α}
    {l : Lockstep (Progress τ) (Progress σ)} (h : Follows l x y) (group : Group)
    (path : List String) : Follows l (located group path x) (located group path y) := by
  apply Future.Follows.bind h
  · rintro result _ rfl
    exact .ready rfl
  · rintro _ ⟨e, rfl⟩
    exact ⟨e.located group.name path, rfl⟩

end Async

end NestedViews
