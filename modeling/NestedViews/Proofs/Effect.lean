import Mathlib
import NestedViews.Executor.Basic

namespace NestedViews.Effect

variable {σ α β : Type} {good good' : α → σ → Prop} {bad bad' : Error → σ → Prop} {s : σ}

theorem bind_eq_of_ok {x : Effect σ α} {f : α → Effect σ β} {s' : σ} {a : α}
    (h : x s = (.ok a, s')) : (x >>= f) s = f a s' := by
  change ExceptT.bindCont f (x s).1 (x s).2 = _
  rw [h]
  rfl

theorem bind_eq_of_error {x : Effect σ α} {f : α → Effect σ β} {s' : σ} {e : Error}
    (h : x s = (.error e, s')) : (x >>= f) s = (.error e, s') := by
  change ExceptT.bindCont f (x s).1 (x s).2 = _
  rw [h]
  rfl

/-- A computation that is started in a state ends well if it succeeds and badly if it fails. -/
def Ends (x : Effect σ α) (s : σ) (good : α → σ → Prop) (bad : Error → σ → Prop) : Prop :=
  match x s with
  | (.ok a, s') => good a s'
  | (.error e, s') => bad e s'

theorem Ends.mono {x : Effect σ α} (h : Ends x s good bad) (hgood : ∀ a s', good a s' → good' a s')
    (hbad : ∀ e s', bad e s' → bad' e s') : Ends x s good' bad' := by
  unfold Ends at *
  rcases hx : x s with ⟨_ | _, _⟩
  · rw [hx] at h
    exact hbad _ _ h
  · rw [hx] at h
    exact hgood _ _ h

theorem Ends.imp {x : Effect σ α} (h : Ends x s good bad)
    (hgood : ∀ a s', good a s' → good' a s') : Ends x s good' bad :=
  h.mono hgood fun _ _ h => h

theorem Ends.and {x : Effect σ α} (h : Ends x s good bad) (h' : Ends x s good' bad') :
    Ends x s (fun a s' => good a s' ∧ good' a s') fun e s' => bad e s' ∧ bad' e s' := by
  unfold Ends at *
  rcases hx : x s with ⟨_ | _, _⟩
  · rw [hx] at h h'
    exact ⟨h, h'⟩
  · rw [hx] at h h'
    exact ⟨h, h'⟩

theorem ends_of_forall {x : Effect σ α} (hgood : ∀ a s', good a s') (hbad : ∀ e s', bad e s') :
    Ends x s good bad := by
  unfold Ends
  rcases x s with ⟨_ | _, _⟩
  · exact hbad _ _
  · exact hgood _ _

theorem Ends.of_ok {x : Effect σ α} {a : α} (h : Ends x s good bad) (hx : (x s).1 = .ok a) :
    good a (x s).2 := by
  unfold Ends at h
  rcases hrun : x s with ⟨_ | _, _⟩ <;> rw [hrun] at h hx <;> cases hx
  exact h

theorem Ends.of_run {x : Effect σ α} {a : α} {s' : σ} (h : Ends x s good bad)
    (hx : x s = (.ok a, s')) : good a s' := by
  unfold Ends at h
  rw [hx] at h
  exact h

theorem Ends.of_run_error {x : Effect σ α} {e : Error} {s' : σ} (h : Ends x s good bad)
    (hx : x s = (.error e, s')) : bad e s' := by
  unfold Ends at h
  rw [hx] at h
  exact h

theorem Ends.snd {x : Effect σ α} {P : σ → Prop} (h : Ends x s (fun _ s' => P s') fun _ s' => P s') :
    P (x s).2 := by
  unfold Ends at h
  rcases hrun : x s with ⟨_ | _, _⟩ <;> rw [hrun] at h <;> exact h

theorem ends_of_fst {x : Effect σ α} {answer : Except Error α} {P : σ → Prop}
    (h : (x s).1 = answer) (hP : P (x s).2) :
    Ends x s (fun a s' => answer = .ok a ∧ P s') fun e s' => answer = .error e ∧ P s' := by
  unfold Ends
  rcases hrun : x s with ⟨_ | _, _⟩ <;> rw [hrun] at h hP <;> exact ⟨h.symm, hP⟩

theorem Ends.fst_eq_error {x : Effect σ α} {e : Error}
    (h : Ends x s (fun _ _ => False) fun e' _ => e' = e) : (x s).1 = .error e := by
  unfold Ends at h
  rcases hrun : x s with ⟨_ | _, _⟩ <;> rw [hrun] at h
  · exact congrArg Except.error h
  · cases h

theorem Ends.exists_ok {x : Effect σ α} (h : Ends x s good fun _ _ => False) :
    ∃ a, (x s).1 = .ok a ∧ good a (x s).2 := by
  unfold Ends at h
  rcases hrun : x s with ⟨_ | a, _⟩ <;> rw [hrun] at h
  · cases h
  · exact ⟨a, rfl, h⟩

/-- A computation that runs another one and wraps up its outcome. -/
theorem ends_wrap {τ : Type} {x : Effect σ α} {y : Effect τ β} {t : τ} {f : α → σ → β}
    {u : α → σ → τ} {k : Error → Error} {v : Error → σ → τ} {good : β → τ → Prop}
    {bad : Error → τ → Prop} (wrap : Except Error α × σ → Except Error β × τ)
    (hrun : y t = wrap (x s)) (hok : ∀ a s', wrap (.ok a, s') = (.ok (f a s'), u a s'))
    (herror : ∀ e s', wrap (.error e, s') = (.error (k e), v e s')) :
    Ends y t good bad ↔
      Ends x s (fun a s' => good (f a s') (u a s')) fun e s' => bad (k e) (v e s') := by
  unfold Ends
  rw [hrun]
  rcases x s with ⟨_ | _, _⟩
  · rw [herror]
  · rw [hok]

@[simp] theorem ends_pure (a : α) : Ends (pure a) s good bad ↔ good a s := Iff.rfl

@[simp] theorem ends_throw (e : Error) : Ends (throw e) s good bad ↔ bad e s := Iff.rfl

@[simp] theorem ends_bind (x : Effect σ β) (f : β → Effect σ α) :
    Ends (x >>= f) s good bad ↔ Ends x s (fun b s' => Ends (f b) s' good bad) bad := by
  have hbind : (x >>= f) s = ExceptT.bindCont f (x s).1 (x s).2 := rfl
  unfold Ends
  rw [hbind]
  rcases x s with ⟨_ | _, _⟩ <;> rfl

@[simp] theorem ends_map (x : Effect σ β) (f : β → α) :
    Ends (f <$> x) s good bad ↔ Ends x s (fun b s' => good (f b) s') bad := by
  rw [map_eq_pure_bind, ends_bind]
  rfl

@[simp] theorem ends_get {good : σ → σ → Prop} : Ends get s good bad ↔ good s s := Iff.rfl

@[simp] theorem ends_modify (f : σ → σ) {good : PUnit → σ → Prop} :
    Ends (modify f) s good bad ↔ good ⟨⟩ (f s) := Iff.rfl

@[simp] theorem ends_liftM (answer : Except Error α) :
    Ends (liftM answer : Effect σ α) s good bad ↔
      match answer with
      | .ok a => good a s
      | .error e => bad e s := by
  cases answer <;> rfl

@[simp] theorem ends_ite {x y : Effect σ α} {p : Prop} [Decidable p] :
    Ends (if p then x else y) s good bad ↔
      (p → Ends x s good bad) ∧ (¬p → Ends y s good bad) := by
  by_cases h : p <;> simp [h]

theorem Ends.fst_eq_ok {x : Effect σ α} {right : α → Prop} {a : α}
    (h : Ends x s (fun a _ => ∀ b, right b ↔ b = a) fun _ _ => ∀ b, ¬ right b) :
    (x s).1 = .ok a ↔ right a := by
  unfold Ends at h
  rcases hrun : x s with ⟨_ | b, _⟩ <;> rw [hrun] at h
  · simp [h a]
  · rw [h a, Except.ok.injEq]
    exact eq_comm

theorem ends_mapM {R : β → α → Prop} {inv : σ → Prop} {f : β → Effect σ α} {bs : List β}
    (hf : ∀ b ∈ bs, ∀ s, inv s → Ends (f b) s (fun a s' => R b a ∧ inv s') bad) (hs : inv s) :
    Ends (bs.mapM f) s (fun as s' => List.Forall₂ R bs as ∧ inv s') bad := by
  induction bs generalizing s with
  | nil => simp [hs]
  | cons b bs ih =>
    simp only [List.mapM_cons, ends_bind]
    apply (hf b (by simp) s hs).imp
    rintro a s' ⟨ha, hs'⟩
    apply (ih (fun b' hb' => hf b' (by simp [hb'])) hs').imp
    rintro as s'' ⟨has, hs''⟩
    exact ⟨.cons ha has, hs''⟩

theorem forM_liftM (f : β → Except Error Unit) (bs : List β) :
    (bs.forM fun b => (liftM (f b) : Effect σ Unit)) = liftM (bs.forM f) := by
  induction bs with
  | nil => rfl
  | cons b bs ih =>
    change (liftM (f b) >>= fun _ => bs.forM _) =
      (liftM (f b >>= fun _ => bs.forM f) : Effect σ Unit)
    rw [ih]
    cases f b <;> rfl

theorem ends_forM {R : β → Prop} {inv : σ → Prop} {f : β → Effect σ Unit} {bs : List β}
    (hf : ∀ b ∈ bs, ∀ s, inv s → Ends (f b) s (fun _ s' => R b ∧ inv s') bad) (hs : inv s) :
    Ends (bs.forM f) s (fun _ s' => (∀ b ∈ bs, R b) ∧ inv s') bad := by
  induction bs generalizing s with
  | nil => exact ⟨by simp, hs⟩
  | cons b bs ih =>
    change Ends (f b >>= fun _ => bs.forM f) s _ bad
    rw [ends_bind]
    apply (hf b (.head _) s hs).imp
    rintro _ s' ⟨hb, hs'⟩
    apply (ih (fun b hb => hf b (.tail _ hb)) hs').imp
    rintro _ s'' ⟨hbs, hs''⟩
    exact ⟨List.forall_mem_cons.mpr ⟨hb, hbs⟩, hs''⟩

end NestedViews.Effect
