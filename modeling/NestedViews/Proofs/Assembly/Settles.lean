import NestedViews.Proofs.Assembly.Steps
import NestedViews.Proofs.Success

namespace NestedViews

open Effect

variable {σ α β : Type}

def Within (limit rows : Nat) : Prop :=
  limit = 0 ∨ rows ≤ limit

theorem Within.of_add {limit rows more : Nat} (h : Within limit (rows + more)) :
    Within limit rows :=
  h.imp id fun h => Nat.le_trans (Nat.le_add_right rows more) h

namespace Run

variable {inv : σ → Prop} {limit : Nat} {x : Run σ α}
variable {right right' : α → Prop} {rows rows' : α → Nat}

/-- From worlds of an invariant, a part of an assembly gets the only right answer with its rows. -/
def Settles (inv : σ → Prop) (limit : Nat) (x : Run σ α) (right : α → Prop) (rows : α → Nat) :
    Prop :=
  ∀ p, inv p.world → Within limit p.stats.rows →
    Ends x p
      (fun a p' => inv p'.world ∧ p'.stats.rows = p.stats.rows + rows a ∧
        Within limit p'.stats.rows ∧ ∀ b, right b ↔ b = a)
      fun _ _ => ∀ a, right a → ¬ Within limit (p.stats.rows + rows a)

theorem settles_pure (a : α) : Settles inv limit (pure a) (· = a) fun _ => 0 :=
  fun _ hinv hlimit => ⟨hinv, rfl, hlimit, fun _ => Iff.rfl⟩

theorem settles_liftM (answer : Except Error α) :
    Settles inv limit (liftM answer) (fun a => answer = .ok a) fun _ => 0 := by
  intro p hinv hlimit
  cases answer with
  | ok a => exact ⟨hinv, rfl, hlimit, fun b => by simp [eq_comm]⟩
  | error e => rintro _ ⟨⟩

theorem settles_ofEffect {effect : Effect σ α} {answer : Except Error α}
    (h : ∀ w, inv w → (effect w).1 = answer ∧ inv (effect w).2) :
    Settles inv limit (ofEffect effect) (fun a => answer = .ok a) fun _ => 0 := by
  intro p hinv hlimit
  rw [ends_ofEffect]
  obtain ⟨hanswer, hinv'⟩ := h _ hinv
  unfold Ends
  rcases hrun : effect p.world with ⟨_ | a, w⟩ <;> rw [hrun] at hanswer hinv' <;> rw [← hanswer]
  · rintro _ ⟨⟩
  · exact ⟨hinv', rfl, hlimit, fun b => by simp [eq_comm]⟩

theorem settles_countCall (vectors : Nat) (batched : Bool) :
    Settles inv limit (countCall vectors batched) (fun _ => True) fun _ => 0 :=
  fun _ hinv hlimit => ⟨hinv, rfl, hlimit, fun _ => by simp⟩

namespace Settles

theorem congr (h : Settles inv limit x right rows) (hright : ∀ a, right a ↔ right' a)
    (hrows : ∀ a, right a → rows a = rows' a) : Settles inv limit x right' rows' := by
  intro p hinv hlimit
  apply (h p hinv hlimit).mono
  · rintro a p' ⟨hinv', hrows', hlimit', hunique⟩
    refine ⟨hinv', ?_, hlimit', fun b => (hright b).symm.trans (hunique b)⟩
    rw [hrows', hrows a ((hunique a).mpr rfl)]
  · intro e p' h a ha
    rw [← hrows a ((hright a).mpr ha)]
    exact h a ((hright a).mpr ha)

theorem bind {y : Run σ β} {f : β → Run σ α} {first : β → Prop} {n : β → Nat} {m : β → α → Nat}
    (hy : Settles inv limit y first n)
    (hf : ∀ b, (∀ b', first b' ↔ b' = b) → Settles inv limit (f b) right (m b))
    (hfirst : ∀ a, right a → ∃ b, first b ∧ rows a = n b + m b a) :
    Settles inv limit (y >>= f) right rows := by
  intro p hinv hlimit
  rw [ends_bind]
  apply (hy p hinv hlimit).mono
  · rintro b p' ⟨hinv', hn, hlimit', hunique⟩
    have hrows : ∀ a, right a → rows a = n b + m b a := by
      intro a ha
      obtain ⟨b', hb', hrows⟩ := hfirst a ha
      rwa [(hunique b').mp hb'] at hrows
    apply (hf b hunique p' hinv' hlimit').mono
    · rintro a p'' ⟨hinv'', hm, hlimit'', hunique'⟩
      refine ⟨hinv'', ?_, hlimit'', hunique'⟩
      rw [hm, hn, hrows a ((hunique' a).mpr rfl), Nat.add_assoc]
    · intro e p'' h a ha
      rw [hrows a ha, ← Nat.add_assoc, ← hn]
      exact h a ha
  · intro e p' h a ha hwithin
    obtain ⟨b, hb, hrows⟩ := hfirst a ha
    rw [hrows, ← Nat.add_assoc] at hwithin
    exact h b hb hwithin.of_add

theorem bind_zero {y : Run σ β} {f : β → Run σ α} {first : β → Prop}
    (hy : Settles inv limit y first fun _ => 0)
    (hf : ∀ b, first b → Settles inv limit (f b) right rows)
    (hfirst : ∀ a, right a → ∃ b, first b) : Settles inv limit (y >>= f) right rows := by
  refine hy.bind (m := fun _ => rows) ?_ ?_
  · intro b hunique
    exact hf b ((hunique b).mpr rfl)
  · intro a ha
    obtain ⟨b, hb⟩ := hfirst a ha
    exact ⟨b, hb, (Nat.zero_add _).symm⟩

theorem map {y : Run σ β} {f : β → α} {first : β → Prop} {n : β → Nat}
    (hy : Settles inv limit y first n) (hright : ∀ a, right a ↔ ∃ b, first b ∧ a = f b)
    (hrows : ∀ b, first b → rows (f b) = n b) :
    Settles inv limit (y >>= fun b => pure (f b)) right rows := by
  refine hy.bind (m := fun _ _ => 0) ?_ ?_
  · intro b hunique
    apply (settles_pure (f b)).congr _ fun _ _ => rfl
    intro a
    rw [hright]
    constructor
    · rintro rfl
      exact ⟨b, (hunique b).mpr rfl, rfl⟩
    · rintro ⟨b', hb', rfl⟩
      rw [(hunique b').mp hb']
  · intro a ha
    obtain ⟨b, hb, rfl⟩ := (hright a).mp ha
    exact ⟨b, hb, hrows b hb⟩

theorem mapM {f : β → Run σ α} {bs : List β} {R : β → α → Prop}
    (hf : ∀ b ∈ bs, Settles inv limit (f b) (R b) rows) :
    Settles inv limit (bs.mapM f) (List.Forall₂ R bs) fun as => (as.map rows).sum := by
  induction bs with
  | nil => exact (settles_pure []).congr (fun as => by cases as <;> simp) fun as h => by simp [h]
  | cons b bs ih =>
    rw [List.mapM_cons]
    refine (hf b (by simp)).bind (m := fun _ as => (as.tail.map rows).sum) ?_ ?_
    · intro a hunique
      refine (ih fun b hb => hf b (.tail _ hb)).map ?_ fun _ _ => rfl
      intro as
      rw [List.forall₂_cons_left_iff]
      constructor
      · rintro ⟨a', as, ha', has, rfl⟩
        exact ⟨as, has, by rw [(hunique a').mp ha']⟩
      · rintro ⟨as, has, rfl⟩
        exact ⟨a, as, (hunique a).mpr rfl, has, rfl⟩
    · intro as has
      rw [List.forall₂_cons_left_iff] at has
      obtain ⟨a, as, ha, _, rfl⟩ := has
      exact ⟨a, ha, by simp⟩

theorem forM {f : β → Run σ Unit} {bs : List β} {R : β → Prop} {n : β → Nat}
    (hf : ∀ b ∈ bs, Settles inv limit (f b) (fun _ => R b) fun _ => n b) :
    Settles inv limit (bs.forM f) (fun _ => ∀ b ∈ bs, R b) fun _ => (bs.map n).sum := by
  induction bs with
  | nil => exact (settles_pure ()).congr (fun _ => by simp) fun _ _ => rfl
  | cons b bs ih =>
    change Settles inv limit (f b >>= fun _ => bs.forM f) _ _
    refine (hf b (by simp)).bind (m := fun _ _ => (bs.map n).sum) ?_ ?_
    · intro _ hunique
      have hb : R b := (hunique ()).mpr rfl
      apply (ih fun b hb => hf b (.tail _ hb)).congr _ fun _ _ => rfl
      intro _
      simp [hb]
    · intro _ hbs
      exact ⟨(), hbs b (by simp), by simp⟩

theorem located (h : Settles inv limit x right rows) (group : Group) (path : List String) :
    Settles inv limit (Run.located group path x) right rows := by
  intro p hinv hlimit
  rw [ends_located]
  exact h p hinv hlimit

end Settles

end Run

namespace Context

open Run

variable {c : Context σ} {answer : String → List Value → Except Error (List Row)} {inv : σ → Prop}

theorem settles_addRows (count : Nat) :
    Settles inv c.rowLimit (c.addRows count) (fun _ => True) fun _ => count := by
  intro p hinv hlimit
  rw [ends_addRows]
  constructor
  · rintro ⟨hpos, hlt⟩ _ _ (hzero | hle)
    · exact absurd hzero (Nat.ne_of_gt hpos)
    · exact absurd hlt (Nat.not_lt.mpr hle)
  · intro hwithin
    refine ⟨hinv, rfl, ?_, fun _ => by simp⟩
    rw [not_and_or, Nat.not_lt, Nat.not_lt, Nat.le_zero] at hwithin
    exact hwithin

/-- In the worlds of an invariant, which calls keep, an executor answers by a function of query and
parameters, and nobody asks to stop. -/
structure Steady (c : Context σ) (answer : String → List Value → Except Error (List Row))
    (inv : σ → Prop) : Prop where
  execute : ∀ w, inv w → ∀ query vector,
    (c.executor.execute query vector w).1 = answer query vector ∧
      inv (c.executor.execute query vector w).2
  executeBatch : ∀ w, inv w → ∀ query vectors,
    (c.executor.executeBatch query vectors w).1 = vectors.mapM (answer query) ∧
      inv (c.executor.executeBatch query vectors w).2
  uncancelled : ∀ w, inv w → c.cancelled w = false

theorem steady_answering (answer : String → List Value → Except Error (List Row)) (batch : Bool)
    (limit : Nat) :
    Steady (⟨.answering answer batch, fun _ => false, limit⟩ : Context σ) answer fun _ => True := by
  refine ⟨fun w _ query vector => ⟨?_, trivial⟩, fun w _ query vectors => ⟨?_, trivial⟩,
    fun _ _ => rfl⟩
  · change ((liftM (answer query vector) : Effect σ (List Row)) w).1 = _
    cases answer query vector <;> rfl
  · change ((liftM (vectors.mapM (answer query)) : Effect σ (List (List Row))) w).1 = _
    cases vectors.mapM (answer query) <;> rfl

namespace Steady

variable (h : c.Steady answer inv)
include h

theorem settles_checkCancelled :
    Settles inv c.rowLimit c.checkCancelled (fun _ => True) fun _ => 0 := by
  intro p hinv hlimit
  rw [ends_checkCancelled, h.uncancelled _ hinv]
  exact ⟨by simp, fun _ => ⟨hinv, rfl, hlimit, fun _ => by simp⟩⟩

theorem settles_prepare {group : Group} {path : List String} (hpath : group.name ∉ path) :
    Settles inv c.rowLimit (c.prepare group path) (fun plan => group.plan = some plan)
      fun _ => 0 := by
  intro p hinv hlimit
  rw [ends_prepare hpath, h.uncancelled _ hinv]
  refine ⟨by simp, fun _ => ?_⟩
  cases group.plan with
  | none => rintro _ ⟨⟩
  | some plan => exact ⟨hinv, rfl, hlimit, fun b => by simp [eq_comm]⟩

theorem settles_execute (query : String) (vector : List Value) :
    Settles inv c.rowLimit (c.execute query vector) (fun rows => answer query vector = .ok rows)
      fun _ => 0 := by
  refine h.settles_checkCancelled.bind_zero (fun _ _ => ?_) fun _ _ => ⟨(), trivial⟩
  refine (settles_countCall 1 false).bind_zero (fun _ _ => ?_) fun _ _ => ⟨(), trivial⟩
  exact settles_ofEffect fun w hinv => h.execute w hinv query vector

theorem settles_executeBatch (query : String) (vectors : List (List Value)) :
    Settles inv c.rowLimit (c.executeBatch query vectors)
      (List.Forall₂ (fun vector rows => answer query vector = .ok rows) vectors) fun _ => 0 := by
  refine h.settles_checkCancelled.bind_zero (fun _ _ => ?_) fun _ _ => ⟨(), trivial⟩
  refine (settles_countCall vectors.length true).bind_zero (fun _ _ => ?_) fun _ _ => ⟨(), trivial⟩
  refine (settles_ofEffect fun w hinv => h.executeBatch w hinv query vectors).bind_zero ?_
    fun answers hanswers => ⟨answers, mapM_eq_ok.mpr hanswers⟩
  intro answers hanswers
  have hforall := mapM_eq_ok.mp hanswers
  simp only [hforall.length_eq, ne_eq, not_true_eq_false, if_false]
  apply (settles_pure answers).congr _ fun _ _ => rfl
  intro answers'
  rw [← mapM_eq_ok, hanswers, Except.ok.injEq]
  exact eq_comm

theorem settles_executeAll (query : String) (vectors : List (List Value)) :
    Settles inv c.rowLimit (c.executeAll query vectors)
      (List.Forall₂ (fun vector rows => answer query vector = .ok rows) vectors) fun _ => 0 := by
  intro p hinv hlimit
  rw [Context.executeAll, ends_bind, ends_get]
  split
  · have hvectors : Settles inv c.rowLimit (vectors.mapM (c.execute query)) _ fun _ => _ :=
      Settles.mapM fun vector _ => h.settles_execute query vector
    exact hvectors.congr (fun _ => Iff.rfl) (fun _ _ => by simp) p hinv hlimit
  · exact h.settles_executeBatch query vectors p hinv hlimit

end Steady

end Context

end NestedViews
