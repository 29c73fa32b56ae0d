import NestedViews.Proofs.Assembly.Cancellation
import NestedViews.Proofs.Assembly.Statistics

/-! Row limits. A run with a limit goes like the run without one up to the rows that are too many,
and fails there before its next call. -/

namespace NestedViews

open Effect

variable {σ α β : Type} {limit : Nat}

inductive OverLimit (limit : Nat) : Error → Prop
  | raised : OverLimit limit (.rowLimit limit)
  | placed (group path) : OverLimit limit (.assembly group path (.rowLimit limit))

namespace OverLimit

variable {e : Error} {group : String} {path : List String}

theorem located (h : OverLimit limit e) (group : String) (path : List String) :
    OverLimit limit (e.located group path) := by
  cases h with
  | raised => exact .placed group path
  | placed group path => exact .placed group path

end OverLimit

structure Progress.Grows (p p' : Progress (Recorded σ)) : Prop where
  exchanges : p.world.exchanges <+: p'.world.exchanges
  rows : p.stats.rows ≤ p'.stats.rows

theorem Progress.Grows.trans {p p' p'' : Progress (Recorded σ)} (h : p.Grows p')
    (h' : p'.Grows p'') : p.Grows p'' :=
  ⟨h.exchanges.trans h'.exchanges, h.rows.trans h'.rows⟩

/-- A run goes like another one as long as there are not too many rows. Once the other one has
counted too many, it has failed for that, and before any call that the other one makes then. -/
def Run.Capped (limit : Nat) (x y : Run (Recorded σ) α) : Prop :=
  ∀ p, p.Grows (y p).2 ∧
    (p.stats.rows ≤ limit →
      x p = y p ∧ (y p).2.stats.rows ≤ limit ∨
      limit < (y p).2.stats.rows ∧ ∃ e p', x p = (.error e, p') ∧ OverLimit limit e ∧
        p'.world.exchanges <+: (y p).2.world.exchanges)

namespace Run.Capped

variable {x y : Run (Recorded σ) α} {f g : α → Run (Recorded σ) β}

theorem of_keeps
    (h : ∀ p, Ends x p
      (fun _ p' => p.world.exchanges <+: p'.world.exchanges ∧ p'.stats.rows = p.stats.rows)
      fun _ p' => p.world.exchanges <+: p'.world.exchanges ∧ p'.stats.rows = p.stats.rows) :
    Capped limit x x := by
  intro p
  obtain ⟨hexchanges, hrows⟩ : p.world.exchanges <+: (x p).2.world.exchanges ∧
    (x p).2.stats.rows = p.stats.rows := Ends.snd (h p)
  rw [hrows]
  exact ⟨⟨hexchanges, hrows.ge⟩, fun hle => .inl ⟨rfl, hle⟩⟩

theorem liftM (answer : Except Error α) :
    Capped limit (liftM answer : Run (Recorded σ) α) (liftM answer) :=
  of_keeps fun p => by cases answer <;> exact ⟨List.prefix_refl _, rfl⟩

theorem bind (h : Capped limit x y) (hf : ∀ a, Capped limit (f a) (g a)) :
    Capped limit (x >>= f) (y >>= g) := by
  intro p
  obtain ⟨hgrows, hcapped⟩ := h p
  rcases hy : y p with ⟨e | a, p₁⟩ <;> rw [hy] at hgrows hcapped
  · rw [bind_eq_of_error hy]
    refine ⟨hgrows, fun hle => ?_⟩
    rcases hcapped hle with ⟨hx, hle'⟩ | ⟨hlt, e', p', hx, hover⟩
    · exact .inl ⟨bind_eq_of_error hx, hle'⟩
    · exact .inr ⟨hlt, e', p', bind_eq_of_error hx, hover⟩
  · rw [bind_eq_of_ok hy]
    obtain ⟨hgrows', hcapped'⟩ := hf a p₁
    refine ⟨hgrows.trans hgrows', fun hle => ?_⟩
    rcases hcapped hle with ⟨hx, hle'⟩ | ⟨hlt, e', p', hx, hover, hprefix⟩
    · rw [bind_eq_of_ok hx]
      exact hcapped' hle'
    · -- What would have come next only adds to the rows and to the exchanges.
      exact .inr ⟨hlt.trans_le hgrows'.rows, e', p', bind_eq_of_error hx, hover,
        hprefix.trans hgrows'.exchanges⟩

theorem compositional (limit : Nat) : Compositional (fun α => @Capped σ α limit) :=
  ⟨liftM, bind⟩

theorem get_bind {f g : Progress (Recorded σ) → Run (Recorded σ) β}
    (h : ∀ p, Capped limit (f p) (g p)) : Capped limit (get >>= f) (get >>= g) :=
  fun p => h p p

theorem located (h : Capped limit x y) (group : Group) (path : List String) :
    Capped limit (located group path x) (located group path y) := by
  intro p
  have hlocated : ∀ z : Run (Recorded σ) α, Run.located group path z p =
      ((z p).1.mapError (Error.located group.name path), (z p).2) := fun _ => rfl
  obtain ⟨hgrows, hcapped⟩ := h p
  rw [hlocated y]
  refine ⟨hgrows, fun hle => ?_⟩
  rcases hcapped hle with ⟨hx, hle'⟩ | ⟨hlt, e, p', hx, hover, hprefix⟩
  · exact .inl ⟨by rw [hlocated x, hx], hle'⟩
  · exact .inr ⟨hlt, _, p', by rw [hlocated x, hx]; rfl, hover.located group.name path, hprefix⟩

end Run.Capped

def CappedBy (limit : Nat) (rows : α → Nat) (x y : Effect (Recorded σ) α) : Prop :=
  ∀ r, Ends y r
    (fun a r' => (rows a ≤ limit → x r = y r) ∧
      (limit < rows a →
        (∃ group path, (x r).1 = .error (.assembly group path (.rowLimit limit))) ∧
          (x r).2.exchanges <+: r'.exchanges))
    fun _ _ => True

namespace CappedBy

variable {rows : α → Nat} {x y : Effect (Recorded σ) α}

theorem liftM_bind {answer : Except Error β} {f g : β → Effect (Recorded σ) α}
    (h : ∀ b, answer = .ok b → CappedBy limit rows (f b) (g b)) :
    CappedBy limit rows (liftM answer >>= f) (liftM answer >>= g) := by
  intro r
  cases answer with
  | error e => trivial
  | ok b => exact h b rfl r

theorem ite {p : Prop} [Decidable p] {x' y' : Effect (Recorded σ) α} (h : CappedBy limit rows x y)
    (h' : CappedBy limit rows x' y') :
    CappedBy limit rows (if p then x else x') (if p then y else y') := by
  split
  · exact h
  · exact h'

theorem map {count : β → Nat} {f : α → β} (h : CappedBy limit rows x y)
    (hcount : ∀ r, Ends y r (fun a _ => count (f a) = rows a) fun _ _ => True) :
    CappedBy limit count (x >>= fun a => pure (f a)) (y >>= fun a => pure (f a)) := by
  intro r
  rw [ends_bind]
  have hcapped := h r
  have hcount := hcount r
  unfold Ends at hcapped hcount ⊢
  rcases hy : y r with ⟨e | a, r'⟩
  · trivial
  · rw [hy] at hcapped hcount
    obtain ⟨hwithin, hbeyond⟩ := hcapped
    rw [← hcount] at hwithin hbeyond
    refine ⟨fun hle => ?_, fun hlt => ?_⟩
    · rw [bind_eq_of_ok (hwithin hle), bind_eq_of_ok hy]
    · obtain ⟨⟨group, path, herror⟩, hprefix⟩ := hbeyond hlt
      rw [bind_eq_of_error (Prod.ext herror rfl)]
      exact ⟨⟨group, path, rfl⟩, hprefix⟩

end CappedBy

namespace Assembler

variable {a : Assembler σ} {name : String} {rows : List Row}

def withRowLimit (a : Assembler σ) (rowLimit : Nat) : Assembler σ :=
  { a with config := { a.config with rowLimit } }

section Steps

end Steps

section AssembleIn

variable {g : Group} {scope : Scope} {world : σ} {p : Progress σ}

end AssembleIn

/-- What a row limit makes of an assembly that succeeds after a number of rows if there is none. As
long as there are not more rows, nothing changes. Else it fails for that, at some place, and what it
has exchanged is a first part of what is exchanged without a limit. -/
structure Limited (a : Assembler σ) (limit : Nat) (world : σ)
    (run : ∀ ⦃τ : Type⦄, Assembler τ → Effect τ α) (rows : Nat) : Prop where
  within : rows ≤ limit →
    run (a.withRowLimit limit) world = run (a.withRowLimit 0) world ∧
      run (a.withRowLimit limit).recorded ⟨world, []⟩ =
        run (a.withRowLimit 0).recorded ⟨world, []⟩
  beyond : limit < rows →
    (∃ group path, (run (a.withRowLimit limit) world).1 =
        .error (.assembly group path (.rowLimit limit))) ∧
      (run (a.withRowLimit limit).recorded ⟨world, []⟩).2.exchanges <+:
        (run (a.withRowLimit 0).recorded ⟨world, []⟩).2.exchanges

namespace Limited

variable {world : σ} {run : ∀ ⦃τ : Type⦄, Assembler τ → Effect τ α}

theorem map {rows : Nat} (h : Limited a limit world run rows) (f : α → β) :
    Limited a limit world (fun _ b => run b >>= fun out => pure (f out)) rows := by
  have hrun : ∀ {τ : Type} (b : Assembler τ) (w : τ),
      (run b >>= fun out => pure (f out)) w = ((run b w).1.map f, (run b w).2) := by
    intro τ b w
    rcases hout : run b w with ⟨e | out, w'⟩
    · exact bind_eq_of_error hout
    · exact bind_eq_of_ok hout
  constructor
  · intro hle
    obtain ⟨hplain, hrecorded⟩ := h.within hle
    exact ⟨by rw [hrun, hrun, hplain], by rw [hrun, hrun, hrecorded]⟩
  · intro hlt
    obtain ⟨⟨group, path, herror⟩, hprefix⟩ := h.beyond hlt
    rw [hrun, hrun, hrun, herror]
    exact ⟨⟨group, path, rfl⟩, hprefix⟩

end Limited

end Assembler

end NestedViews
