import NestedViews.Proofs.Assembly.DepthFirst
import NestedViews.Proofs.Assembly.Batched
import NestedViews.Proofs.Assembly.Faults

namespace NestedViews

open Effect

variable {σ : Type} {c : Catalog} {answer : String → List Value → Except Error (List Row)}
variable {ctx : Context σ} {inv : σ → Prop} {p : Progress σ} {g : Group} {groups : List Group}
variable {scope : Scope} {scopes : List Scope} {path : List String} {rows : List Row}
variable {answers : List (List Row)} {outlines : List Outline} {below : Error → Prop}

namespace Context.Steady

variable (hsteady : ctx.Steady answer inv) (hp : inv p.world)
include hsteady hp

theorem ends_prepare (hpath : g.name ∉ path) (hplan : ∃ plan, g.plan = some plan) :
    Ends (ctx.prepare g path) p (fun plan p' => g.plan = some plan ∧ inv p'.world)
      fun _ _ => False := by
  obtain ⟨plan, hplan⟩ := hplan
  simp [Context.ends_prepare hpath, hsteady.uncancelled _ hp, hplan, hp]

theorem ends_execute (query : String) (vector : List Value) :
    Ends (ctx.execute query vector) p
      (fun rows p' => answer query vector = .ok rows ∧ inv p'.world)
      fun e _ => answer query vector = .error e := by
  obtain ⟨hfst, hinv⟩ := hsteady.execute _ hp query vector
  rw [Context.ends_execute]
  refine ⟨fun h => ?_, fun _ => (ends_of_fst hfst hinv).mono (fun _ _ => id) fun _ _ h => h.1⟩
  simp [hsteady.uncancelled _ hp] at h

theorem ends_executeBatch (query : String) (vectors : List (List Value)) :
    Ends (ctx.executeBatch query vectors) p
      (fun answers p' => List.Forall₂ (fun vector rows => answer query vector = .ok rows) vectors
        answers ∧ inv p'.world)
      fun e _ => ∃ vector ∈ vectors, answer query vector = .error e := by
  obtain ⟨hfst, hinv⟩ := hsteady.executeBatch _ hp query vectors
  rw [Context.ends_executeBatch]
  refine ⟨fun h => ?_, fun _ => (ends_of_fst hfst hinv).mono ?_ fun _ _ h => mapM_eq_error h.1⟩
  · simp [hsteady.uncancelled _ hp] at h
  · rintro answers w ⟨hanswers, hw⟩
    have hforall := mapM_eq_ok.mp hanswers
    exact ⟨fun hne => absurd hforall.length_eq.symm hne, fun _ => ⟨hforall, hw⟩⟩

theorem ends_executeAll (query : String) (vectors : List (List Value)) :
    Ends (ctx.executeAll query vectors) p
      (fun answers p' => List.Forall₂ (fun vector rows => answer query vector = .ok rows) vectors
        answers ∧ inv p'.world)
      fun e _ => ∃ vector ∈ vectors, answer query vector = .error e := by
  have hcalls : ∀ vector ∈ vectors, ∀ q : Progress σ, inv q.world →
      Ends (ctx.execute query vector) q
        (fun rows q' => answer query vector = .ok rows ∧ inv q'.world)
        fun e _ => ∃ vector ∈ vectors, answer query vector = .error e := by
    intro vector hvector q hq
    exact (hsteady.ends_execute hq query vector).mono (fun _ _ => id) fun _ _ h =>
      ⟨vector, hvector, h⟩
  rw [executeAll, ends_bind, ends_get, ends_ite]
  exact ⟨fun _ => ends_mapM hcalls hp, fun _ => hsteady.ends_executeBatch hp query vectors⟩

end Context.Steady

theorem Context.ends_addRows_unlimited (hlimit : ctx.rowLimit = 0) (hp : inv p.world)
    (count : Nat) : Ends (ctx.addRows count) p (fun _ p' => inv p'.world) fun _ _ => False := by
  simp [hlimit, hp]

section DepthFirst

theorem ends_assembleNested_faulty
    (hgroups : ∀ g ∈ groups, ∀ p : Progress σ, inv p.world →
      Ends ((c.outline g).assembleAt ctx scope path) p (fun _ p' => inv p'.world)
        fun err _ => Faulty c answer g scope err) (hp : inv p.world) :
    Ends (Outline.assembleNested ctx (groups.map c.outline) scope path) p (fun _ p' => inv p'.world)
      fun err _ => ∃ g ∈ groups, Faulty c answer g scope err := by
  induction groups generalizing p with
  | nil => exact hp
  | cons g groups ih =>
    rw [List.map_cons, Outline.assembleNested, ends_bind]
    apply (hgroups g (.head _) p hp).mono
    · intro nodes p₁ hp₁
      rw [ends_bind]
      apply (ih (fun g hg => hgroups g (.tail _ hg)) hp₁).mono
      · exact fun _ _ hp₂ => hp₂
      · rintro err _ ⟨g', hg', hfaulty⟩
        exact ⟨g', .tail _ hg', hfaulty⟩
    · exact fun err _ hfaulty => ⟨g, .head _, hfaulty⟩

theorem ends_rows_faulty
    (hrows : ∀ row ∈ rows, row.length = g.arity → ∀ p : Progress σ, inv p.world →
      Ends (Outline.assembleNested ctx outlines (⟨g, row⟩ :: scope) path) p
        (fun _ p' => inv p'.world) fun err _ => below err) (hp : inv p.world) :
    Ends
      (rows.mapM fun row => do
        liftM (g.checkRow row)
        let collections ← Outline.assembleNested ctx outlines (⟨g, row⟩ :: scope) path
        return Node.ofRow g row collections) p
      (fun _ p' => inv p'.world) fun err _ => rows.forM g.checkRow = .error err ∨ below err := by
  induction rows generalizing p with
  | nil => exact hp
  | cons row rows ih =>
    have hchecks : (row :: rows).forM g.checkRow =
        g.checkRow row >>= fun _ => rows.forM g.checkRow := rfl
    rw [List.mapM_cons, ends_bind, ends_bind, ends_liftM, hchecks]
    cases hcheck : g.checkRow row with
    | error e => exact .inl rfl
    | ok _ =>
      dsimp only
      rw [ends_bind]
      apply (hrows row (.head _) (Group.checkRow_eq_ok.mp hcheck) p hp).mono
      · intro collections p₁ hp₁
        rw [ends_pure, ends_bind]
        exact ih (fun row hrow => hrows row (.tail _ hrow)) hp₁
      · exact fun _ _ hbelow => .inr hbelow

theorem ends_assembleAt_faulty (hc : c.Coherent) (hsteady : ctx.Steady answer inv)
    (hlimit : ctx.rowLimit = 0) (hg : g ∈ c.groups) (hplan : ∃ plan, g.plan = some plan)
    (hp : inv p.world) :
    Ends ((c.outline g).assembleAt ctx scope (c.pathTo g)) p (fun _ p' => inv p'.world)
      fun err _ => Faulty c answer g scope err := by
  revert scope p hplan
  apply hc.induction _ hg
  intro g hg ih p scope hplan hp
  rw [hc.outline_eq hg, Outline.assembleAt, Run.ends_located, ends_bind]
  apply (hsteady.ends_prepare hp (hc.name_not_mem_pathTo hg) hplan).mono
  · rintro plan p₁ ⟨hplan, hp₁⟩
    rw [ends_bind, ends_liftM]
    cases hvector : plan.parameters scope with
    | error e => exact .here (.binding hplan hvector)
    | ok vector =>
      dsimp only
      rw [ends_bind]
      apply (hsteady.ends_execute hp₁ plan.query vector).mono
      · rintro rows p₂ ⟨hrows, hp₂⟩
        rw [ends_bind]
        apply (Context.ends_addRows_unlimited hlimit hp₂ rows.length).mono
        · intro _ p₃ hp₃
          have hgets : g.Gets answer scope rows := ⟨plan, vector, hplan, hvector, hrows⟩
          have hbelow : ∀ row ∈ rows, row.length = g.arity → ∀ q : Progress σ, inv q.world →
              Ends (Outline.assembleNested ctx ((c.children g.name).map c.outline)
                (⟨g, row⟩ :: scope) (c.pathTo g ++ [g.name])) q (fun _ q' => inv q'.world)
                fun err _ => Faulty c answer g scope err := by
            intro row hrow hfits q hq
            apply (ends_assembleNested_faulty _ hq).mono
            · exact fun _ _ hq' => hq'
            · rintro err _ ⟨child, hchild, hfaulty⟩
              exact .below hgets hrow hfits hchild hfaulty
            · intro child hchild q hq
              rw [← hc.pathTo_of_mem_children hg hchild]
              exact ih child hchild (hc.exists_plan_of_mem_children hchild) hq
          apply (ends_rows_faulty hbelow hp₃).mono
          · exact fun _ _ hp₄ => hp₄
          · rintro err _ (hcheck | hfaulty)
            · exact .here (.of_checkRows hgets hcheck)
            · rwa [hfaulty.located_eq]
        · exact fun _ _ h => h.elim
      · exact fun e _ hrows => .here (.execution hplan hvector hrows)
  · exact fun _ _ h => h.elim

end DepthFirst

section Batched

theorem ends_assembleColumns_faulty
    (hgroups : ∀ g ∈ groups, ∀ p : Progress σ, inv p.world →
      Ends ((c.outline g).assembleAll ctx scopes path) p (fun _ p' => inv p'.world)
        fun err _ => ∃ scope ∈ scopes, Faulty c answer g scope err) (hp : inv p.world) :
    Ends (Outline.assembleColumns ctx (groups.map c.outline) scopes path) p
      (fun _ p' => inv p'.world)
      fun err _ => ∃ g ∈ groups, ∃ scope ∈ scopes, Faulty c answer g scope err := by
  induction groups generalizing p with
  | nil => exact hp
  | cons g groups ih =>
    rw [List.map_cons, Outline.assembleColumns, ends_bind]
    apply (hgroups g (.head _) p hp).mono
    · intro column p₁ hp₁
      rw [ends_bind]
      apply (ih (fun g hg => hgroups g (.tail _ hg)) hp₁).mono
      · exact fun _ _ hp₂ => hp₂
      · rintro err _ ⟨g', hg', hfaulty⟩
        exact ⟨g', .tail _ hg', hfaulty⟩
    · exact fun err _ hfaulty => ⟨g, .head _, hfaulty⟩

theorem ends_checkAnswers_faulty (hlimit : ctx.rowLimit = 0) (hp : inv p.world) :
    Ends
      (answers.forM fun rows => do
        ctx.addRows rows.length
        rows.forM fun row => liftM (g.checkRow row)) p
      (fun _ p' => (∀ rows ∈ answers, ∀ row ∈ rows, row.length = g.arity) ∧ inv p'.world)
      fun err _ => ∃ rows ∈ answers, rows.forM g.checkRow = .error err := by
  have hchecks : ∀ rows ∈ answers, ∀ q : Progress σ, inv q.world →
      Ends
        (do
          ctx.addRows rows.length
          rows.forM fun row => liftM (g.checkRow row) : Run σ Unit) q
        (fun _ q' => (∀ row ∈ rows, row.length = g.arity) ∧ inv q'.world)
        fun err _ => ∃ rows ∈ answers, rows.forM g.checkRow = .error err := by
    intro rows hrows q hq
    rw [ends_bind]
    apply (Context.ends_addRows_unlimited hlimit hq rows.length).mono
    · intro _ q' hq'
      rw [forM_liftM, ends_liftM]
      cases hcheck : rows.forM g.checkRow with
      | error e => exact ⟨rows, hrows, hcheck⟩
      | ok _ => exact ⟨Group.checkRows_eq_ok.mp hcheck, hq'⟩
    · exact fun _ _ h => h.elim
  exact ends_forM hchecks hp

theorem ends_assembleAll_faulty (hc : c.Coherent) (hsteady : ctx.Steady answer inv)
    (hlimit : ctx.rowLimit = 0) (hg : g ∈ c.groups) (hplan : ∃ plan, g.plan = some plan)
    (hp : inv p.world) :
    Ends ((c.outline g).assembleAll ctx scopes (c.pathTo g)) p (fun _ p' => inv p'.world)
      fun err _ => ∃ scope ∈ scopes, Faulty c answer g scope err := by
  revert scopes p hplan
  apply hc.induction _ hg
  intro g hg ih p scopes hplan hp
  rw [hc.outline_eq hg, Outline.assembleAll, Run.ends_located, ends_bind]
  apply (hsteady.ends_prepare hp (hc.name_not_mem_pathTo hg) hplan).mono
  · rintro plan p₁ ⟨hplan, hp₁⟩
    rw [ends_ite]
    refine ⟨fun _ => hp₁, fun _ => ?_⟩
    rw [ends_bind, ends_liftM]
    cases hvectors : scopes.mapM plan.parameters with
    | error e =>
      obtain ⟨scope, hscope, hvector⟩ := mapM_eq_error hvectors
      exact ⟨scope, hscope, .here (.binding hplan hvector)⟩
    | ok vectors =>
      have hvectors := mapM_eq_ok.mp hvectors
      dsimp only
      rw [ends_bind]
      apply (hsteady.ends_executeAll hp₁ plan.query vectors).mono
      · rintro answers p₂ ⟨hanswers, hp₂⟩
        have hgets : List.Forall₂ (g.Gets answer) scopes answers :=
          forall₂_trans hvectors hanswers fun _ _ vector _ hvector hrows =>
            ⟨plan, vector, hplan, hvector, hrows⟩
        rw [ends_bind]
        apply (ends_checkAnswers_faulty hlimit hp₂).mono
        · rintro _ p₃ ⟨hfits, hp₃⟩
          rw [ends_bind]
          apply (ends_assembleColumns_faulty _ hp₃).mono
          · exact fun _ _ hp₄ => hp₄
          · rintro err _ ⟨child, hchild, s, hs, hfaulty⟩
            obtain ⟨scope, rows, hzip, row, hrow, rfl⟩ := mem_zip_of_mem_rowScopes hs
            obtain ⟨hscope, hmem⟩ := List.of_mem_zip hzip
            have hrows := List.forall₂_zip hgets hzip
            refine ⟨scope, hscope, ?_⟩
            rw [hfaulty.located_eq]
            exact .below hrows hrow (hfits rows hmem row hrow) hchild hfaulty
          · intro child hchild q hq
            rw [← hc.pathTo_of_mem_children hg hchild]
            exact ih child hchild (hc.exists_plan_of_mem_children hchild) hq
        · rintro err _ ⟨rows, hmem, hcheck⟩
          obtain ⟨scope, hscope, hrows⟩ := exists_mem_of_forall₂ hgets hmem
          exact ⟨scope, hscope, .here (.of_checkRows hrows hcheck)⟩
      · rintro e _ ⟨vector, hmem, hrows⟩
        obtain ⟨scope, hscope, hvector⟩ := exists_mem_of_forall₂ hvectors hmem
        exact ⟨scope, hscope, .here (.execution hplan hvector hrows)⟩
  · exact fun _ _ h => h.elim

end Batched

end NestedViews
