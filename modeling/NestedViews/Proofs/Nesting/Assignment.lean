import NestedViews.Proofs.Nesting.Search
import NestedViews.Proofs.Success

namespace NestedViews

open ParentSearch Effect

/-- Definitions nest under an assignment of parents: climbs end, parents are declared or else bound
to, bindings read elements of groups further up, and queries have a placeholder for each. -/
structure Nests (definitions : List GroupDefinition) (parent? : String → Option String) :
    Prop where
  ends : ∀ d ∈ definitions, ∃ above, Climbs parent? d.name above
  declared : ∀ d ∈ definitions, ∀ p, d.parent = some p → parent? d.name = some p
  unbound : ∀ d ∈ definitions, d.parent = none → d.bindings = [] → parent? d.name = none
  bound : ∀ d ∈ definitions, d.parent = none → d.bindings ≠ [] →
    ∃ b ∈ d.bindings, ∃ p, b.group? = some p ∧ parent? d.name = some p
  isVirtual : ∀ d ∈ definitions, ∀ p, parent? d.name = some p →
    ∃ q ∈ definitions, q.name = p ∧ q.isVirtual
  reads : ∀ d ∈ definitions, ∀ b ∈ d.bindings, ∃ q ∈ definitions, ∃ e ∈ q.elements,
    splitQualified? b.element = some (q.name, e.name) ∧ Above parent? q.name d.name ∧
      ∀ type, b.expected = some type → e.type.canBecome type
  scans : ∀ d ∈ definitions, ∀ t, d.template = some t →
    ∃ found, Query.placeholders t.query = .ok found ∧ found.length = t.bindings.length

variable {definitions definitions' : List GroupDefinition} {d : GroupDefinition}

theorem mem_boundGroups {group : String} :
    group ∈ d.boundGroups ↔ ∃ b ∈ d.bindings, b.group? = some group := by
  simp [GroupDefinition.boundGroups, List.mem_eraseDups]

namespace Nests

variable {parent? parent?' : String → Option String} {name : String} {above : List String}

theorem isVirtual_of_climbs (h : Nests definitions parent?) (hclimbs : Climbs parent? name above)
    (hname : name ∈ definitions.map GroupDefinition.name) :
    ∀ a ∈ above, ∃ q ∈ definitions, q.name = a ∧ q.isVirtual := by
  induction hclimbs with
  | top => simp
  | @up name parent above hsome _ ih =>
    obtain ⟨d, hd, rfl⟩ := List.mem_map.mp hname
    obtain ⟨q, hq, rfl, hvirtual⟩ := h.isVirtual d hd parent hsome
    intro a ha
    cases ha with
    | head => exact ⟨q, hq, rfl, hvirtual⟩
    | tail _ ha => exact ih (List.mem_map_of_mem hq) a ha

theorem isVirtual_of_above (h : Nests definitions parent?) (hd : d ∈ definitions)
    (habove : Above parent? name d.name) : ∃ q ∈ definitions, q.name = name ∧ q.isVirtual := by
  obtain ⟨above, hclimbs, hmem⟩ := habove
  exact h.isVirtual_of_climbs hclimbs (List.mem_map_of_mem hd) name hmem

theorem above_of_mem_boundGroups (h : Nests definitions parent?) (hd : d ∈ definitions)
    {group : String} (hgroup : group ∈ d.boundGroups) : Above parent? group d.name := by
  obtain ⟨b, hb, hbgroup⟩ := mem_boundGroups.mp hgroup
  obtain ⟨q, _, e, _, hsplit, habove, _⟩ := h.reads d hd b hb
  simp only [Binding.group?, hsplit, Option.map_some, Option.some.injEq] at hbgroup
  exact hbgroup ▸ habove

theorem boundGroups_eq_nil (h : Nests definitions parent?) (hd : d ∈ definitions)
    (hbound : d.boundGroups = []) : d.bindings = [] := by
  cases hbindings : d.bindings with
  | nil => rfl
  | cons b bs =>
    obtain ⟨q, _, e, _, hsplit, _⟩ := h.reads d hd b (by simp [hbindings])
    have hmem : q.name ∈ d.boundGroups :=
      mem_boundGroups.mpr ⟨b, by simp [hbindings], by simp [Binding.group?, hsplit]⟩
    simp [hbound] at hmem

theorem parent_mem_boundGroups (h : Nests definitions parent?) (hd : d ∈ definitions)
    (hparent : d.parent = none) (hbound : d.boundGroups ≠ []) :
    ∃ p ∈ d.boundGroups, parent? d.name = some p ∧
      ∀ g ∈ d.boundGroups, g = p ∨ Above parent? g p := by
  have hbindings : d.bindings ≠ [] := by
    intro hnil
    simp [GroupDefinition.boundGroups, hnil] at hbound
  obtain ⟨b, hb, p, hbp, hp⟩ := h.bound d hd hparent hbindings
  refine ⟨p, mem_boundGroups.mpr ⟨b, hb, hbp⟩, hp, fun g hg => ?_⟩
  exact (h.above_of_mem_boundGroups hd hg).parent_or_above hp

theorem climbs_of_subset (h : Nests definitions parent?) (h' : Nests definitions' parent?')
    (hsub : definitions ⊆ definitions') (hclimbs : Climbs parent? name above)
    (hname : name ∈ definitions.map GroupDefinition.name) : Climbs parent?' name above := by
  induction hclimbs with
  | top hnone =>
    obtain ⟨d, hd, rfl⟩ := List.mem_map.mp hname
    apply Climbs.top
    cases hparent : d.parent with
    | some p => simp [h.declared d hd p hparent] at hnone
    | none =>
      by_cases hbound : d.boundGroups = []
      · exact h'.unbound d (hsub hd) hparent (h.boundGroups_eq_nil hd hbound)
      · obtain ⟨p, _, hp, _⟩ := h.parent_mem_boundGroups hd hparent hbound
        simp [hp] at hnone
  | @up name parent above hsome hclimbs ih =>
    obtain ⟨d, hd, rfl⟩ := List.mem_map.mp hname
    obtain ⟨q, hq, rfl, _⟩ := h.isVirtual d hd parent hsome
    have hclimbs' := ih (List.mem_map_of_mem hq)
    refine .up ?_ hclimbs'
    cases hparent : d.parent with
    | some p =>
      rw [h.declared d hd p hparent] at hsome
      rw [h'.declared d (hsub hd) p hparent, hsome]
    | none =>
      by_cases hbound : d.boundGroups = []
      · simp [h.unbound d hd hparent (h.boundGroups_eq_nil hd hbound)] at hsome
      · obtain ⟨p, hmem, hp, hall⟩ := h.parent_mem_boundGroups hd hparent hbound
        obtain ⟨p', hmem', hp', hall'⟩ := h'.parent_mem_boundGroups (hsub hd) hparent hbound
        rw [hsome] at hp
        cases hp
        -- Both choose a group that is bound to, so each choice is at or above the other.
        have habove : p' = q.name ∨ Above parent?' p' q.name := by
          apply (hall p' hmem').imp id
          rintro ⟨_, hclimbs'', ha⟩
          exact ⟨_, hclimbs', hclimbs.unique hclimbs'' ▸ ha⟩
        rw [hp', Above.antisymm habove (hall' q.name hmem)]

theorem parent?_of_subset (h : Nests definitions parent?) (h' : Nests definitions' parent?')
    (hsub : definitions ⊆ definitions') (hd : d ∈ definitions) :
    parent?' d.name = parent? d.name := by
  obtain ⟨above, hclimbs⟩ := h.ends d hd
  have hclimbs' := h.climbs_of_subset h' hsub hclimbs (List.mem_map_of_mem hd)
  cases hclimbs with
  | top hnone =>
    cases hclimbs' with
    | top hnone' => rw [hnone, hnone']
  | up hsome _ =>
    cases hclimbs' with
    | up hsome' _ => rw [hsome, hsome']

theorem parent?_eq (h : Nests definitions parent?) (h' : Nests definitions parent?')
    (hd : d ∈ definitions) : parent?' d.name = parent? d.name :=
  h.parent?_of_subset h' (List.Subset.refl definitions) hd

theorem length_le_of_climbs (h : Nests definitions parent?) (hclimbs : Climbs parent? name above)
    (hname : name ∈ definitions.map GroupDefinition.name) : above.length ≤ definitions.length := by
  have hsub : above ⊆ definitions.map GroupDefinition.name := by
    intro a ha
    obtain ⟨q, hq, rfl, _⟩ := h.isVirtual_of_climbs hclimbs hname a ha
    exact List.mem_map_of_mem hq
  have hle := (List.subperm_of_subset hclimbs.nodup.of_cons hsub).length_le
  simpa using hle

end Nests

section Search

variable {parent? : String → Option String} {stack : List String} {s : ParentSearch}
variable {step : String → Search (Option String)} {a : String} {above chain : List String}

def Assigned (parent? : String → Option String) (name : String) (parent : Option String) : Prop :=
  parent = parent? name

theorem ends_extend_of_climbs {steps : Nat} (hclimbs : Climbs parent? a above)
    (hsteps : above.length ≤ steps) (hnew : ∀ b ∈ above, b ∉ stack)
    (hstep : ∀ b ∈ above, Answers (Assigned parent?) False stack b (step b))
    (hchain : ∀ b ∈ above, b ∉ a :: chain) (hs : Known (Assigned parent?) stack s) :
    Ends (extend step steps (a :: chain) (parent? a)) s
      (fun all s' => all = above.reverse ++ a :: chain ∧ Known (Assigned parent?) stack s')
      fun _ _ => False := by
  induction hclimbs generalizing steps chain s with
  | top hnone =>
    rw [hnone]
    cases steps <;> exact ⟨rfl, hs⟩
  | @up a parent above hsome hclimbs ih =>
    rw [hsome]
    cases steps with
    | zero => simp at hsteps
    | succ steps =>
      have hnotPending : parent ∉ s.pending := hs.pending_eq ▸ hnew parent (by simp)
      have hnotMet : parent ∉ a :: chain := hchain parent (by simp)
      simp only [extend, ends_bind, ends_get, hnotPending, hnotMet, if_false]
      apply (hstep parent (by simp) s hs).mono _ fun _ _ h => h.1
      rintro _ s' ⟨rfl, hs'⟩
      have hchain' : ∀ b ∈ above, b ∉ parent :: a :: chain := by
        intro b hb hmem
        rw [List.mem_cons] at hmem
        rcases hmem with rfl | hmem
        · exact hclimbs.self_not_mem hb
        · exact hchain b (by simp [hb]) hmem
      apply (ih (by simpa using hsteps) (fun b hb => hnew b (by simp [hb]))
        (fun b hb => hstep b (by simp [hb])) hchain' hs').imp
      rintro all s'' ⟨rfl, hs''⟩
      exact ⟨by simp, hs''⟩

theorem ends_chainTo_of_climbs {steps : Nat} (hclimbs : Climbs parent? a above)
    (hsteps : above.length ≤ steps) (hnew : ∀ b ∈ above, b ∉ stack)
    (hstep : ∀ b ∈ a :: above, Answers (Assigned parent?) False stack b (step b))
    (hs : Known (Assigned parent?) stack s) :
    Ends (chainTo step steps a) s
      (fun all s' => all = (a :: above).reverse ∧ Known (Assigned parent?) stack s')
      fun _ _ => False := by
  simp only [chainTo, ends_bind]
  apply (hstep a (by simp) s hs).mono _ fun _ _ h => h.1
  rintro _ s' ⟨rfl, hs'⟩
  have hchain : ∀ b ∈ above, b ∉ [a] := by
    intro b hb hmem
    rw [List.mem_singleton] at hmem
    exact hclimbs.self_not_mem (hmem ▸ hb)
  apply (ends_extend_of_climbs hclimbs hsteps hnew (fun b hb => hstep b (by simp [hb])) hchain
    hs').imp
  rintro all s'' ⟨rfl, hs''⟩
  exact ⟨by simp, hs''⟩

theorem ends_deepest_of_above {steps : Nat} {bound : List String} {group p : String}
    (hp : p ∈ bound) (hall : ∀ g ∈ bound, g = p ∨ Above parent? g p)
    (hsteps : ∀ g ∈ bound, ∀ above, Climbs parent? g above → above.length ≤ steps)
    (hclimbs : ∃ above, Climbs parent? p above)
    (hnew : ∀ g, Above parent? g p → g ∉ stack)
    (hstep : ∀ g, g = p ∨ Above parent? g p → Answers (Assigned parent?) False stack g (step g))
    (hs : Known (Assigned parent?) stack s) :
    Ends (deepest step steps group bound) s
      (fun g s' => g = p ∧ Known (Assigned parent?) stack s') fun _ _ => False := by
  let Chain g chain := ∃ above, Climbs parent? g above ∧ chain = (g :: above).reverse
  have hbelow : ∀ g ∈ bound, ∀ b, Above parent? b g → Above parent? b p := by
    intro g hg b hb
    rcases hall g hg with rfl | hgp
    · exact hb
    · exact hb.trans hgp
  have hchain : ∀ g ∈ bound, ∀ s, Known (Assigned parent?) stack s →
      Ends (chainTo step steps g) s
        (fun chain s' => Chain g chain ∧ Known (Assigned parent?) stack s')
        fun _ _ => False := by
    intro g hg s hs
    obtain ⟨above, habove⟩ : ∃ above, Climbs parent? g above := by
      rcases hall g hg with rfl | hgp
      · exact hclimbs
      · exact hgp.climbs
    have hstep' : ∀ b ∈ g :: above, Answers (Assigned parent?) False stack b (step b) := by
      intro b hb
      rw [List.mem_cons] at hb
      rcases hb with rfl | hb
      · exact hstep b (hall b hg)
      · exact hstep b (.inr (hbelow g hg b ⟨above, habove, hb⟩))
    apply (ends_chainTo_of_climbs habove (hsteps g hg above habove)
      (fun b hb => hnew b (hbelow g hg b ⟨above, habove, hb⟩)) hstep' hs).imp
    rintro _ s' ⟨rfl, hs'⟩
    exact ⟨⟨above, habove, rfl⟩, hs'⟩
  simp only [deepest, ends_bind]
  apply (ends_mapM hchain hs).imp
  rintro chains s' ⟨hchains, hs'⟩
  split
  · rename_i g chain hfind
    obtain ⟨above, habove, rfl⟩ := List.forall₂_zip hchains (List.mem_of_find?_eq_some hfind)
    have hmem : p ∈ (g :: above).reverse := by
      have hfound := List.find?_some hfind
      simp only [List.all_eq_true, decide_eq_true_eq] at hfound
      exact hfound p hp
    rw [List.mem_reverse, List.mem_cons] at hmem
    have hpg : p = g ∨ Above parent? p g := hmem.imp id fun hmem => ⟨above, habove, hmem⟩
    have hg : g ∈ bound := (List.of_mem_zip (List.mem_of_find?_eq_some hfind)).1
    exact ⟨Above.antisymm (hall g hg) hpg, hs'⟩
  · rename_i hfind
    -- The chain of the lowest group holds all groups, so the search cannot have missed it.
    obtain ⟨chain, hzip⟩ := exists_mem_zip hchains hp
    obtain ⟨above, habove, hchain⟩ := List.forall₂_zip hchains hzip
    apply List.find?_eq_none.mp hfind (p, chain) hzip
    simp only [List.all_eq_true, decide_eq_true_eq]
    intro g hg
    rw [hchain, List.mem_reverse, List.mem_cons]
    rcases hall g hg with rfl | ⟨_, habove', hmem⟩
    · exact .inl rfl
    · exact .inr (habove.unique habove' ▸ hmem)

theorem isLeaf_eq_false {q : GroupDefinition}
    (hnames : (definitions.map GroupDefinition.name).Nodup) (hq : q ∈ definitions)
    (hvirtual : q.isVirtual) : isLeaf definitions q.name = false := by
  simp [isLeaf, definition?_of_mem hnames hq, hvirtual]

theorem ends_deepest_of_nests {group : String} (h : Nests definitions parent?)
    (hd : d ∈ definitions) (hparent : d.parent = none) (hbound : d.boundGroups ≠ [])
    (hnew : ∀ g, Above parent? g d.name → g ∉ stack)
    (hstep : ∀ g, Above parent? g d.name → Answers (Assigned parent?) False stack g (step g))
    (hs : Known (Assigned parent?) stack s) :
    Ends (deepest step (definitions.length + 1) group d.boundGroups) s
      (fun g s' => parent? d.name = some g ∧ Known (Assigned parent?) stack s')
      fun _ _ => False := by
  obtain ⟨p, hp, hassigned, hall⟩ := h.parent_mem_boundGroups hd hparent hbound
  have hpd : Above parent? p d.name := h.above_of_mem_boundGroups hd hp
  have habove : ∀ g, g = p ∨ Above parent? g p → Above parent? g d.name := by
    rintro g (rfl | hgp)
    · exact hpd
    · exact hgp.trans hpd
  have hsteps : ∀ g ∈ d.boundGroups, ∀ above, Climbs parent? g above →
      above.length ≤ definitions.length + 1 := by
    intro g hg above hclimbs
    obtain ⟨q, hq, rfl, _⟩ := h.isVirtual_of_above hd (h.above_of_mem_boundGroups hd hg)
    exact Nat.le_succ_of_le (h.length_le_of_climbs hclimbs (List.mem_map_of_mem hq))
  apply (ends_deepest_of_above hp hall hsteps hpd.climbs
    (fun g hg => hnew g (habove g (.inr hg))) (fun g hg => hstep g (habove g hg)) hs).imp
  rintro _ s' ⟨rfl, hs'⟩
  exact ⟨hassigned, hs'⟩

theorem ends_infer_of_nests (h : Nests definitions parent?)
    (hnames : (definitions.map GroupDefinition.name).Nodup) (hd : d ∈ definitions)
    (hnew : ∀ g, Above parent? g d.name → g ∉ stack)
    (hstep : ∀ g, Above parent? g d.name → Answers (Assigned parent?) False stack g (step g))
    (hs : Known (Assigned parent?) stack s) :
    Ends (infer definitions step d) s
      (fun parent s' => Assigned parent? d.name parent ∧ Known (Assigned parent?) stack s')
      fun _ _ => False := by
  cases hparent : d.parent with
  | some parent =>
    have hassigned := h.declared d hd parent hparent
    obtain ⟨q, hq, rfl, hvirtual⟩ := h.isVirtual d hd parent hassigned
    simp only [infer, hparent, ends_bind, ends_liftM, declared, definition?_of_mem hnames hq,
      hvirtual, if_true, ends_pure]
    exact ⟨hassigned.symm, hs⟩
  | none =>
    have hleaf : d.boundGroups.find? (isLeaf definitions) = none := by
      rw [List.find?_eq_none]
      intro g hg
      obtain ⟨q, hq, rfl, hvirtual⟩ := h.isVirtual_of_above hd (h.above_of_mem_boundGroups hd hg)
      simp [isLeaf_eq_false hnames hq hvirtual]
    simp only [infer, hparent, hleaf]
    split
    · rename_i hbound
      exact ⟨(h.unbound d hd hparent (h.boundGroups_eq_nil hd hbound)).symm, hs⟩
    · rename_i group hbound
      obtain ⟨p, hp, hassigned, _⟩ := h.parent_mem_boundGroups hd hparent (by simp [hbound])
      rw [hbound, List.mem_singleton] at hp
      exact ⟨(hp ▸ hassigned).symm, hs⟩
    · rename_i hbound _
      rw [ends_bind]
      apply (ends_deepest_of_nests h hd hparent hbound hnew hstep hs).imp
      rintro group s' ⟨hassigned, hs'⟩
      exact ⟨hassigned.symm, hs'⟩

theorem answers_parentOf_of_nests (h : Nests definitions parent?)
    (hnames : (definitions.map GroupDefinition.name).Nodup) {name : String}
    (hname : name ∈ definitions.map GroupDefinition.name) :
    Answers (Assigned parent?) False [] name
      (parentOf definitions (definitions.length + 1) name) := by
  apply answers_parentOf (fun stack name => name ∈ definitions.map GroupDefinition.name ∧
    ∀ q ∈ stack, Above parent? name q) _ _ _ ⟨hname, by simp⟩ List.nodup_nil (List.nil_subset _)
  · simp
  · rintro stack name ⟨_, hstack⟩ hmem
    exact Above.irrefl (hstack name hmem)
  · rintro stack name ⟨hname, _⟩ hnone
    obtain ⟨d, hd, rfl⟩ := List.mem_map.mp hname
    simp [definition?_of_mem hnames hd] at hnone
  · rintro stack name d step ⟨_, hstack⟩ hfound hstep s hs
    obtain ⟨hd, rfl⟩ := mem_of_definition? hfound
    apply (ends_infer_of_nests h hnames hd _ _ hs).mono (fun _ _ h => h) fun _ _ h => h.elim
    · intro g hg hmem
      rw [List.mem_cons] at hmem
      rcases hmem with rfl | hmem
      · exact Above.irrefl hg
      · exact Above.irrefl (hg.trans (hstack g hmem))
    · intro g hg
      obtain ⟨q, hq, rfl, _⟩ := h.isVirtual_of_above hd hg
      apply hstep
      refine ⟨List.mem_map_of_mem hq, fun b hb => ?_⟩
      rw [List.mem_cons] at hb
      rcases hb with rfl | hb
      · exact hg
      · exact hg.trans (hstack b hb)

/-- The search for the parents of definitions that nest finds the assignment they nest under. -/
theorem resolveParents_of_nests (h : Nests definitions parent?)
    (hnames : (definitions.map GroupDefinition.name).Nodup) :
    resolveParents definitions = .ok (definitions.map fun d => parent? d.name) := by
  have hparentOf : ∀ d ∈ definitions, ∀ s, Known (Assigned parent?) [] s →
      Ends (parentOf definitions (definitions.length + 1) d.name) s
        (fun parent s' => parent = parent? d.name ∧ Known (Assigned parent?) [] s')
        fun _ _ => False := by
    intro d hd s hs
    exact (answers_parentOf_of_nests h hnames (List.mem_map_of_mem hd) s hs).mono
      (fun _ _ h => h) fun _ _ h => h.1
  have hempty : Known (Assigned parent?) [] .empty := ⟨rfl, by simp [ParentSearch.empty]⟩
  obtain ⟨parents, hok, hparents, _⟩ := (ends_mapM hparentOf hempty).exists_ok
  have heq : parents = definitions.map fun d => parent? d.name := by
    rw [← List.forall₂_eq_eq_eq]
    simpa using hparents.flip
  exact heq ▸ hok

end Search

end NestedViews
