import NestedViews.Proofs.Catalog.Acceptance
import NestedViews.Proofs.Nesting.Reports

namespace NestedViews

open ParentSearch

variable {definitions : List GroupDefinition} {d : GroupDefinition} {b : Binding}
variable {path : List String} {group : String}

theorem Slot.compile_ne_cyclic {ancestors : List GroupDefinition} :
    Slot.compile group ancestors b ≠ .error (.cyclic path) := by
  intro h
  unfold compile at h
  -- Each of the five lookups refuses for a reason of its own, and so does the check of the type.
  iterate 5
    split at h
    rotate_left
    · cases h
  dsimp only at h
  split at h
  · split at h <;> cases h
  · cases h

theorem Plan.compile_ne_cyclic {ancestors : List GroupDefinition} {t : QueryTemplate} :
    Plan.compile group t ancestors ≠ .error (.cyclic path) := by
  intro h
  unfold compile at h
  cases hfound : Query.placeholders t.query with
  | error fault =>
    simp only [hfound] at h
    cases h
  | ok found =>
    simp only [hfound, pure_bind] at h
    split at h
    · cases h
    · rcases bind_eq_error.mp h with h | ⟨_, _, h⟩
      · obtain ⟨_, _, hslot⟩ := mapM_eq_error h
        exact Slot.compile_ne_cyclic hslot
      · cases h

namespace Catalog

theorem compileGroup_ne_cyclic {n : Nesting} {parent : Option String} :
    compileGroup definitions n d parent ≠ .error (.cyclic path) := by
  intro h
  rw [compileGroup, bind_eq_error] at h
  rcases h with h | ⟨_, _, h⟩
  · cases htemplate : d.template with
    | none =>
      rw [htemplate] at h
      cases h
    | some t =>
      rw [htemplate, Option.mapM_some, map_eq_error] at h
      exact Plan.compile_ne_cyclic h
  · cases h

theorem checkBinding_ne_cyclic : checkBinding definitions b ≠ .error (.cyclic path) := by
  intro h
  simp only [checkBinding] at h
  split at h <;> cases h

theorem boundEnclose_of_checkBinding (hnames : (definitions.map GroupDefinition.name).Nodup)
    (h : ∀ d ∈ definitions, ∀ b ∈ d.bindings, checkBinding definitions b = .ok ()) :
    BoundEnclose definitions := by
  intro d hd hparent g hg
  obtain ⟨b, hb, hbgroup⟩ := mem_boundGroups.mp hg
  obtain ⟨q, hq, e, he, hsplit⟩ := (checkBinding_eq_ok hnames).mp (h d hd b hb)
  have hname : q.name = g := by simpa [Binding.group?, hsplit] using hbgroup
  exact ⟨d, hd, rfl, .inr ⟨hparent, b, hb, q, hq, hname, e, he, hsplit⟩⟩

theorem encloses_of_allows {p : String} (hbound : BoundEnclose definitions) (hd : d ∈ definitions)
    (h : Allows definitions d (some p)) : Encloses definitions p d.name := by
  cases h with
  | declared hparent _ _ => exact encloses_of_declared hd hparent
  | bound hparent hgroup _ => exact hbound d hd hparent p hgroup

theorem encloses_of_isParent {parents : List (Option String)} {outer inner : String}
    (hbound : BoundEnclose definitions)
    (hallows : List.Forall₂ (Allows definitions) definitions parents)
    (h : (nestingOf definitions parents).IsParent outer inner) : Encloses definitions outer inner := by
  have hentry := Nesting.mem_entries_of_parent? h
  obtain ⟨⟨d, parent⟩, hmem, hentry⟩ := List.mem_map.mp hentry
  cases hentry
  exact encloses_of_allows hbound (List.of_mem_zip hmem).1 (List.forall₂_zip hallows hmem)

/-- The cycle for which registered definitions are refused comes back to where it starts and passes
every other group once. Each group on it encloses the next one: directly, or else with other groups
in between, where the next one declares no parent and binds to several groups. -/
theorem isCycle_of_build (hregistered : definitions.foldlM register [] = .ok definitions)
    (h : build definitions = .error (.cyclic path)) : IsCycle (LeadsIn definitions) path := by
  obtain ⟨_, hnodup, _⟩ := of_foldlM_register hregistered
  have hnames : (definitions.map GroupDefinition.name).Nodup := hnodup (by simp)
  rw [build, bind_eq_error] at h
  rcases h with h | ⟨_, hbindings, h⟩
  · obtain ⟨_, _, _, _, _, h⟩ := forM_eq_error.mp h
    obtain ⟨_, _, _, _, _, h⟩ := forM_eq_error.mp h
    exact absurd h checkBinding_ne_cyclic
  · have hbound : BoundEnclose definitions :=
      boundEnclose_of_checkBinding hnames fun d hd => forM_eq_ok.mp (forM_eq_ok.mp hbindings d hd)
    rw [bind_eq_error] at h
    rcases h with h | ⟨parents, hparents, h⟩
    · exact isCycle_of_resolveParents hbound h
    · dsimp only at h
      split at h
      · rename_i cycle hcycle
        cases h
        have hallows := resolveParents_allows hnames hparents
        exact (Nesting.isCycle_of_findCycle? hcycle).imp fun _ _ h =>
          .inl (encloses_of_isParent hbound hallows h)
      · rcases bind_eq_error.mp h with h | ⟨_, _, h⟩
        · obtain ⟨_, _, h⟩ := mapM_eq_error h
          exact absurd h compileGroup_ne_cyclic
        · cases h

def shopDefinitions : List GroupDefinition :=
  [⟨"regions", [⟨"id", .int64⟩], some ⟨"SELECT id FROM regions", []⟩, none⟩,
    ⟨"tills", [⟨"id", .int64⟩], some ⟨"SELECT id FROM tills", []⟩, some "shops"⟩,
    ⟨"shops", [⟨"id", .int64⟩],
      some ⟨"SELECT id FROM shops WHERE region = ? AND clerk = ?",
        [⟨"regions.id", none⟩, ⟨"clerks.id", none⟩]⟩, none⟩,
    ⟨"clerks", [⟨"id", .int64⟩],
      some ⟨"SELECT id FROM clerks WHERE region = ? AND till = ?",
        [⟨"regions.id", none⟩, ⟨"tills.id", none⟩]⟩, none⟩]

theorem isCycle_of_build_shops :
    shopDefinitions.foldlM register [] = .ok shopDefinitions ∧
      build shopDefinitions = .error (.cyclic ["shops", "tills", "shops"]) ∧
      IsCycle (LeadsIn shopDefinitions) ["shops", "tills", "shops"] := by
  have hregistered : shopDefinitions.foldlM register [] = .ok shopDefinitions := by
    decide +kernel
  have hbuild : build shopDefinitions = .error (.cyclic ["shops", "tills", "shops"]) := by
    decide +kernel
  exact ⟨hregistered, hbuild, isCycle_of_build hregistered hbuild⟩

/-- The clerks, who are in between, are left out of the cycle: its last step is none. -/
theorem build_shops_skips_clerks :
    shopDefinitions.foldlM register [] = .ok shopDefinitions ∧
      build shopDefinitions = .error (.cyclic ["shops", "tills", "shops"]) ∧
      ¬Encloses shopDefinitions "tills" "shops" ∧
      Encloses shopDefinitions "tills" "clerks" ∧ Encloses shopDefinitions "clerks" "shops" := by
  decide +kernel

end Catalog

end NestedViews
