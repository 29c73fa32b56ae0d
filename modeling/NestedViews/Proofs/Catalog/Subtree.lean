import NestedViews.Proofs.Catalog.Forest

namespace NestedViews

namespace Outline

mutual

def groups : Outline → List Group
  | .mk group nested => group :: groupsAll nested

def groupsAll : List Outline → List Group
  | [] => []
  | o :: rest => o.groups ++ groupsAll rest

end

theorem groupsAll_eq (outlines : List Outline) : groupsAll outlines = outlines.flatMap groups :=
  eq_flatMap rfl (fun _ _ => rfl) outlines

theorem group_mem_groups (o : Outline) : o.group ∈ o.groups := by
  cases o with
  | mk group nested => exact .head _

inductive Linked : Outline → Prop
  | mk {group nested} : (∀ o ∈ nested, o.group.parent = some group.name) → (∀ o ∈ nested, Linked o) →
      Linked (.mk group nested)

mutual

theorem Linked.exists_parent : (o : Outline) → o.Linked → ∀ g ∈ groupsAll o.nested,
    ∃ p ∈ o.groups, g.parent = some p.name
  | .mk group nested => by
    rintro ⟨hparent, hlinked⟩ g hg
    rcases Linked.exists_parent_or nested hlinked g hg with ⟨o, ho, rfl⟩ | ⟨p, hp, hgp⟩
    · exact ⟨group, .head _, hparent o ho⟩
    · exact ⟨p, .tail _ hp, hgp⟩

theorem Linked.exists_parent_or : (outlines : List Outline) → (∀ o ∈ outlines, o.Linked) →
    ∀ g ∈ groupsAll outlines,
      (∃ o ∈ outlines, g = o.group) ∨ ∃ p ∈ groupsAll outlines, g.parent = some p.name
  | [] => by
    intro _ g hg
    cases hg
  | .mk group nested :: rest => by
    intro hlinked g hg
    obtain ⟨hfirst, hrest⟩ := List.forall_mem_cons.mp hlinked
    rw [groupsAll, groups, List.cons_append] at hg
    rcases List.mem_cons.mp hg with rfl | hg
    · exact .inl ⟨_, .head _, rfl⟩
    · rcases List.mem_append.mp hg with hg | hg
      · obtain ⟨p, hp, hgp⟩ := Linked.exists_parent (.mk group nested) hfirst g hg
        exact .inr ⟨p, List.mem_append_left _ hp, hgp⟩
      · rcases Linked.exists_parent_or rest hrest g hg with ⟨o, ho, rfl⟩ | ⟨p, hp, hgp⟩
        · exact .inl ⟨o, .tail _ ho, rfl⟩
        · exact .inr ⟨p, List.mem_append_right _ hp, hgp⟩

end

end Outline

namespace Catalog

variable {c : Catalog} {g h child p : Group} {name : String}

def lineage (c : Catalog) (g : Group) : List Group :=
  g :: c.ancestors g.name

def subtree (c : Catalog) (g : Group) : List Group :=
  c.groups.filter fun h => g ∈ c.lineage h

namespace Coherent

theorem eq_of_name_eq (hc : c.Coherent) (hg : g ∈ c.groups) (hh : h ∈ c.groups)
    (hname : g.name = h.name) : g = h :=
  List.inj_on_of_nodup_map hc.names_nodup hg hh hname

theorem exists_parent (hc : c.Coherent) (hg : g ∈ c.groups) (hparent : g.parent = some name) :
    ∃ p ∈ c.groups, p.name = name := by
  obtain ⟨above, hclimbs⟩ := hc.exists_climbs hg
  have hnames := hc.map_name_ancestors hg hclimbs
  have hup := (hc.parent?_of_mem hg).trans hparent
  cases hclimbs with
  | top htop => cases htop.symm.trans hup
  | up hfirst _ =>
    cases hfirst.symm.trans hup
    obtain ⟨p, hp, hname⟩ := List.mem_map.mp (hnames ▸ List.mem_cons_self)
    exact ⟨p, mem_of_mem_ancestors hp, hname⟩

theorem lineage_of_root (hc : c.Coherent) (hg : g ∈ c.groups) (hparent : g.parent = none) :
    c.lineage g = [g] := by
  rw [lineage, hc.ancestors_of_root hg hparent]

theorem lineage_of_mem_children (hc : c.Coherent) (hg : g ∈ c.groups)
    (hchild : child ∈ c.children g.name) : c.lineage child = child :: c.lineage g := by
  rw [lineage, hc.ancestors_of_mem_children hg hchild, lineage]

theorem induction_up {motive : Group → Prop} (hc : c.Coherent)
    (root : ∀ g ∈ c.groups, g.parent = none → motive g)
    (step : ∀ g ∈ c.groups, ∀ child ∈ c.children g.name, motive g → motive child)
    (hg : g ∈ c.groups) : motive g := by
  induction hlevels : (c.ancestors g.name).length generalizing g with
  | zero =>
    cases hparent : g.parent with
    | none => exact root g hg hparent
    | some name =>
      obtain ⟨p, hp, rfl⟩ := hc.exists_parent hg hparent
      rw [hc.ancestors_of_parent hg hp hparent] at hlevels
      cases hlevels
  | succ levels ih =>
    cases hparent : g.parent with
    | none => exact root g hg hparent
    | some name =>
      obtain ⟨p, hp, rfl⟩ := hc.exists_parent hg hparent
      rw [hc.ancestors_of_parent hg hp hparent, List.length_cons] at hlevels
      exact step p hp g (hc.mem_children.mpr ⟨hg, hparent⟩) (ih hp (Nat.succ.inj hlevels))

/-- The groups around a group of a lineage are the rest of that lineage. -/
theorem lineage_suffix (hc : c.Coherent) (hh : h ∈ c.groups) (hg : g ∈ c.lineage h) :
    c.lineage g <:+ c.lineage h := by
  revert hg
  refine hc.induction_up (motive := fun h => g ∈ c.lineage h → c.lineage g <:+ c.lineage h) ?_ ?_ hh
  · intro h hh hparent hg
    rw [hc.lineage_of_root hh hparent, List.mem_singleton] at hg
    rw [hg]
  · intro p hp child hchild ih hg
    rw [hc.lineage_of_mem_children hp hchild] at hg ⊢
    rcases List.mem_cons.mp hg with rfl | hg
    · rw [hc.lineage_of_mem_children hp hchild]
    · exact (ih hg).trans (List.suffix_cons _ _)

theorem mem_lineage (hc : c.Coherent) (hg : g ∈ c.groups) (hh : h ∈ c.groups) :
    g ∈ c.lineage h ↔ h = g ∨ ∃ child ∈ c.children g.name, child ∈ c.lineage h := by
  constructor
  · refine hc.induction_up (motive := fun h => g ∈ c.lineage h →
      h = g ∨ ∃ child ∈ c.children g.name, child ∈ c.lineage h) ?_ ?_ hh
    · intro h hh hparent hg
      rw [hc.lineage_of_root hh hparent, List.mem_singleton] at hg
      exact .inl hg.symm
    · intro p hp child hchild ih hg
      rw [hc.lineage_of_mem_children hp hchild] at hg ⊢
      rcases List.mem_cons.mp hg with rfl | hg
      · exact .inl rfl
      · rcases ih hg with rfl | ⟨child', hchild', hmem⟩
        · exact .inr ⟨child, hchild, .head _⟩
        · exact .inr ⟨child', hchild', .tail _ hmem⟩
  · rintro (rfl | ⟨child, hchild, hmem⟩)
    · exact .head _
    · apply (hc.lineage_suffix hh hmem).subset
      rw [hc.lineage_of_mem_children hg hchild]
      exact .tail _ (.head _)

theorem groups_outline (hc : c.Coherent) (hg : g ∈ c.groups) : (c.outline g).groups =
    g :: (c.children g.name).flatMap fun child => (c.outline child).groups := by
  rw [hc.outline_eq hg, Outline.groups, Outline.groupsAll_eq, List.flatMap_map]

theorem mem_groups_outline (hc : c.Coherent) (hg : g ∈ c.groups) :
    h ∈ (c.outline g).groups ↔ h ∈ c.groups ∧ g ∈ c.lineage h := by
  revert h
  apply hc.induction _ hg
  intro g hg ih h
  rw [hc.groups_outline hg, List.mem_cons, List.mem_flatMap]
  constructor
  · rintro (rfl | ⟨child, hchild, hmem⟩)
    · exact ⟨hg, .head _⟩
    · obtain ⟨hh, hlineage⟩ := (ih child hchild).mp hmem
      exact ⟨hh, (hc.mem_lineage hg hh).mpr (.inr ⟨child, hchild, hlineage⟩)⟩
  · rintro ⟨hh, hlineage⟩
    apply ((hc.mem_lineage hg hh).mp hlineage).imp id
    rintro ⟨child, hchild, hmem⟩
    exact ⟨child, hchild, (ih child hchild).mpr ⟨hh, hmem⟩⟩

theorem linked_outline (hc : c.Coherent) (hg : g ∈ c.groups) : (c.outline g).Linked := by
  apply hc.induction _ hg
  intro g hg ih
  rw [hc.outline_eq hg]
  constructor
  · intro o ho
    obtain ⟨child, hchild, rfl⟩ := List.mem_map.mp ho
    rw [group_outline]
    exact (hc.mem_children.mp hchild).2
  · intro o ho
    obtain ⟨child, hchild, rfl⟩ := List.mem_map.mp ho
    exact ih child hchild

theorem nodup_children (hc : c.Coherent) : (c.children name).Nodup := by
  rw [hc.children_eq]
  exact (List.Nodup.of_map _ hc.names_nodup).filter _

theorem nodup_groups_outline (hc : c.Coherent) (hg : g ∈ c.groups) :
    (c.outline g).groups.Nodup := by
  apply hc.induction _ hg
  intro g hg ih
  have hmem : ∀ child ∈ c.children g.name, child ∈ c.groups :=
    fun child hchild => (hc.mem_children.mp hchild).1
  rw [hc.groups_outline hg, List.nodup_cons, List.nodup_flatMap]
  refine ⟨fun hself => ?_, ih, ?_⟩
  · obtain ⟨child, hchild, h⟩ := List.mem_flatMap.mp hself
    obtain ⟨_, hlineage⟩ := (hc.mem_groups_outline (hmem child hchild)).mp h
    have hle := (hc.lineage_suffix hg hlineage).length_le
    rw [hc.lineage_of_mem_children hg hchild, List.length_cons] at hle
    omega
  · -- Two groups with the same parent that a lineage has in common have the same rest in it.
    apply hc.nodup_children.pairwise_of_forall_ne
    intro child hchild child' hchild' hne h hin hin'
    obtain ⟨hh, hlineage⟩ := (hc.mem_groups_outline (hmem child hchild)).mp hin
    obtain ⟨_, hlineage'⟩ := (hc.mem_groups_outline (hmem child' hchild')).mp hin'
    have hsuffix := hc.lineage_suffix hh hlineage
    have hsuffix' := hc.lineage_suffix hh hlineage'
    rw [hc.lineage_of_mem_children hg hchild] at hsuffix
    rw [hc.lineage_of_mem_children hg hchild'] at hsuffix'
    have hsame := List.suffix_of_suffix_length_le hsuffix hsuffix' (by simp)
    exact hne (List.cons.inj (hsame.eq_of_length (by simp))).1

theorem nodup_names_outline (hc : c.Coherent) (hg : g ∈ c.groups) :
    ((c.outline g).groups.map Group.name).Nodup := by
  apply (hc.nodup_groups_outline hg).map_on
  intro h hh h' hh' hname
  exact hc.eq_of_name_eq ((hc.mem_groups_outline hg).mp hh).1 ((hc.mem_groups_outline hg).mp hh').1
    hname

theorem groups_outline_perm (hc : c.Coherent) (hg : g ∈ c.groups) :
    (c.outline g).groups.Perm (c.subtree g) := by
  have hnodup : (c.subtree g).Nodup := (List.Nodup.of_map _ hc.names_nodup).filter _
  rw [List.perm_ext_iff_of_nodup (hc.nodup_groups_outline hg) hnodup]
  intro h
  rw [hc.mem_groups_outline hg, subtree, List.mem_filter, decide_eq_true_eq]

end Coherent

end Catalog

end NestedViews
