import Mathlib
import NestedViews.Catalog.Basic

namespace NestedViews

section Named

variable {α : Type} {name : α → String} {as bs : List α} {a : α}

theorem find?_name (hnodup : (as.map name).Nodup) (ha : a ∈ as) :
    as.find? (fun b => name b = name a) = some a := by
  induction as with
  | nil => cases ha
  | cons b as ih =>
    rw [List.map_cons, List.nodup_cons] at hnodup
    cases ha with
    | head => simp
    | tail _ ha =>
      have hne : name b ≠ name a := fun heq => hnodup.1 (heq ▸ List.mem_map_of_mem ha)
      simp [hne, ih hnodup.2 ha]

theorem filterMap_find?_name (hnodup : (as.map name).Nodup) (hbs : ∀ b ∈ bs, b ∈ as) :
    ((bs.map name).filterMap fun n => as.find? fun b => name b = n) = bs := by
  induction bs with
  | nil => rfl
  | cons b bs ih =>
    rw [List.map_cons, List.filterMap_cons, find?_name hnodup (hbs b (by simp))]
    rw [ih fun b' hb' => hbs b' (by simp [hb'])]

theorem name_of_find? {n : String} (h : as.find? (fun b => name b = n) = some a) :
    a ∈ as ∧ name a = n := by
  have hname := List.find?_some h
  exact ⟨List.mem_of_find?_eq_some h, by simpa using hname⟩

theorem find?_name_perm (hnodup : (as.map name).Nodup) (hperm : as.Perm bs) (n : String) :
    (as.find? fun b => name b = n) = bs.find? fun b => name b = n := by
  cases hfound : bs.find? fun b => name b = n with
  | none =>
    rw [List.find?_eq_none] at hfound ⊢
    exact fun a ha => hfound a (hperm.mem_iff.mp ha)
  | some b =>
    obtain ⟨hb, rfl⟩ := name_of_find? hfound
    exact find?_name hnodup (hperm.mem_iff.mpr hb)

theorem map_name_filterMap_find? {ns : List String} (h : ∀ n ∈ ns, ∃ a ∈ as, name a = n) :
    (ns.filterMap fun n => as.find? fun b => name b = n).map name = ns := by
  induction ns with
  | nil => rfl
  | cons n ns ih =>
    obtain ⟨a, ha, hname⟩ := h n (by simp)
    have hsome : (as.find? fun b => name b = n).isSome := by
      rw [List.find?_isSome]
      exact ⟨a, ha, by simpa using hname⟩
    obtain ⟨b, hb⟩ := Option.isSome_iff_exists.mp hsome
    rw [List.filterMap_cons, hb, List.map_cons, (name_of_find? hb).2]
    rw [ih fun n hn => h n (.tail _ hn)]

end Named

variable {definitions : List GroupDefinition} {d : GroupDefinition}

theorem definition?_of_mem (hnames : (definitions.map GroupDefinition.name).Nodup)
    (hd : d ∈ definitions) : definition? definitions d.name = some d :=
  find?_name hnames hd

theorem mem_of_definition? {name : String} (h : definition? definitions name = some d) :
    d ∈ definitions ∧ d.name = name :=
  name_of_find? h

theorem mem_names_of_definition? {name : String} (h : definition? definitions name = some d) :
    name ∈ definitions.map GroupDefinition.name := by
  obtain ⟨hd, rfl⟩ := mem_of_definition? h
  exact List.mem_map_of_mem hd

end NestedViews
