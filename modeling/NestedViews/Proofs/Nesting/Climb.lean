import Mathlib
import NestedViews.Nesting.Basic

namespace NestedViews

inductive Climbs (parent? : String → Option String) : String → List String → Prop
  | top {name} : parent? name = none → Climbs parent? name []
  | up {name parent above} : parent? name = some parent → Climbs parent? parent above →
      Climbs parent? name (parent :: above)

def Above (parent? : String → Option String) (a name : String) : Prop :=
  ∃ above, Climbs parent? name above ∧ a ∈ above

namespace Climbs

variable {parent? : String → Option String} {name a : String} {above above' below : List String}

theorem unique (h : Climbs parent? name above) (h' : Climbs parent? name above') :
    above = above' := by
  induction h generalizing above' with
  | top hnone =>
    cases h' with
    | top => rfl
    | up hsome _ => simp [hnone] at hsome
  | up hsome _ ih =>
    cases h' with
    | top hnone => simp [hsome] at hnone
    | up hsome' h' =>
      rw [hsome] at hsome'
      cases hsome'
      rw [ih h']

theorem of_append (h : Climbs parent? name (below ++ a :: above)) : Climbs parent? a above := by
  induction below generalizing name with
  | nil =>
    cases h with
    | up _ h => exact h
  | cons b below ih =>
    cases h with
    | up _ h => exact ih h

theorem self_not_mem (h : Climbs parent? name above) : name ∉ above := by
  intro hmem
  obtain ⟨below, rest, rfl⟩ := List.append_of_mem hmem
  have hlength := congrArg List.length (h.unique h.of_append)
  simp at hlength
  omega

theorem nodup (h : Climbs parent? name above) : (name :: above).Nodup := by
  induction h with
  | top => simp
  | up hsome h ih => exact List.nodup_cons.mpr ⟨(up hsome h).self_not_mem, ih⟩

theorem congr {parent?' : String → Option String} (h : Climbs parent? name above)
    (heq : ∀ a ∈ name :: above, parent?' a = parent? a) : Climbs parent?' name above := by
  induction h with
  | top hnone => exact .top ((heq _ (by simp)).trans hnone)
  | up hsome _ ih => exact .up ((heq _ (by simp)).trans hsome) (ih fun a ha => heq a (.tail _ ha))

theorem parent_of_mem_dropLast (h : Climbs parent? name above)
    (hmem : a ∈ (name :: above).dropLast) : ∃ parent, parent? a = some parent := by
  induction h with
  | top => simp at hmem
  | up hsome _ ih =>
    rw [List.dropLast_cons_cons] at hmem
    cases hmem with
    | head => exact ⟨_, hsome⟩
    | tail _ hmem => exact ih hmem

end Climbs

namespace Above

variable {parent? : String → Option String} {a b name parent : String}

theorem irrefl : ¬ Above parent? a a :=
  fun ⟨_, h, hmem⟩ => h.self_not_mem hmem

theorem climbs (h : Above parent? a name) : ∃ above, Climbs parent? a above := by
  obtain ⟨_, h, hmem⟩ := h
  obtain ⟨_, rest, rfl⟩ := List.append_of_mem hmem
  exact ⟨rest, h.of_append⟩

theorem trans (hab : Above parent? a b) (hb : Above parent? b name) : Above parent? a name := by
  obtain ⟨above, ha, hmem⟩ := hab
  obtain ⟨_, h, hmem'⟩ := hb
  obtain ⟨below, rest, rfl⟩ := List.append_of_mem hmem'
  obtain rfl := h.of_append.unique ha
  exact ⟨_, h, by simp [hmem]⟩

theorem antisymm (h : a = b ∨ Above parent? a b) (h' : b = a ∨ Above parent? b a) : a = b := by
  rcases h with rfl | h
  · rfl
  · rcases h' with rfl | h'
    · rfl
    · exact absurd (h.trans h') irrefl

theorem parent_or_above (h : Above parent? a name) (hparent : parent? name = some parent) :
    a = parent ∨ Above parent? a parent := by
  obtain ⟨_, h, hmem⟩ := h
  cases h with
  | top hnone => simp [hparent] at hnone
  | up hsome h =>
    rw [hparent] at hsome
    cases hsome
    exact (List.mem_cons.mp hmem).imp id fun hmem => ⟨_, h, hmem⟩

end Above

namespace Nesting

variable {n : Nesting} {name : String} {above met : List String} {steps : Nat}

theorem mem_entries_of_parent? {parent : String} (h : n.parent? name = some parent) :
    ⟨name, some parent⟩ ∈ n.entries := by
  have hmem := List.mem_of_getLast? h
  simp only [List.mem_filterMap, Option.ite_none_right_eq_some] at hmem
  obtain ⟨e, he, rfl, hparent⟩ := hmem
  exact hparent ▸ he

theorem mem_names_of_parent? {parent : String} (h : n.parent? name = some parent) :
    name ∈ n.entries.map NestingEntry.name :=
  List.mem_map_of_mem (mem_entries_of_parent? h)

theorem filterMap_parent {es : List NestingEntry} {e : NestingEntry}
    (hnodup : (es.map NestingEntry.name).Nodup) (he : e ∈ es) :
    (es.filterMap fun e' => if e'.name = e.name then e'.parent else none) = e.parent.toList := by
  induction es with
  | nil => cases he
  | cons first es ih =>
    rw [List.map_cons, List.nodup_cons] at hnodup
    obtain ⟨hfirst, hnodup⟩ := hnodup
    cases he with
    | head =>
      have hrest : (es.filterMap fun e' => if e'.name = e.name then e'.parent else none) = [] := by
        rw [List.filterMap_eq_nil_iff]
        intro e' he'
        have hne : e'.name ≠ e.name := fun heq => hfirst (heq ▸ List.mem_map_of_mem he')
        simp [hne]
      rw [List.filterMap_cons, if_pos rfl, hrest]
      cases e.parent <;> rfl
    | tail _ he =>
      have hne : first.name ≠ e.name := fun heq => hfirst (heq ▸ List.mem_map_of_mem he)
      rw [List.filterMap_cons, if_neg hne]
      exact ih hnodup he

theorem parent?_of_mem (hnodup : (n.entries.map NestingEntry.name).Nodup) {e : NestingEntry}
    (he : e ∈ n.entries) : n.parent? e.name = e.parent := by
  rw [parent?, filterMap_parent hnodup he]
  cases e.parent <;> rfl

theorem length_le_of_climbs (h : Climbs n.parent? name above) :
    above.length ≤ n.entries.length := by
  have hsub : (name :: above).dropLast ⊆ n.entries.map NestingEntry.name := by
    intro a ha
    obtain ⟨_, hparent⟩ := h.parent_of_mem_dropLast ha
    exact mem_names_of_parent? hparent
  have hle := (List.subperm_of_subset (h.nodup.sublist (List.dropLast_sublist _)) hsub).length_le
  simpa using hle

theorem climb_eq (h : Climbs n.parent? name above) (hsteps : above.length ≤ steps)
    (hmet : ∀ a ∈ above, a ∉ met) : n.climb steps met name = above := by
  induction h generalizing steps met with
  | top hnone => cases steps <;> simp [climb, hnone]
  | @up _ parent _ hsome h ih =>
    cases steps with
    | zero => simp at hsteps
    | succ steps =>
      have hparent : parent ∉ met := hmet parent (by simp)
      simp only [climb, hsome, hparent, if_false]
      rw [ih (by simpa using hsteps)]
      intro a ha
      rw [List.mem_cons, not_or]
      exact ⟨fun heq => h.self_not_mem (heq ▸ ha), hmet a (by simp [ha])⟩

theorem ancestors_eq (h : Climbs n.parent? name above) : n.ancestors name = above := by
  apply climb_eq h (length_le_of_climbs h)
  intro a ha heq
  rw [List.mem_singleton] at heq
  exact h.self_not_mem (heq ▸ ha)

theorem loopFrom?_eq_none (h : Climbs n.parent? name above) (hmet : ∀ a ∈ above, a ∉ met) :
    n.loopFrom? steps met name = none := by
  induction h generalizing steps met with
  | top hnone => cases steps <;> simp [loopFrom?, hnone]
  | @up _ parent _ hsome h ih =>
    cases steps with
    | zero => rfl
    | succ steps =>
      have hparent : parent ∉ met := hmet parent (by simp)
      simp only [loopFrom?, hsome, hparent, if_false]
      apply ih
      intro a ha
      rw [List.mem_cons, not_or]
      exact ⟨fun heq => h.self_not_mem (heq ▸ ha), hmet a (by simp [ha])⟩

theorem parent?_eq_none_of_length_le (hnodup : (name :: met).Nodup)
    (hmet : met ⊆ n.entries.map NestingEntry.name) (hlength : n.entries.length ≤ met.length) :
    n.parent? name = none := by
  cases hparent : n.parent? name with
  | none => rfl
  | some parent =>
    have hsub : name :: met ⊆ n.entries.map NestingEntry.name :=
      List.cons_subset.mpr ⟨mem_names_of_parent? hparent, hmet⟩
    have hle := (List.subperm_of_subset hnodup hsub).length_le
    simp at hle
    omega

/-- A search that finds no loop followed a climb to its end: all names it left are different ones
that were added, so it cannot have run out of steps on the way. -/
theorem climbs_of_loopFrom? (hnodup : (name :: met).Nodup)
    (hmet : met ⊆ n.entries.map NestingEntry.name)
    (hsteps : n.entries.length ≤ steps + met.length)
    (h : n.loopFrom? steps (name :: met) name = none) :
    ∃ above, Climbs n.parent? name above := by
  induction steps generalizing name met with
  | zero => exact ⟨_, .top (parent?_eq_none_of_length_le hnodup hmet (by simpa using hsteps))⟩
  | succ steps ih =>
    cases hparent : n.parent? name with
    | none => exact ⟨_, .top hparent⟩
    | some parent =>
      simp only [loopFrom?, hparent] at h
      split at h
      · cases h
      · rename_i hnew
        obtain ⟨above, habove⟩ := ih (List.nodup_cons.mpr ⟨hnew, hnodup⟩)
          (List.cons_subset.mpr ⟨mem_names_of_parent? hparent, hmet⟩) (by simp; omega) h
        exact ⟨_, .up hparent habove⟩

theorem findCycle?_eq_none_iff :
    n.findCycle? = none ↔ ∀ e ∈ n.entries, ∃ above, Climbs n.parent? e.name above := by
  simp only [findCycle?, List.findSome?_eq_none_iff]
  constructor
  · intro h e he
    exact climbs_of_loopFrom? (by simp) (by simp) (by simp) (h e he)
  · intro h e he
    obtain ⟨above, habove⟩ := h e he
    apply loopFrom?_eq_none habove
    intro a ha heq
    rw [List.mem_singleton] at heq
    exact habove.self_not_mem (heq ▸ ha)

end Nesting

end NestedViews
