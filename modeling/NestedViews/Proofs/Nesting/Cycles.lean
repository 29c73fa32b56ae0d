import NestedViews.Proofs.Nesting.Climb

namespace NestedViews

structure IsCycle (R : String → String → Prop) (path : List String) : Prop where
  closed : ∃ outer inner, path = outer :: inner ++ [outer] ∧ (outer :: inner).Nodup
  linked : path.IsChain R

theorem IsCycle.imp {R S : String → String → Prop} {path : List String} (h : IsCycle R path)
    (himp : ∀ outer inner, R outer inner → S outer inner) : IsCycle S path :=
  ⟨h.closed, h.linked.imp himp⟩

theorem isCycle_closedPath {R : String → String → Prop} {met : List String} {again : String}
    (hlinked : (again :: met).IsChain R) (hnodup : met.Nodup) (hmem : again ∈ met) :
    IsCycle R (closedPath met again) := by
  obtain ⟨before, after, rfl, hbefore⟩ := List.eq_append_cons_of_mem hmem
  have hpath : closedPath (before ++ again :: after) again = again :: before ++ [again] := by
    have hne : ∀ a ∈ before, decide (a ≠ again) := by
      intro a ha
      simpa using fun heq : a = again => hbefore (heq ▸ ha)
    rw [closedPath, List.takeWhile_append_of_pos hne, List.takeWhile_cons_of_neg (by simp),
      List.append_nil]
  rw [hpath]
  refine ⟨⟨again, before, rfl, List.nodup_cons.mpr ⟨hbefore, hnodup.of_append_left⟩⟩, ?_⟩
  exact hlinked.prefix ⟨after, by simp⟩

/-- A climb from a group that passes only groups that were not met before, and that stops only where
there is no parent or the parent was met. -/
structure ClimbsPast (parent? : String → Option String) (met : List String) (name : String)
    (above : List String) : Prop where
  linked : (name :: above).IsChain fun inner outer => parent? inner = some outer
  nodup : (above.reverse ++ name :: met).Nodup
  stops : ∀ last ∈ (name :: above).getLast?, ∀ parent, parent? last = some parent →
    parent ∈ above.reverse ++ name :: met

namespace ClimbsPast

variable {parent? : String → Option String} {met above : List String} {name parent : String}

theorem stop (hnodup : (name :: met).Nodup)
    (hmet : ∀ parent, parent? name = some parent → parent ∈ name :: met) :
    ClimbsPast parent? met name [] := by
  refine ⟨List.isChain_singleton name, hnodup, ?_⟩
  rintro last ⟨⟩
  exact hmet

theorem up (hparent : parent? name = some parent)
    (h : ClimbsPast parent? (name :: met) parent above) :
    ClimbsPast parent? met name (parent :: above) := by
  have hmet : (parent :: above).reverse ++ name :: met = above.reverse ++ parent :: name :: met := by
    rw [List.reverse_cons, List.append_assoc, List.singleton_append]
  refine ⟨List.isChain_cons_cons.mpr ⟨hparent, h.linked⟩, hmet ▸ h.nodup, ?_⟩
  rw [hmet, List.getLast?_cons_cons]
  exact h.stops

end ClimbsPast

namespace Nesting

variable {n : Nesting} {name : String} {met path : List String} {steps : Nat}

def IsParent (n : Nesting) (outer inner : String) : Prop :=
  n.parent? inner = some outer

theorem isCycle_of_loopFrom? (hlinked : (name :: met).IsChain n.IsParent)
    (hnodup : (name :: met).Nodup) (h : n.loopFrom? steps (name :: met) name = some path) :
    IsCycle n.IsParent path := by
  induction steps generalizing name met with
  | zero => cases h
  | succ steps ih =>
    cases hparent : n.parent? name with
    | none => simp [loopFrom?, hparent] at h
    | some parent =>
      have hlinked' : (parent :: name :: met).IsChain n.IsParent :=
        List.isChain_cons_cons.mpr ⟨hparent, hlinked⟩
      simp only [loopFrom?, hparent] at h
      split at h
      · rename_i hmem
        cases h
        exact isCycle_closedPath hlinked' hnodup hmem
      · rename_i hnew
        exact ih hlinked' (List.nodup_cons.mpr ⟨hnew, hnodup⟩) h

theorem isCycle_of_findCycle? (h : n.findCycle? = some path) : IsCycle n.IsParent path := by
  obtain ⟨e, _, he⟩ := List.exists_of_findSome?_eq_some h
  exact isCycle_of_loopFrom? (List.isChain_singleton e.name) (by simp) he

theorem climbsPast_climb (hnodup : (name :: met).Nodup)
    (hmet : met ⊆ n.entries.map NestingEntry.name)
    (hsteps : n.entries.length ≤ steps + met.length) :
    ClimbsPast n.parent? met name (n.climb steps (name :: met) name) := by
  induction steps generalizing name met with
  | zero =>
    have hnone := parent?_eq_none_of_length_le hnodup hmet (by simpa using hsteps)
    exact .stop hnodup (by simp [hnone])
  | succ steps ih =>
    rw [climb]
    cases hparent : n.parent? name with
    | none => exact .stop hnodup (by simp [hparent])
    | some parent =>
      by_cases hmem : parent ∈ name :: met
      · simp only [hmem, if_true]
        exact .stop hnodup (by simpa [hparent] using hmem)
      · simp only [hmem, if_false]
        exact .up hparent (ih (List.nodup_cons.mpr ⟨hmem, hnodup⟩)
          (List.cons_subset.mpr ⟨mem_names_of_parent? hparent, hmet⟩) (by simp; omega))

theorem climbsPast_ancestors (n : Nesting) (name : String) :
    ClimbsPast n.parent? [] name (n.ancestors name) :=
  climbsPast_climb (by simp) (List.nil_subset _) (by simp)

def ofList (added : List (String × Option String)) : Nesting :=
  added.foldl (fun n group => n.add group.1 group.2) .empty

theorem entries_foldl_add (n : Nesting) (added : List (String × Option String)) :
    (added.foldl (fun n group => n.add group.1 group.2) n).entries =
      n.entries ++ added.map fun group => ⟨group.1, group.2⟩ := by
  induction added generalizing n with
  | nil => simp
  | cons group added ih =>
    rw [List.foldl_cons, ih, add, List.map_cons, List.append_assoc, List.singleton_append]

/-- Whatever groups are added, no cycle is found just if all climbs from them end, and what is found
is a cycle of parents. The ancestors of a name are different groups, each the parent of the one
before, up to one that has no parent or whose parent was passed; if the climb from the name ends,
they are the whole of it. -/
theorem findCycle?_and_ancestors (added : List (String × Option String)) :
    ((ofList added).findCycle? = none ↔
      ∀ name ∈ added.map Prod.fst, ∃ above, Climbs (ofList added).parent? name above) ∧
    (∀ path, (ofList added).findCycle? = some path → IsCycle (ofList added).IsParent path) ∧
    ∀ name,
      (name :: (ofList added).ancestors name).Nodup ∧
      (name :: (ofList added).ancestors name).IsChain
        (fun inner outer => (ofList added).parent? inner = some outer) ∧
      (∀ last ∈ (name :: (ofList added).ancestors name).getLast?, ∀ parent,
        (ofList added).parent? last = some parent →
          parent ∈ name :: (ofList added).ancestors name) ∧
      ∀ above, Climbs (ofList added).parent? name above →
        (ofList added).ancestors name = above := by
  have hentries : (ofList added).entries = added.map fun group => ⟨group.1, group.2⟩ :=
    entries_foldl_add .empty added
  refine ⟨?_, fun path => isCycle_of_findCycle?, fun name => ?_⟩
  · rw [findCycle?_eq_none_iff, hentries, List.forall_mem_map, List.forall_mem_map]
  · have hpast := climbsPast_ancestors (ofList added) name
    have hreverse : ((ofList added).ancestors name).reverse ++ [name] =
        (name :: (ofList added).ancestors name).reverse := List.reverse_cons.symm
    refine ⟨?_, hpast.linked, ?_, fun above => ancestors_eq⟩
    · rw [← List.nodup_reverse, ← hreverse]
      exact hpast.nodup
    · intro last hlast parent hparent
      rw [← List.mem_reverse, ← hreverse]
      exact hpast.stops last hlast parent hparent

end Nesting

end NestedViews
