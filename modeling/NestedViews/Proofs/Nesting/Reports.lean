import NestedViews.Proofs.Nesting.Cycles
import NestedViews.Proofs.Nesting.Search

/-! The cycles that the search for parents reports. Each group of a reported cycle encloses the next
one, but not always directly: where the parent of a group is searched for, the groups on the way
from it to the group that closes the cycle are left out. -/

namespace NestedViews

open Effect

variable {definitions : List GroupDefinition} {outer inner name group : String}

/-- One group directly encloses another one, as that one is defined: it is the declared parent, or
none is declared and a binding reads one of its elements. -/
def Encloses (definitions : List GroupDefinition) (outer inner : String) : Prop :=
  ∃ d ∈ definitions, d.name = inner ∧ (d.parent = some outer ∨ d.parent = none ∧
    ∃ b ∈ d.bindings, ∃ q ∈ definitions, q.name = outer ∧
      ∃ e ∈ q.elements, splitQualified? b.element = some (q.name, e.name))

instance : Decidable (Encloses definitions outer inner) :=
  inferInstanceAs (Decidable (∃ d ∈ definitions, d.name = inner ∧
    (d.parent = some outer ∨ d.parent = none ∧ ∃ b ∈ d.bindings, ∃ q ∈ definitions,
      q.name = outer ∧ ∃ e ∈ q.elements, splitQualified? b.element = some (q.name, e.name))))

def Searched (definitions : List GroupDefinition) (name : String) : Prop :=
  ∃ d ∈ definitions, d.name = name ∧ d.parent = none ∧ 2 ≤ d.boundGroups.length

/-- A step inward on a reported cycle: to a group that is directly enclosed, or to one whose parent
has to be searched for, with other groups in between. -/
def LeadsIn (definitions : List GroupDefinition) (outer inner : String) : Prop :=
  Encloses definitions outer inner ∨
    Searched definitions inner ∧ Relation.TransGen (Encloses definitions) outer inner

theorem LeadsIn.transGen (h : LeadsIn definitions outer inner) :
    Relation.TransGen (Encloses definitions) outer inner := by
  rcases h with h | ⟨_, h⟩
  · exact .single h
  · exact h

theorem transGen_of_isChain {R : String → String → Prop} {a : String} {as : List String}
    (h : (outer :: as).IsChain R) (ha : a ∈ as) : Relation.TransGen R outer a :=
  (h.imp fun _ _ => Relation.TransGen.single).rel_cons ha

namespace ParentSearch

variable {stack chain : List String} {s : ParentSearch} {parent : Option String}
variable {step : String → Search (Option String)} {d : GroupDefinition}

/-- The groups under way, latest first: all of them are searched for, and each one leads to the one
that it is needed for. -/
structure Underway (definitions : List GroupDefinition) (stack : List String) : Prop where
  nodup : stack.Nodup
  linked : stack.IsChain (LeadsIn definitions)
  searched : ∀ name ∈ stack, Searched definitions name

theorem Underway.nil : Underway definitions [] :=
  ⟨List.nodup_nil, .nil, by simp⟩

theorem Underway.length_le (h : Underway definitions stack) :
    stack.length ≤ definitions.length := by
  have hsub : stack ⊆ definitions.map GroupDefinition.name := by
    intro name hname
    obtain ⟨d, hd, rfl, _⟩ := h.searched name hname
    exact List.mem_map_of_mem hd
  simpa using (List.subperm_of_subset h.nodup hsub).length_le

theorem Underway.push (h : Underway definitions stack) (hname : name ∉ stack)
    (hleads : ∀ x ∈ stack, LeadsIn definitions name x) (hsearched : Searched definitions name) :
    Underway definitions (name :: stack) :=
  ⟨List.nodup_cons.mpr ⟨hname, h.nodup⟩, h.linked.cons fun x hx => hleads x (List.mem_of_head? hx),
    List.forall_mem_cons.mpr ⟨hsearched, h.searched⟩⟩

theorem Underway.leadsIn (h : Underway definitions (name :: stack))
    (hencloses : Encloses definitions outer name) :
    ∀ x ∈ name :: stack, LeadsIn definitions outer x := by
  intro x hx
  rcases List.mem_cons.mp hx with rfl | hx
  · exact .inl hencloses
  · have hinner : Relation.TransGen (Encloses definitions) name x := by
      have hlinked := h.linked.imp fun _ _ => LeadsIn.transGen
      exact hlinked.rel_cons hx
    exact .inr ⟨h.searched x (.tail _ hx), hinner.head hencloses⟩

def Placed (definitions : List GroupDefinition) (stack : List String) (name : String)
    (parent : Option String) : Prop :=
  name ∉ stack ∧ ∀ p ∈ parent, Encloses definitions p name

def Honest (definitions : List GroupDefinition) (e : Error) : Prop :=
  ∀ path, e = .cyclic path → IsCycle (LeadsIn definitions) path

def Reports (definitions : List GroupDefinition) (stack : List String) (name : String)
    (step : Search (Option String)) : Prop :=
  ∀ s, Known (Placed definitions stack) stack s →
    Ends step s
      (fun parent s' => Placed definitions stack name parent ∧
        Known (Placed definitions stack) stack s')
      fun e _ => Honest definitions e

theorem known_push (hs : Known (Placed definitions stack) stack s)
    (hlookup : s.found.lookup name = none) :
    Known (Placed definitions (name :: stack)) (name :: stack)
      { s with pending := name :: s.pending } := by
  apply hs.push.imp
  rintro entry hentry ⟨hnew, hencloses⟩
  have hne := List.lookup_eq_none_iff.mp hlookup entry hentry
  refine ⟨?_, hencloses⟩
  rw [List.mem_cons, not_or]
  exact ⟨fun heq => by simp [heq] at hne, hnew⟩

theorem known_pop (hs : Known (Placed definitions (name :: stack)) (name :: stack) s) :
    Known (Placed definitions stack) stack { s with pending := s.pending.tail } := by
  apply hs.pop.imp
  rintro entry _ ⟨hnew, hencloses⟩
  exact ⟨fun hmem => hnew (.tail _ hmem), hencloses⟩

structure Ascends (definitions : List GroupDefinition) (stack : List String) (group : String)
    (chain : List String) : Prop where
  last : chain.getLast? = some group
  linked : chain.IsChain (Encloses definitions)
  nodup : chain.Nodup
  fresh : ∀ a ∈ chain, a ∉ stack

theorem Ascends.single (hgroup : group ∉ stack) : Ascends definitions stack group [group] :=
  ⟨rfl, List.isChain_singleton group, List.nodup_singleton group, by simpa using hgroup⟩

theorem Ascends.cons {a : String} (h : Ascends definitions stack group chain)
    (hlinked : (a :: chain).IsChain (Encloses definitions)) (hchain : a ∉ chain) (ha : a ∉ stack) :
    Ascends definitions stack group (a :: chain) := by
  refine ⟨?_, hlinked, List.nodup_cons.mpr ⟨hchain, h.nodup⟩, List.forall_mem_cons.mpr ⟨ha, h.fresh⟩⟩
  rw [List.getLast?_cons, h.last, Option.getD_some]

theorem Ascends.isCycle {a : String} (h : Ascends definitions stack group chain)
    (hlinked : (a :: chain).IsChain (Encloses definitions)) (ha : a ∈ stack)
    (hleads : LeadsIn definitions group a) :
    IsCycle (LeadsIn definitions) (a :: chain ++ [a]) := by
  have hnew : a ∉ chain := fun hmem => h.fresh a hmem ha
  refine ⟨⟨a, chain, rfl, List.nodup_cons.mpr ⟨hnew, h.nodup⟩⟩, ?_⟩
  rw [List.isChain_append]
  refine ⟨hlinked.imp fun _ _ => .inl, List.isChain_singleton a, ?_⟩
  rw [List.getLast?_cons, h.last]
  rintro _ ⟨⟩ _ ⟨⟩
  exact hleads

section Search

variable (hu : Underway definitions stack)
variable (hstep : ∀ a, (∀ x ∈ stack, LeadsIn definitions a x) →
  Reports definitions stack a (step a))
include hu hstep

theorem ends_extend_reports {steps : Nat} (hgroup : ∀ x ∈ stack, LeadsIn definitions group x)
    (hchain : Ascends definitions stack group chain)
    (hparent : ∀ p ∈ parent, (p :: chain).IsChain (Encloses definitions))
    (hs : Known (Placed definitions stack) stack s) :
    Ends (extend step steps chain parent) s
      (fun _ => Known (Placed definitions stack) stack) fun e _ => Honest definitions e := by
  induction steps generalizing chain parent s with
  | zero => cases parent <;> exact hs
  | succ steps ih =>
    cases parent with
    | none => exact hs
    | some parent =>
      have hlinked : (parent :: chain).IsChain (Encloses definitions) := hparent parent rfl
      have habove : Relation.TransGen (Encloses definitions) parent group :=
        transGen_of_isChain hlinked (List.mem_of_getLast? hchain.last)
      simp only [extend, ends_bind, ends_get, ends_ite, ends_throw, ends_pure, hs.pending_eq]
      refine ⟨fun hpending => ?_, fun hnew => ⟨fun _ => hs, fun hfresh => ?_⟩⟩
      · rintro _ ⟨⟩
        exact hchain.isCycle hlinked hpending (hgroup parent hpending)
      · have hleads : ∀ x ∈ stack, LeadsIn definitions parent x := fun x hx =>
          .inr ⟨hu.searched x hx, habove.trans (hgroup x hx).transGen⟩
        apply (hstep parent hleads s hs).mono _ fun _ _ h => h
        rintro parent' s' ⟨hplaced, hs'⟩
        exact ih (hchain.cons hlinked hfresh hnew)
          (fun p hp => List.isChain_cons_cons.mpr ⟨hplaced.2 p hp, hlinked⟩) hs'

theorem ends_deepest_reports {steps : Nat} {bound : List String}
    (hbound : ∀ g ∈ bound, ∀ x ∈ stack, LeadsIn definitions g x)
    (hs : Known (Placed definitions stack) stack s) :
    Ends (deepest step steps group bound) s
      (fun g s' => g ∈ bound ∧ Known (Placed definitions stack) stack s')
      fun e _ => Honest definitions e := by
  have hchain : ∀ g ∈ bound, ∀ s, Known (Placed definitions stack) stack s →
      Ends (chainTo step steps g) s
        (fun _ s' => True ∧ Known (Placed definitions stack) stack s')
        fun e _ => Honest definitions e := by
    intro g hg s hs
    simp only [chainTo, ends_bind]
    apply (hstep g (hbound g hg) s hs).mono _ fun _ _ h => h
    rintro parent s' ⟨hplaced, hs'⟩
    apply (ends_extend_reports hu hstep (hbound g hg) (.single hplaced.1) _ hs').imp
    · exact fun _ _ h => ⟨trivial, h⟩
    · intro p hp
      exact List.isChain_cons_cons.mpr ⟨hplaced.2 p hp, List.isChain_singleton g⟩
  simp only [deepest, ends_bind]
  apply (ends_mapM (R := fun _ _ => True) hchain hs).imp
  rintro chains s' ⟨_, hs'⟩
  split
  · rename_i g chain hfind
    exact ⟨(List.of_mem_zip (List.mem_of_find?_eq_some hfind)).1, hs'⟩
  · rintro _ ⟨⟩

end Search

def BoundEnclose (definitions : List GroupDefinition) : Prop :=
  ∀ d ∈ definitions, d.parent = none → ∀ g ∈ d.boundGroups, Encloses definitions g d.name

theorem encloses_of_declared {p : String} (hd : d ∈ definitions) (hparent : d.parent = some p) :
    Encloses definitions p d.name :=
  ⟨d, hd, rfl, .inl hparent⟩

theorem ends_infer_reports (hbound : BoundEnclose definitions) (hd : d ∈ definitions)
    (hu : Underway definitions stack) (hnew : d.name ∉ stack)
    (hleads : ∀ x ∈ stack, LeadsIn definitions d.name x)
    (hstep : Underway definitions (d.name :: stack) →
      ∀ a, (∀ x ∈ d.name :: stack, LeadsIn definitions a x) →
        Reports definitions (d.name :: stack) a (step a))
    (hs : Known (Placed definitions (d.name :: stack)) (d.name :: stack) s) :
    Ends (infer definitions step d) s
      (fun parent s' => (∀ p ∈ parent, Encloses definitions p d.name) ∧
        Known (Placed definitions (d.name :: stack)) (d.name :: stack) s')
      fun e _ => Honest definitions e := by
  cases hparent : d.parent with
  | some p =>
    simp only [infer, hparent, ends_bind, ends_liftM, declared]
    cases htarget : definition? definitions p with
    | none => rintro _ ⟨⟩
    | some target =>
      cases hvirtual : target.isVirtual with
      | false =>
        simp only [hvirtual, Bool.false_eq_true, if_false]
        rintro _ ⟨⟩
      | true =>
        simp only [hvirtual, if_true, ends_pure]
        refine ⟨?_, hs⟩
        rintro _ ⟨⟩
        exact encloses_of_declared hd hparent
  | none =>
    have hencloses : ∀ g ∈ d.boundGroups, Encloses definitions g d.name := hbound d hd hparent
    cases hleaf : d.boundGroups.find? (isLeaf definitions) with
    | some leaf =>
      simp only [infer, hparent, hleaf]
      rintro _ ⟨⟩
    | none =>
      simp only [infer, hparent, hleaf]
      split
      · exact ⟨by simp, hs⟩
      · rename_i group hgroup
        refine ⟨?_, hs⟩
        rintro _ ⟨⟩
        exact hencloses group (by simp [hgroup])
      · rename_i hnil hsingle
        have hsearched : Searched definitions d.name := by
          refine ⟨d, hd, rfl, hparent, ?_⟩
          rcases hgroups : d.boundGroups with _ | ⟨g, _ | ⟨g', rest⟩⟩
          · exact absurd hgroups hnil
          · exact absurd hgroups (hsingle g)
          · simp
        have hu' := hu.push hnew hleads hsearched
        rw [ends_bind]
        apply (ends_deepest_reports hu' (hstep hu')
          (fun g hg => hu'.leadsIn (hencloses g hg)) hs).imp
        rintro group s' ⟨hgroup, hs'⟩
        refine ⟨?_, hs'⟩
        rintro _ ⟨⟩
        exact hencloses group hgroup

theorem reports_parentOf (hbound : BoundEnclose definitions) {depth : Nat}
    (hu : Underway definitions stack) (hleads : ∀ x ∈ stack, LeadsIn definitions name x)
    (hdepth : definitions.length < depth + stack.length) :
    Reports definitions stack name (parentOf definitions depth name) := by
  induction depth generalizing name stack with
  | zero =>
    have hle := hu.length_le
    omega
  | succ depth ih =>
    intro s hs
    simp only [parentOf, ends_bind, ends_get]
    cases hlookup : s.found.lookup name with
    | some parent =>
      obtain ⟨before, after, hfound, _⟩ := List.lookup_eq_some_iff.mp hlookup
      exact ⟨hs.found (name, parent) (by simp [hfound]), hs⟩
    | none =>
      simp only [ends_ite, ends_bind, ends_throw, hs.pending_eq]
      refine ⟨fun hmem => ?_, fun hnew => ?_⟩
      · rintro _ ⟨⟩
        exact isCycle_closedPath (hu.linked.cons fun x hx => hleads x (List.mem_of_head? hx))
          hu.nodup hmem
      · cases hdefined : definition? definitions name with
        | none => exact ⟨⟨hnew, by simp⟩, hs⟩
        | some d =>
          obtain ⟨hd, rfl⟩ := mem_of_definition? hdefined
          have hstep : Underway definitions (d.name :: stack) →
              ∀ a, (∀ x ∈ d.name :: stack, LeadsIn definitions a x) →
                Reports definitions (d.name :: stack) a (parentOf definitions depth a) :=
            fun hu' a ha => ih hu' ha (by rw [List.length_cons]; omega)
          simp only [ends_bind, ends_during, ends_record, ends_pure]
          apply (ends_infer_reports hbound hd hu hnew hleads hstep (known_push hs hlookup)).mono
            _ fun _ _ h => h
          rintro parent s' ⟨hencloses, hs'⟩
          exact ⟨⟨hnew, hencloses⟩, (known_pop hs').record ⟨hnew, hencloses⟩⟩

end ParentSearch

open ParentSearch

theorem isCycle_of_resolveParents {path : List String} (hbound : BoundEnclose definitions)
    (h : resolveParents definitions = .error (.cyclic path)) :
    IsCycle (LeadsIn definitions) path := by
  have hparentOf : ∀ d ∈ definitions, ∀ s, Known (Placed definitions []) [] s →
      Ends (parentOf definitions (definitions.length + 1) d.name) s
        (fun _ s' => True ∧ Known (Placed definitions []) [] s')
        fun e _ => Honest definitions e := by
    intro d _ s hs
    apply (reports_parentOf hbound .nil (by simp) (by simp) s hs).imp
    exact fun _ _ h => ⟨trivial, h.2⟩
  have hempty : Known (Placed definitions []) [] .empty := ⟨rfl, by simp [ParentSearch.empty]⟩
  exact (ends_mapM hparentOf hempty).of_run_error (Prod.ext h rfl) path rfl

end NestedViews
