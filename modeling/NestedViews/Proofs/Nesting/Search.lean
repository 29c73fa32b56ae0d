import NestedViews.Nesting.Parents
import NestedViews.Proofs.Effect
import NestedViews.Proofs.Lookup
import NestedViews.Proofs.Nesting.Climb

namespace NestedViews.ParentSearch

open Effect

variable {definitions : List GroupDefinition} {d : GroupDefinition} {name : String}
variable {s : ParentSearch}

@[simp] theorem ends_during {α : Type} {good : α → ParentSearch → Prop}
    {bad : Error → ParentSearch → Prop} (step : Search α) :
    Ends (during name step) s good bad ↔
      Ends step { s with pending := name :: s.pending }
        (fun a s' => good a { s' with pending := s'.pending.tail })
        (fun e s' => bad e { s' with pending := s'.pending.tail }) :=
  ends_wrap (fun (answer, s') => (answer, { s' with pending := s'.pending.tail })) rfl
    (fun _ _ => rfl) fun _ _ => rfl

@[simp] theorem ends_record {parent : Option String} {good : Unit → ParentSearch → Prop}
    {bad : Error → ParentSearch → Prop} :
    Ends (record name parent) s good bad ↔
      good () { s with found := (name, parent) :: s.found } := Iff.rfl

/-- What a search knows while it is under way for some groups. -/
structure Known (right : String → Option String → Prop) (stack : List String)
    (s : ParentSearch) : Prop where
  pending_eq : s.pending = stack
  found : ∀ entry ∈ s.found, right entry.1 entry.2

def Answers (right : String → Option String → Prop) (bad : Prop) (stack : List String)
    (name : String) (step : Search (Option String)) : Prop :=
  ∀ s, Known right stack s →
    Ends step s (fun parent s' => right name parent ∧ Known right stack s')
      fun _ s' => bad ∧ Known right stack s'

variable {right : String → Option String → Prop} {bad : Prop} {stack : List String}

theorem Known.imp {right' : String → Option String → Prop} (h : Known right stack s)
    (himp : ∀ entry ∈ s.found, right entry.1 entry.2 → right' entry.1 entry.2) :
    Known right' stack s :=
  ⟨h.pending_eq, fun entry hentry => himp entry hentry (h.found entry hentry)⟩

theorem Known.push (h : Known right stack s) :
    Known right (name :: stack) { s with pending := name :: s.pending } :=
  ⟨by rw [h.pending_eq], h.found⟩

theorem Known.pop (h : Known right (name :: stack) s) :
    Known right stack { s with pending := s.pending.tail } :=
  ⟨by rw [h.pending_eq]; rfl, h.found⟩

theorem Known.record {parent : Option String} (h : Known right stack s)
    (hright : right name parent) :
    Known right stack { s with found := (name, parent) :: s.found } := by
  refine ⟨h.pending_eq, fun entry hentry => ?_⟩
  cases hentry with
  | head => exact hright
  | tail _ hentry => exact h.found entry hentry

/-- The groups under way are different ones with definitions, so the depth is never used up. -/
theorem answers_parentOf (pre : List String → String → Prop)
    (hpending : ∀ stack name, pre stack name → name ∈ stack → bad)
    (hundefined : ∀ stack name, pre stack name → definition? definitions name = none →
      right name none)
    (hinfer : ∀ stack name d step, pre stack name → definition? definitions name = some d →
      (∀ a, pre (name :: stack) a → Answers right bad (name :: stack) a (step a)) →
      Answers right bad (name :: stack) name (infer definitions step d))
    {depth : Nat} (hpre : pre stack name) (hnodup : stack.Nodup)
    (hsub : stack ⊆ definitions.map GroupDefinition.name)
    (hdepth : definitions.length < depth + stack.length) :
    Answers right bad stack name (parentOf definitions depth name) := by
  induction depth generalizing name stack with
  | zero =>
    -- More groups would be under way than there are definitions.
    have hle := (List.subperm_of_subset hnodup hsub).length_le
    simp at hle hdepth
    omega
  | succ depth ih =>
    intro s hs
    simp only [parentOf, ends_bind, ends_get]
    cases hlookup : s.found.lookup name with
    | some parent =>
      obtain ⟨before, after, hfound, _⟩ := List.lookup_eq_some_iff.mp hlookup
      exact ⟨hs.found (name, parent) (by simp [hfound]), hs⟩
    | none =>
      simp only [ends_ite, ends_bind, ends_throw]
      refine ⟨fun hmem => ⟨hpending stack name hpre (hs.pending_eq ▸ hmem), hs⟩, fun hnew => ?_⟩
      rw [hs.pending_eq] at hnew
      cases hd : definition? definitions name with
      | none => exact ⟨hundefined stack name hpre hd, hs⟩
      | some d =>
        have hname := mem_names_of_definition? hd
        have hstep : ∀ a, pre (name :: stack) a →
            Answers right bad (name :: stack) a (parentOf definitions depth a) := by
          intro a ha
          apply ih ha (List.nodup_cons.mpr ⟨hnew, hnodup⟩) (List.cons_subset.mpr ⟨hname, hsub⟩)
          simp only [List.length_cons]
          omega
        simp only [ends_bind, ends_during, ends_record, ends_pure]
        apply (hinfer stack name d _ hpre hd hstep _ hs.push).mono
        · rintro parent s' ⟨hright, hs'⟩
          exact ⟨hright, hs'.pop.record hright⟩
        · rintro e s' ⟨hbad, hs'⟩
          exact ⟨hbad, hs'.pop⟩

inductive Allows (definitions : List GroupDefinition) (d : GroupDefinition) : Option String → Prop
  | declared {parent target} : d.parent = some parent →
      definition? definitions parent = some target → target.isVirtual →
      Allows definitions d (some parent)
  | unbound : d.parent = none → d.boundGroups = [] → Allows definitions d none
  | bound {group} : d.parent = none → group ∈ d.boundGroups →
      (∀ g ∈ d.boundGroups, isLeaf definitions g = false) → Allows definitions d (some group)

namespace Allows

variable {r : Option String} {p : String}

theorem eq_declared (h : Allows definitions d r) (hparent : d.parent = some p) : r = some p := by
  cases h with
  | declared hdeclared _ _ => rw [← hdeclared, hparent]
  | unbound hnone _ => simp [hparent] at hnone
  | bound hnone _ _ => simp [hparent] at hnone

theorem eq_none (h : Allows definitions d r) (hparent : d.parent = none)
    (hbound : d.boundGroups = []) : r = none := by
  cases h with
  | declared hdeclared _ _ => simp [hparent] at hdeclared
  | unbound => rfl
  | bound _ hgroup _ => simp [hbound] at hgroup

theorem exists_bound (h : Allows definitions d r) (hparent : d.parent = none)
    (hbound : d.boundGroups ≠ []) : ∃ group ∈ d.boundGroups, r = some group := by
  cases h with
  | declared hdeclared _ _ => simp [hparent] at hdeclared
  | unbound _ hnil => exact absurd hnil hbound
  | bound _ hgroup _ => exact ⟨_, hgroup, rfl⟩

theorem exists_virtual (h : Allows definitions d (some p))
    (hnames : (definitions.map GroupDefinition.name).Nodup)
    (hbound : ∀ g ∈ d.boundGroups, ∃ q ∈ definitions, q.name = g) :
    ∃ q ∈ definitions, q.name = p ∧ q.isVirtual := by
  cases h with
  | declared _ hfound hvirtual =>
    obtain ⟨hq, hname⟩ := mem_of_definition? hfound
    exact ⟨_, hq, hname, hvirtual⟩
  | bound _ hgroup hleaf =>
    obtain ⟨q, hq, rfl⟩ := hbound p hgroup
    have hq' := hleaf q.name hgroup
    simp only [isLeaf, definition?_of_mem hnames hq, Option.map_some, Option.getD_some,
      Bool.not_eq_false'] at hq'
    exact ⟨q, hq, rfl, hq'⟩

end Allows

section Sound

variable {step : String → Search (Option String)}

theorem ends_extend_of_answers (hstep : ∀ a, Answers right True stack a (step a)) {steps : Nat}
    {chain : List String} {parent : Option String} (hs : Known right stack s) :
    Ends (extend step steps chain parent) s (fun _ => Known right stack)
      fun _ => Known right stack := by
  induction steps generalizing chain parent s with
  | zero => cases parent <;> exact hs
  | succ steps ih =>
    cases parent with
    | none => exact hs
    | some parent =>
      simp only [extend, ends_bind, ends_get, ends_ite, ends_throw, ends_pure]
      refine ⟨fun _ => hs, fun _ => ⟨fun _ => hs, fun _ => ?_⟩⟩
      exact (hstep parent s hs).mono (fun _ _ h => ih h.2) fun _ _ h => h.2

theorem ends_deepest_of_answers (hstep : ∀ a, Answers right True stack a (step a)) {steps : Nat}
    {group : String} {bound : List String} (hs : Known right stack s) :
    Ends (deepest step steps group bound) s (fun g s' => g ∈ bound ∧ Known right stack s')
      fun _ => Known right stack := by
  have hchain : ∀ g ∈ bound, ∀ s, Known right stack s →
      Ends (chainTo step steps g) s (fun _ s' => True ∧ Known right stack s')
        fun _ => Known right stack := by
    intro g _ s hs
    simp only [chainTo, ends_bind]
    apply (hstep g s hs).mono _ fun _ _ h => h.2
    rintro parent s' ⟨_, hs'⟩
    exact (ends_extend_of_answers hstep hs').imp fun _ _ h => ⟨trivial, h⟩
  simp only [deepest, ends_bind]
  apply (ends_mapM (R := fun _ _ => True) hchain hs).imp
  rintro chains s' ⟨_, hs'⟩
  split
  · rename_i g chain hfind
    exact ⟨(List.of_mem_zip (List.mem_of_find?_eq_some hfind)).1, hs'⟩
  · exact hs'

theorem ends_infer_of_answers (hstep : ∀ a, Answers right True stack a (step a))
    (hs : Known right stack s) :
    Ends (infer definitions step d) s
      (fun parent s' => Allows definitions d parent ∧ Known right stack s')
      fun _ => Known right stack := by
  cases hparent : d.parent with
  | some parent =>
    simp only [infer, hparent, ends_bind, ends_liftM, declared]
    cases htarget : definition? definitions parent with
    | none => exact hs
    | some target =>
      cases hvirtual : target.isVirtual with
      | false => simpa [hvirtual] using hs
      | true => simpa [hvirtual] using ⟨Allows.declared hparent htarget hvirtual, hs⟩
  | none =>
    cases hleaf : d.boundGroups.find? (isLeaf definitions) with
    | some leaf =>
      simp only [infer, hparent, hleaf]
      exact hs
    | none =>
      have hleaf' : ∀ g ∈ d.boundGroups, isLeaf definitions g = false := by
        simpa using List.find?_eq_none.mp hleaf
      simp only [infer, hparent, hleaf]
      split
      · rename_i hbound
        exact ⟨.unbound hparent hbound, hs⟩
      · rename_i group hbound
        exact ⟨.bound hparent (by simp [hbound]) hleaf', hs⟩
      · rw [ends_bind]
        apply (ends_deepest_of_answers hstep hs).imp
        rintro group s' ⟨hgroup, hs'⟩
        exact ⟨.bound hparent hgroup hleaf', hs'⟩

end Sound

end NestedViews.ParentSearch

namespace NestedViews

open ParentSearch Effect

variable {definitions : List GroupDefinition}

theorem resolveParents_allows {parents : List (Option String)}
    (hnames : (definitions.map GroupDefinition.name).Nodup)
    (h : resolveParents definitions = .ok parents) :
    List.Forall₂ (Allows definitions) definitions parents := by
  let right name parent := ∀ d, definition? definitions name = some d → Allows definitions d parent
  have hanswers : ∀ name,
      Answers right True [] name (parentOf definitions (definitions.length + 1) name) := by
    intro name
    apply answers_parentOf (fun _ _ => True) _ _ _ trivial List.nodup_nil (List.nil_subset _)
    · simp
    · intros
      trivial
    · intro _ name _ hname d hd
      rw [hname] at hd
      cases hd
    · intro stack name d step _ hd hstep s hs
      apply (ends_infer_of_answers (fun a => hstep a trivial) hs).mono
      · rintro parent s' ⟨hallows, hs'⟩
        refine ⟨fun d' hd' => ?_, hs'⟩
        rw [hd] at hd'
        cases hd'
        exact hallows
      · exact fun _ _ hs' => ⟨trivial, hs'⟩
  have hparentOf : ∀ d ∈ definitions, ∀ s, Known right [] s →
      Ends (parentOf definitions (definitions.length + 1) d.name) s
        (fun parent s' => Allows definitions d parent ∧ Known right [] s') fun _ _ => True := by
    intro d hd s hs
    apply (hanswers d.name s hs).mono _ fun _ _ _ => trivial
    rintro parent s' ⟨hright, hs'⟩
    exact ⟨hright d (definition?_of_mem hnames hd), hs'⟩
  have hempty : Known right [] .empty := ⟨rfl, by simp [ParentSearch.empty]⟩
  exact ((ends_mapM hparentOf hempty).of_ok h).1

end NestedViews
