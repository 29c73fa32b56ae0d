import NestedViews.Nesting.Parents
import NestedViews.Proofs.Lookup

/-! The parent that is final for a name, told without a search. It is settled step by step from the
definitions, so where parents wait for each other in a circle, none of them is. -/

namespace NestedViews

mutual

/-- A parent as it is declared or, of several groups bound to, the first with all of them on its
chain. A single group bound to needs no chain, being on its own one. -/
inductive Final (definitions : List GroupDefinition) : String → Option String → Prop
  | undefined {name} : definition? definitions name = none → Final definitions name none
  | declared {name d parent} : definition? definitions name = some d → d.parent = some parent →
    Final definitions name (some parent)
  | unbound {name d} : definition? definitions name = some d → d.parent = none →
    d.boundGroups = [] → Final definitions name none
  | single {name d group} : definition? definitions name = some d → d.parent = none →
    d.boundGroups = [group] → Final definitions name (some group)
  | several {name d group} {chainOf : String → List String} :
    definition? definitions name = some d → d.parent = none →
    (∀ g ∈ d.boundGroups, Chain definitions [g] (chainOf g)) →
    (d.boundGroups.find? fun g => d.boundGroups.all (· ∈ chainOf g)) = some group →
    Final definitions name (some group)

/-- Groups, outermost first, are part of a chain that goes on up to a group without a parent, or
with a parent that is on the chain already. -/
inductive Chain (definitions : List GroupDefinition) : List String → List String → Prop
  | stop {last chain parent} : Final definitions last parent → (∀ p ∈ parent, p ∈ last :: chain) →
    Chain definitions (last :: chain) (last :: chain)
  | up {last chain parent whole} : Final definitions last (some parent) →
    parent ∉ last :: chain → Chain definitions (parent :: last :: chain) whole →
    Chain definitions (last :: chain) whole

end

variable {definitions : List GroupDefinition} {name : String} {d : GroupDefinition}
variable {parent : Option String} {p : String}

namespace Chain

variable {last : String} {chain whole : List String}

theorem eq_of_stop (h : Chain definitions (last :: chain) whole)
    (hlast : ∀ parent', Final definitions last parent' → parent' = parent)
    (hstop : ∀ p ∈ parent, p ∈ last :: chain) : whole = last :: chain := by
  cases h with
  | stop => rfl
  | up hparent hnew _ => exact absurd (hstop _ (hlast _ hparent ▸ rfl)) hnew

theorem goes_up (h : Chain definitions (last :: chain) whole)
    (hlast : ∀ parent', Final definitions last parent' → parent' = some p)
    (hnew : p ∉ last :: chain) : Chain definitions (p :: last :: chain) whole := by
  cases h with
  | stop hparent hstop => exact absurd (hstop p (hlast _ hparent ▸ rfl)) hnew
  | up hparent _ hwhole =>
    cases hlast _ hparent
    exact hwhole

end Chain

namespace Final

theorem eq_none_of_undefined (h : Final definitions name parent)
    (hname : definition? definitions name = none) : parent = none := by
  cases h <;> simp_all

theorem eq_declared (h : Final definitions name parent)
    (hd : definition? definitions name = some d) (hparent : d.parent = some p) :
    parent = some p := by
  cases h <;> simp_all

theorem eq_none_of_unbound (h : Final definitions name parent)
    (hd : definition? definitions name = some d) (hparent : d.parent = none)
    (hbound : d.boundGroups = []) : parent = none := by
  cases h <;> simp_all

theorem eq_single (h : Final definitions name parent)
    (hd : definition? definitions name = some d) (hparent : d.parent = none)
    (hbound : d.boundGroups = [p]) : parent = some p := by
  cases h <;> simp_all

theorem eq_several {chainOf : String → List String} (h : Final definitions name parent)
    (hd : definition? definitions name = some d) (hparent : d.parent = none)
    (hchains : ∀ g ∈ d.boundGroups, ∀ whole, Chain definitions [g] whole → whole = chainOf g)
    (hfind : (d.boundGroups.find? fun g => d.boundGroups.all (· ∈ chainOf g)) = some p) :
    parent = some p := by
  cases h with
  | undefined hname => simp [hd] at hname
  | declared hd' hparent' =>
    cases hd.symm.trans hd'
    simp [hparent] at hparent'
  | unbound hd' _ hbound =>
    cases hd.symm.trans hd'
    simp [hbound] at hfind
  | single hd' _ hbound =>
    cases hd.symm.trans hd'
    rw [hbound] at hfind
    rw [List.mem_singleton.mp (List.mem_of_find?_eq_some hfind)]
  | several hd' _ hchains' hfind' =>
    cases hd.symm.trans hd'
    rw [← hfind, ← hfind']
    apply List.find?_congr
    intro g hg
    rw [hchains g hg _ (hchains' g hg)]

theorem unique (h : Final definitions name parent) :
    ∀ parent', Final definitions name parent' → parent' = parent := by
  refine @Final.rec definitions
    (fun name parent _ => ∀ parent', Final definitions name parent' → parent' = parent)
    (fun part whole _ => ∀ whole', Chain definitions part whole' → whole' = whole)
    ?undefined ?declared ?unbound ?single ?several ?stop ?up name parent h
  case undefined => exact fun hname _ h' => h'.eq_none_of_undefined hname
  case declared => exact fun hd hparent _ h' => h'.eq_declared hd hparent
  case unbound => exact fun hd hparent hbound _ h' => h'.eq_none_of_unbound hd hparent hbound
  case single => exact fun hd hparent hbound _ h' => h'.eq_single hd hparent hbound
  case several => exact fun hd hparent _ hfind ih _ h' => h'.eq_several hd hparent ih hfind
  case stop => exact fun _ hstop ih _ h' => h'.eq_of_stop ih hstop
  case up => exact fun _ hnew _ ih ihrest _ h' => ihrest _ (h'.goes_up ih hnew)

theorem mem_names (h : Final definitions name (some p)) :
    name ∈ definitions.map GroupDefinition.name := by
  cases h with
  | declared hd _ => exact mem_names_of_definition? hd
  | single hd _ _ => exact mem_names_of_definition? hd
  | several hd _ _ _ => exact mem_names_of_definition? hd

end Final

theorem Chain.unique {part whole : List String} (h : Chain definitions part whole) :
    ∀ whole', Chain definitions part whole' → whole' = whole := by
  refine @Chain.rec definitions (fun _ _ _ => True)
    (fun part whole _ => ∀ whole', Chain definitions part whole' → whole' = whole)
    ?undefined ?declared ?unbound ?single ?several ?stop ?up part whole h
  case stop => exact fun hlast hstop _ _ h' => h'.eq_of_stop hlast.unique hstop
  case up => exact fun hlast hnew _ _ ihrest _ h' => ihrest _ (h'.goes_up hlast.unique hnew)
  all_goals
    intros
    trivial

end NestedViews
