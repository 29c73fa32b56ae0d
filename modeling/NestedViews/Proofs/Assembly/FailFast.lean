import NestedViews.Proofs.Assembly.AgendaRuns

namespace NestedViews

open Effect

variable {σ α : Type}

/-- An error of an assembly of a group is that of a cancellation, or has the place of a group, or
came with a place from the executor. -/
def Placed (c : Catalog) (requested : Group) (exchanges : List Exchange) (err : Error) : Prop :=
  Halts c requested err ∨ ¬ err.Unplaced ∧ ∃ x ∈ exchanges, x.answer = .error err

structure FailsFast (a : Assembler σ) (world : σ) (requested : Group) (scope : Scope)
    (exchanges : List Exchange) (result : Except Error α) : Prop where
  succeeded : ∀ x ∈ exchanges.dropLast, x.Succeeded
  located : ∀ x ∈ exchanges, ∀ err, x.answer = .error err →
    ∃! v : Visit,
      BreaksOff a.catalog a.executor (a.strategy world) [⟨requested, [scope]⟩] exchanges v err ∧
        v.group ∈ a.catalog.subtree requested ∧
          result = .error (err.located v.group.name (a.catalog.pathTo v.group))
  error : ∀ err, result = .error err → Placed a.catalog requested exchanges err

/-- A run ends without a call if an entry check refuses it, and else as it should end by what was
exchanged. The record makes no difference to its outcome. -/
def Guarded (world : σ) (refused : Error → Prop) (enters : Group → Scope → Prop)
    (ends : Group → Scope → List Exchange → Except Error α → Prop)
    (recorded : Effect (Recorded σ) α) (plain : Effect σ α) : Prop :=
  ∃ result r, recorded ⟨world, []⟩ = (result, r) ∧ plain world = (result, r.world) ∧
    ((∃ err, refused err ∧ result = .error err ∧ r = ⟨world, []⟩) ∨
      ∃ g scope, enters g scope ∧ ends g scope r.exchanges result)

structure SuspendingAssembler.Guards (world : σ)
    (ends : ∀ ⦃α : Type⦄, Group → Scope → List Exchange → Except Error α → Prop)
    (recorded : SuspendingAssembler (Recorded σ)) (plain : SuspendingAssembler σ) : Prop where
  assembleWithStats : ∀ name, Guarded world (Refused plain.catalog name)
    (Assembler.Enters plain.catalog name) (@ends _) (recorded.assembleWithStats name)
    (plain.assembleWithStats name)
  assemble : ∀ name, Guarded world (Refused plain.catalog name)
    (Assembler.Enters plain.catalog name) (@ends _) (recorded.assemble name) (plain.assemble name)
  assembleXml : ∀ name tag, Guarded world (Refused plain.catalog name)
    (Assembler.Enters plain.catalog name) (@ends _) (recorded.assembleXml name tag)
    (plain.assembleXml name tag)
  assembleWithin : ∀ name rows, Guarded world (RefusedWithin plain.catalog name rows)
    (Assembler.EntersWithin plain.catalog name rows) (@ends _) (recorded.assembleWithin name rows)
    (plain.assembleWithin name rows)

variable {a : Assembler σ} {world : σ} {requested g : Group} {scope : Scope} {err : Error}
variable {exchanges : List Exchange}

namespace SuspendingAssembler

variable {ends : ∀ ⦃α : Type⦄, Group → Scope → List Exchange → Except Error α → Prop}
variable {fails : Group → Scope → List Exchange → Error → Prop}

theorem guarded_of_ends {refused : Error → Prop} {enters : Group → Scope → Prop}
    {x : Effect (Recorded σ) α} {y : Effect σ α} (hmirrors : Mirrors Recorded.world x y)
    (hends : Ends x ⟨world, []⟩
      (fun _ r => ∃ g scope, enters g scope ∧ ∀ x ∈ r.exchanges, x.Succeeded)
      fun err r => (refused err ∧ r = ⟨world, []⟩) ∨
        ∃ g scope, enters g scope ∧ fails g scope r.exchanges err)
    (hok : ∀ g scope exchanges (b : α), (∀ x ∈ exchanges, x.Succeeded) →
      ends g scope exchanges (.ok b : Except Error α))
    (herror : ∀ g scope exchanges err, fails g scope exchanges err →
      ends g scope exchanges (.error err : Except Error α)) :
    Guarded world refused enters (@ends α) x y := by
  refine ⟨_, _, rfl, hmirrors ⟨world, []⟩, ?_⟩
  unfold Ends at hends
  rcases hrun : x ⟨world, []⟩ with ⟨err | b, r⟩ <;> rw [hrun] at hends
  · obtain ⟨hrefused, rfl⟩ | ⟨g, scope, henters, hfails⟩ := hends
    · exact .inl ⟨err, hrefused, rfl, rfl⟩
    · exact .inr ⟨g, scope, henters, herror g scope _ err hfails⟩
  · obtain ⟨g, scope, henters, hsucceeded⟩ := hends
    exact .inr ⟨g, scope, henters, hok g scope _ b hsucceeded⟩

theorem guards_of_ends {a : SuspendingAssembler σ} {recorded : SuspendingAssembler (Recorded σ)}
    (hc : a.catalog.Coherent) (hrelates : Relates (fun _ => Mirrors Recorded.world) recorded a)
    (hends : ∀ g scope, g ∈ a.catalog.groups → a.catalog.Around g scope →
      Ends (recorded.assembleIn g scope) ⟨world, []⟩ (fun _ r => ∀ x ∈ r.exchanges, x.Succeeded)
        fun err r => fails g scope r.exchanges err)
    (hok : ∀ α g scope exchanges (b : α), (∀ x ∈ exchanges, x.Succeeded) →
      ends g scope exchanges (.ok b : Except Error α))
    (herror : ∀ α g scope exchanges err, fails g scope exchanges err →
      ends g scope exchanges (.error err : Except Error α)) :
    Guards world ends recorded a := by
  have hstats : ∀ name, Ends (recorded.assembleWithStats name) ⟨world, []⟩
      (fun _ r => ∃ g scope, Assembler.Enters a.catalog name g scope ∧
        ∀ x ∈ r.exchanges, x.Succeeded)
      fun err r => (Refused a.catalog name err ∧ r = ⟨world, []⟩) ∨
        ∃ g scope, Assembler.Enters a.catalog name g scope ∧ fails g scope r.exchanges err := by
    intro name
    rw [← hrelates.catalog] at hc hends ⊢
    apply ends_assembleWithStats_enters
    · exact fun err hrefused => .inl ⟨hrefused, rfl⟩
    · intro g scope henters
      obtain ⟨hg, haround⟩ := henters.around hc
      exact (hends g scope hg haround).mono (fun _ _ h => ⟨g, scope, henters, h⟩)
        fun _ _ h => .inr ⟨g, scope, henters, h⟩
  have hwithin : ∀ name rows, Ends (recorded.assembleWithin name rows) ⟨world, []⟩
      (fun _ r => ∃ g scope, Assembler.EntersWithin a.catalog name rows g scope ∧
        ∀ x ∈ r.exchanges, x.Succeeded)
      fun err r => (RefusedWithin a.catalog name rows err ∧ r = ⟨world, []⟩) ∨
        ∃ g scope, Assembler.EntersWithin a.catalog name rows g scope ∧
          fails g scope r.exchanges err := by
    intro name rows
    rw [← hrelates.catalog] at hc hends ⊢
    apply ends_assembleWithin_enters
    · exact fun err hrefused => .inl ⟨hrefused, rfl⟩
    · intro g scope henters
      obtain ⟨hg, haround⟩ := henters.around hc
      exact (hends g scope hg haround).mono (fun _ _ h => ⟨g, scope, henters, h⟩)
        fun _ _ h => .inr ⟨g, scope, henters, h⟩
  constructor
  · exact fun name => guarded_of_ends (hrelates.assembleWithStats name) (hstats name) (hok _)
      (herror _)
  · intro name
    refine guarded_of_ends (hrelates.assemble name) ?_ (hok _) (herror _)
    rw [assemble, ends_bind]
    exact hstats name
  · intro name tag
    refine guarded_of_ends (hrelates.assembleXml name tag) ?_ (hok _) (herror _)
    rw [assembleXml, ends_bind, assemble, ends_bind]
    exact hstats name
  · exact fun name rows => guarded_of_ends (hrelates.assembleWithin name rows) (hwithin name rows)
      (hok _) (herror _)

end SuspendingAssembler

theorem Exchange.Succeeded.ne_error {x : Exchange} (h : x.Succeeded) : x.answer ≠ .error err := by
  obtain ⟨answers, hok⟩ := h
  simp [hok]

namespace FailsFast

theorem of_ok (h : ∀ x ∈ exchanges, x.Succeeded) (b : α) :
    FailsFast a world requested scope exchanges (.ok b : Except Error α) where
  succeeded x hx := h x (List.mem_of_mem_dropLast hx)
  located x hx _ hfails := absurd hfails (h x hx).ne_error
  error _ h := nomatch h

theorem of_halts (h : ∀ x ∈ exchanges, x.Succeeded) (hhalts : Halts a.catalog requested err) :
    FailsFast a world requested scope exchanges (.error err : Except Error α) where
  succeeded x hx := h x (List.mem_of_mem_dropLast hx)
  located x hx _ hfails := absurd hfails (h x hx).ne_error
  error := by
    rintro _ ⟨⟩
    exact .inl hhalts

theorem of_breaksOff {v : Visit} (hv : v.group ∈ a.catalog.subtree requested)
    (h : BreaksOff a.catalog a.executor (a.strategy world) [⟨requested, [scope]⟩] exchanges v err) :
    FailsFast a world requested scope exchanges
      (.error (err.located v.group.name (a.catalog.pathTo v.group)) : Except Error α) := by
  obtain ⟨before, call, hmade, hbefore⟩ := h.exists_last
  constructor
  · rw [hmade, List.dropLast_concat]
    exact hbefore
  · rintro x hx err' hfails
    rw [hmade] at hx
    rcases List.mem_append.mp hx with hx | hx
    · exact absurd hfails (hbefore x hx).ne_error
    · obtain rfl := List.mem_singleton.mp hx
      cases hfails
      exact ⟨v, ⟨h, hv, rfl⟩, fun _ h' => h'.1.unique h⟩
  · rintro _ ⟨⟩
    by_cases hunplaced : err.Unplaced
    · exact .inl (halts_located hv hunplaced)
    · rw [Error.located_of_not_unplaced hunplaced]
      exact .inr ⟨hunplaced, _, hmade ▸ List.mem_append_right _ (.head _), rfl⟩

theorem of_stops (h : Stops a.catalog a.executor (a.strategy world) requested
    [⟨requested, [scope]⟩] exchanges err) :
    FailsFast a world requested scope exchanges (.error err : Except Error α) := by
  cases h with
  | halt hsucceeded hhalts => exact .of_halts hsucceeded hhalts
  | fail hv hbreaks => exact .of_breaksOff hv hbreaks

end FailsFast

namespace Assembler

theorem ends_assembleIn_stops (hc : a.catalog.Coherent) (hg : g ∈ a.catalog.groups)
    (haround : a.catalog.Around g scope) :
    Ends (a.recorded.assembleIn g scope) ⟨world, []⟩
      (fun _ r => ∀ x ∈ r.exchanges, x.Succeeded) fun err r =>
        Stops a.catalog a.executor (a.strategy world) g [⟨g, [scope]⟩] r.exchanges err := by
  have hself : g ∈ a.catalog.subtree g := List.mem_filter.mpr ⟨hg, by simp [Catalog.lineage]⟩
  apply ends_assembleIn_strategies
  · intro hstrategy
    have hsame : a.strategy world = .depthFirst := hstrategy
    rw [haround.path_eq, hsame]
    apply (ends_assembleAt_agenda hc hself).mono
    · rintro nodes p ⟨exchanges, hmakes, hperforms⟩
      obtain rfl : p.world.exchanges = exchanges := hmakes
      exact hperforms.succeeded
    · rintro err p ⟨exchanges, hmakes, hstops⟩
      obtain rfl : p.world.exchanges = exchanges := hmakes
      exact hstops
  · intro hstrategy
    have hsame : a.strategy world = .batched := hstrategy
    rw [haround.path_eq, hsame]
    apply (ends_assembleAll_agenda hc hself).mono
    · rintro nodes p ⟨exchanges, hmakes, hperforms⟩
      obtain rfl : p.world.exchanges = exchanges := hmakes
      exact hperforms.succeeded
    · rintro err p ⟨exchanges, hmakes, hstops⟩
      obtain rfl : p.world.exchanges = exchanges := hmakes
      exact hstops

theorem failsFast_assembly (hc : a.catalog.Built) (world : σ) :
    SuspendingAssembler.Guards world (fun _ => FailsFast a world) a.recorded.suspending
      a.suspending :=
  SuspendingAssembler.guards_of_ends hc.coherent (relates_through a.mirrors_recorded)
    (fun _ _ hg haround => ends_assembleIn_stops hc.coherent hg haround)
    (fun _ _ _ _ b hsucceeded => .of_ok hsucceeded b) fun _ _ _ _ _ hstops => .of_stops hstops

def failingAssembler : Assembler Unit :=
  { orderAssembler with
    executor := .answering (orderScript.withAnswer "SELECT sku FROM lines WHERE order_id = ?"
      [.int64 7] (.failure "lines are gone")).answer true }

end Assembler

end NestedViews
