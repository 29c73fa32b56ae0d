import NestedViews.Proofs.Scope

/-! Parameters in a scope of any frames, which need not be the rows around a place. A parameter is
read at the position of its element in a row of its group, or it is not read at all. -/

namespace NestedViews

variable {c : Catalog} {g : Group} {scope : Scope} {e : Error}

namespace Binding

def Converts (b : Binding) (v w : Value) : Prop :=
  match b.expected with
  | none => w = v
  | some type => v.coerce type = .ok w

/-- A value stands in a row of the group that a binding names, at the position of the element that
it names. The frame of the row is as far up as that group is above the group of the binding. -/
def Finds (b : Binding) (c : Catalog) (g : Group) (scope : Scope) (v : Value) : Prop :=
  ∃ (named : Group) (position levelsUp : Nat) (row : Row),
    c.element b.element = .ok (named, position) ∧ (c.ancestors g.name)[levelsUp]? = some named ∧
      scope[levelsUp]? = some ⟨named, row⟩ ∧ row.length = named.arity ∧ row[position]? = some v

def FailsToConvert (bindings : List Binding) (c : Catalog) (g : Group) (scope : Scope) (e : Error) :
    Prop :=
  ∃ before b after, bindings = before ++ b :: after ∧
    (∀ b' ∈ before, ∃ v w, b'.Finds c g scope v ∧ b'.Converts v w) ∧
    ∃ v type, b.Finds c g scope v ∧ b.expected = some type ∧ (∀ w, v.coerce type ≠ .ok w) ∧
      e = .typeMismatch type.name v.typeName s!"binding '{b.element}' value {v.text}"

theorem Finds.unique {b : Binding} {v v' : Value} (hc : c.Coherent) (hg : g ∈ c.groups)
    (h : b.Finds c g scope v) (h' : b.Finds c g scope v') : v = v' := by
  obtain ⟨named, position, levelsUp, row, helement, hnamed, hframe, _, hv⟩ := h
  obtain ⟨named', position', levelsUp', row', helement', hnamed', hframe', _, hv'⟩ := h'
  obtain ⟨rfl, rfl⟩ := Prod.mk.inj (Except.ok.inj (helement.symm.trans helement'))
  have hnodup : (c.ancestors g.name).Nodup := (hc.nodup_ancestors hg).of_cons.of_map
  obtain ⟨hlt, _⟩ := List.getElem?_eq_some_iff.mp hnamed
  obtain rfl := (List.getElem?_inj hlt hnodup).mp (hnamed.trans hnamed'.symm)
  obtain ⟨_, rfl⟩ := Frame.mk.inj (Option.some.inj (hframe.symm.trans hframe'))
  exact Option.some.inj (hv.symm.trans hv')

end Binding

namespace Slot

variable {s : Slot} {b : Binding} {q : GroupDefinition} {element : Element} {v w : Value}
variable {frame : Frame}

theorem convert_eq_ok : s.convert v = .ok w ↔ s.binding.Converts v w := by
  unfold Binding.Converts convert
  cases s.binding.expected with
  | none => exact ⟨fun h => (Except.ok.inj h).symm, fun h => congrArg _ h.symm⟩
  | some type =>
    dsimp only
    cases hcoerce : v.coerce type with
    | ok _ => rfl
    | error err =>
      obtain rfl := Value.coerce_eq_error hcoerce
      simp

theorem convert_eq_error_iff : s.convert v = .error e ↔
    ∃ type, s.binding.expected = some type ∧ (∀ w, v.coerce type ≠ .ok w) ∧
      e = .typeMismatch type.name v.typeName s!"binding '{s.binding.element}' value {v.text}" := by
  refine ⟨convert_eq_error, ?_⟩
  rintro ⟨type, htype, hcoerce, rfl⟩
  unfold convert
  rw [htype]
  dsimp only
  cases hresult : v.coerce type with
  | ok w => exact absurd hresult (hcoerce w)
  | error err =>
    obtain rfl := Value.coerce_eq_error hresult
    rfl

theorem Reads.exists_named (hc : c.Coherent)
    (hs : s.Reads ((c.ancestors g.name).map Group.definition) b q element) :
    ∃ named, (c.ancestors g.name)[s.levelsUp]? = some named ∧ named.name = s.group ∧
      c.element b.element = .ok (named, s.position) ∧ s.position < named.arity := by
  have hancestor := hs.ancestor
  rw [List.getElem?_map, Option.map_eq_some_iff] at hancestor
  obtain ⟨named, hnamed, rfl⟩ := hancestor
  have hmem : named ∈ c.groups :=
    Catalog.Coherent.mem_of_mem_ancestors (List.mem_of_getElem? hnamed)
  obtain ⟨hposition, _⟩ := List.getElem?_eq_some_iff.mp hs.element
  have hfound : c.element? b.element = some (named, s.position) := by
    have hgroup : c.group? named.definition.name = some named := hc.group?_of_mem hmem
    have hindex : named.elementIndex? element.name = some s.position := hs.position
    simp [Catalog.element?, hs.split, hgroup, hindex]
  exact ⟨named, hnamed, hs.group.symm, by rw [Catalog.element, hfound], hposition⟩

theorem Reads.resolve_eq (hc : c.Coherent)
    (hs : s.Reads ((c.ancestors g.name).map Group.definition) b q element)
    (hframe : scope[s.levelsUp]? = some frame)
    (hgroup : (c.ancestors g.name)[s.levelsUp]? = some frame.group)
    (hrow : frame.row.length = frame.group.arity) :
    ∃ v, b.Finds c g scope v ∧ s.resolve scope = s.convert v := by
  obtain ⟨named, hnamed, hname, helement, hposition⟩ := hs.exists_named hc
  obtain rfl : frame.group = named := Option.some.inj (hgroup.symm.trans hnamed)
  obtain ⟨v, hv⟩ : ∃ v, frame.row[s.position]? = some v :=
    ⟨_, List.getElem?_eq_getElem (hrow.symm ▸ hposition)⟩
  refine ⟨v, ⟨frame.group, s.position, s.levelsUp, frame.row, ?_⟩, ?_⟩
  · exact ⟨helement, hnamed, hframe, hrow, hv⟩
  · simp only [resolve, hframe, read, hname, ne_eq, not_true_eq_false, if_false, hv,
      Group.checkRow_eq_ok.mpr hrow]
    rfl

theorem Reads.resolve_cases (hc : c.Coherent)
    (hs : s.Reads ((c.ancestors g.name).map Group.definition) b q element)
    (hscope : ∀ f ∈ scope, f.group ∈ c.groups) :
    (∃ v, b.Finds c g scope v ∧ s.resolve scope = s.convert v) ∨
      ∃ fault, s.resolve scope = .error (.binding fault) ∧ ∀ name i, fault ≠ .noValue name i := by
  cases hframe : scope[s.levelsUp]? with
  | none =>
    refine .inr ⟨.scopeTooShallow s.binding.element s.group scope.length, ?_, by simp⟩
    rw [resolve, hframe]
  | some frame =>
    by_cases hname : frame.group.name = s.group
    · by_cases hrow : frame.row.length = frame.group.arity
      · obtain ⟨named, hnamed, hname', _⟩ := hs.exists_named hc
        -- Groups of one catalog that have the same name are the same.
        have hsame : frame.group = named := by
          have hgroup := hc.group?_of_mem (hscope frame (List.mem_of_getElem? hframe))
          have hmem := Catalog.Coherent.mem_of_mem_ancestors (List.mem_of_getElem? hnamed)
          rw [hname, ← hname', hc.group?_of_mem hmem] at hgroup
          exact (Option.some.inj hgroup).symm
        exact .inl (hs.resolve_eq hc hframe (hsame ▸ hnamed) hrow)
      · refine .inr ⟨.rowLength frame.group.name frame.row.length frame.group.arity, ?_, by simp⟩
        simp only [resolve, hframe, read, hname, ne_eq, not_true_eq_false, if_false,
          Group.checkRow_eq_error.mpr ⟨hrow, rfl⟩]
        rfl
    · refine .inr ⟨.wrongGroup s.binding.element s.group frame.group.name, ?_, by simp⟩
      simp only [resolve, hframe, read, ne_eq, hname, not_false_eq_true, if_true]
      rfl

theorem Reads.resolve_of_around (hc : c.Coherent)
    (hs : s.Reads ((c.ancestors g.name).map Group.definition) b q element)
    (h : c.Around g scope) : ∃ v, b.Finds c g scope v ∧ s.resolve scope = s.convert v := by
  obtain ⟨named, hnamed, _⟩ := hs.exists_named hc
  have hframe := hnamed
  rw [← h.groups_eq, List.getElem?_map, Option.map_eq_some_iff] at hframe
  obtain ⟨frame, hframe, rfl⟩ := hframe
  exact hs.resolve_eq hc hframe hnamed (h.fits frame (List.mem_of_getElem? hframe))

end Slot

namespace Plan

variable {p : Plan}

theorem parameters_eq_ok_finds {values : List Value} (hc : c.Coherent) (hg : g ∈ c.groups)
    (hp : g.plan = some p) (hscope : ∀ f ∈ scope, f.group ∈ c.groups)
    (h : p.parameters scope = .ok values) :
    List.Forall₂ (fun b w => ∃ v, b.Finds c g scope v ∧ b.Converts v w)
      g.definition.bindings values := by
  obtain ⟨t, ht, _, hslots⟩ := exists_reads hc hg hp
  have hbindings : g.definition.bindings = t.bindings := by simp [GroupDefinition.bindings, ht]
  rw [hbindings]
  apply forall₂_trans hslots.flip (mapM_eq_ok.mp h)
  rintro b _ s w ⟨q, element, hs⟩ hw
  obtain ⟨v, hv, hresolve⟩ | ⟨fault, hresolve, _⟩ := hs.resolve_cases hc hscope
  · rw [hresolve, Slot.convert_eq_ok, hs.binding] at hw
    exact ⟨v, hv, hw⟩
  · simp [hresolve] at hw

theorem parameters_ne_noValue (hc : c.Coherent) (hg : g ∈ c.groups) (hp : g.plan = some p)
    (hscope : ∀ f ∈ scope, f.group ∈ c.groups) (name : String) (i : Nat) :
    p.parameters scope ≠ .error (.binding (.noValue name i)) := by
  intro h
  obtain ⟨t, _, _, hslots⟩ := exists_reads hc hg hp
  obtain ⟨s, hmem, herr⟩ := mapM_eq_error h
  obtain ⟨b, q, element, hs⟩ := exists_of_forall₂ hslots hmem
  obtain ⟨v, _, hresolve⟩ | ⟨fault, hresolve, hfault⟩ := hs.resolve_cases hc hscope
  · rw [hresolve] at herr
    obtain ⟨_, _, _, h⟩ := Slot.convert_eq_error herr
    cases h
  · rw [hresolve] at herr
    cases herr
    exact hfault name i rfl

theorem parameters_eq_error_iff (hc : c.Coherent) (hg : g ∈ c.groups) (hp : g.plan = some p)
    (h : c.Around g scope) : p.parameters scope = .error e ↔
      Binding.FailsToConvert g.definition.bindings c g scope e := by
  obtain ⟨t, ht, _, hslots⟩ := exists_reads hc hg hp
  have hbindings : g.definition.bindings = t.bindings := by simp [GroupDefinition.bindings, ht]
  have hresolves : List.Forall₂ (fun s b => s.binding = b ∧
      ∃ v, b.Finds c g scope v ∧ s.resolve scope = s.convert v) p.slots t.bindings := by
    apply hslots.imp
    rintro s b ⟨q, element, hs⟩
    exact ⟨hs.binding, hs.resolve_of_around hc h⟩
  rw [hbindings, parameters, mapM_eq_error_iff]
  constructor
  · apply exists_first_of_forall₂ hresolves
    · rintro s _ ⟨rfl, v, hv, hresolve⟩ ⟨w, hw⟩
      exact ⟨v, w, hv, Slot.convert_eq_ok.mp (hresolve.symm.trans hw)⟩
    · rintro s _ ⟨rfl, v, hv, hresolve⟩ herr
      obtain ⟨type, htype, hcoerce, rfl⟩ := Slot.convert_eq_error (hresolve.symm.trans herr)
      exact ⟨v, type, hv, htype, hcoerce, rfl⟩
  · apply exists_first_of_forall₂ hresolves.flip
    · rintro _ s ⟨rfl, v, hv, hresolve⟩ ⟨v', w, hv', hw⟩
      obtain rfl := hv.unique hc hg hv'
      exact ⟨w, hresolve.trans (Slot.convert_eq_ok.mpr hw)⟩
    · rintro _ s ⟨rfl, v, hv, hresolve⟩ ⟨v', type, hv', htype, hcoerce, rfl⟩
      obtain rfl := hv.unique hc hg hv'
      exact hresolve.trans (Slot.convert_eq_error_iff.mpr ⟨type, htype, hcoerce, rfl⟩)

end Plan

/-- Parameters are never read from a row of another group or beyond the end of a row, whatever
frames the scope has. In the frames around a place, only a value that does not convert can be a
failure. -/
theorem Catalog.parameters_from_named {p : Plan} (hc : c.Built) (hg : g ∈ c.groups)
    (hp : g.plan = some p) (hscope : ∀ f ∈ scope, f.group ∈ c.groups) :
    (∀ name i, p.parameters scope ≠ .error (.binding (.noValue name i))) ∧
    (∀ values, p.parameters scope = .ok values →
      List.Forall₂ (fun b w => ∃ v, b.Finds c g scope v ∧ b.Converts v w)
        g.definition.bindings values) ∧
    (c.Around g scope → ∀ e, p.parameters scope = .error e ↔
      Binding.FailsToConvert g.definition.bindings c g scope e) := by
  refine ⟨Plan.parameters_ne_noValue hc.coherent hg hp hscope,
    fun values => Plan.parameters_eq_ok_finds hc.coherent hg hp hscope, fun haround e => ?_⟩
  exact Plan.parameters_eq_error_iff hc.coherent hg hp haround

def Catalog.lineScope (placed : Int32) : Scope :=
  ((orderCatalog.ancestors "parcels").zip [[.string "bolts"], [.int64 7, .date placed]]).map
    fun (group, row) => ⟨group, row⟩

theorem Catalog.parameters_from_named_parcels : orderCatalog.Built ∧ ∃ g p,
    g ∈ orderCatalog.groups ∧ g.plan = some p ∧
    (∀ placed, ∀ f ∈ lineScope placed, f.group ∈ orderCatalog.groups) ∧
    p.parameters (lineScope 19000) = .ok [.string "bolts", .timestamp 1641600000000000] ∧
    List.Forall₂ (fun b w => ∃ v, b.Finds orderCatalog g (lineScope 19000) v ∧ b.Converts v w)
      g.definition.bindings [.string "bolts", .timestamp 1641600000000000] ∧
    orderCatalog.Around g (lineScope 2147483647) ∧
    ∃ e, p.parameters (lineScope 2147483647) = .error e ∧
      Binding.FailsToConvert g.definition.bindings orderCatalog g (lineScope 2147483647) e := by
  have hread : ∃ g ∈ orderCatalog.groups, ∃ p ∈ g.plan,
      p.parameters (lineScope 19000) = .ok [.string "bolts", .timestamp 1641600000000000] ∧
      (p.parameters (lineScope 2147483647)).toOption = none ∧
      (lineScope 2147483647).map Frame.group = orderCatalog.ancestors g.name ∧
      ∀ f ∈ lineScope 2147483647, f.row.length = f.group.arity := by
    decide +kernel
  have hscope : ∀ placed, ∀ f ∈ lineScope placed, f.group ∈ orderCatalog.groups := by
    intro placed f hf
    obtain ⟨_, hmem, rfl⟩ := List.mem_map.mp hf
    exact Coherent.mem_of_mem_ancestors (List.of_mem_zip hmem).1
  obtain ⟨g, hg, p, hp, hok, hfails, haround⟩ := hread
  have haround : orderCatalog.Around g (lineScope 2147483647) := ⟨haround.1, haround.2⟩
  obtain ⟨e, he⟩ : ∃ e, p.parameters (lineScope 2147483647) = .error e := by
    cases h : p.parameters (lineScope 2147483647) with
    | ok values => simp [h, Except.toOption] at hfails
    | error e => exact ⟨e, rfl⟩
  have h := fun placed => parameters_from_named built_orderCatalog hg hp (hscope placed)
  exact ⟨built_orderCatalog, g, p, hg, hp, hscope, hok, (h 19000).2.1 _ hok, haround, e, he,
    ((h 2147483647).2.2 haround e).mp he⟩

end NestedViews
