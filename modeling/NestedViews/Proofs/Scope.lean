import NestedViews.Proofs.Catalog.Forest
import NestedViews.Proofs.Value.Coercion
import NestedViews.Scope

namespace NestedViews

variable {c : Catalog} {g child : Group} {scope : Scope} {row : Row}

def Binding.value? (b : Binding) (scope : Scope) : Option Value := do
  let (group, element) ← splitQualified? b.element
  let frame ← scope.find? fun f => f.group.name = group
  let v ← frame.row[← frame.group.elementIndex? element]?
  match b.expected with
  | none => some v
  | some type => (v.coerce type).toOption

namespace Catalog

def pathTo (c : Catalog) (g : Group) : List String :=
  ((c.ancestors g.name).map Group.name).reverse

/-- The rows around a place of a group are rows of its ancestors. -/
structure Around (c : Catalog) (g : Group) (scope : Scope) : Prop where
  groups_eq : scope.map Frame.group = c.ancestors g.name
  fits : ∀ f ∈ scope, f.row.length = f.group.arity

theorem Coherent.name_not_mem_pathTo (hc : c.Coherent) (hg : g ∈ c.groups) :
    g.name ∉ c.pathTo g := by
  rw [pathTo, List.mem_reverse]
  exact (List.nodup_cons.mp (hc.nodup_ancestors hg)).1

theorem Coherent.pathTo_of_mem_children (hc : c.Coherent) (hg : g ∈ c.groups)
    (hchild : child ∈ c.children g.name) : c.pathTo child = c.pathTo g ++ [g.name] := by
  simp [pathTo, hc.ancestors_of_mem_children hg hchild]

namespace Around

theorem nil (hc : c.Coherent) (hg : g ∈ c.groups) (hparent : g.parent = none) : c.Around g [] :=
  ⟨(hc.ancestors_of_root hg hparent).symm, by simp⟩

theorem push (h : c.Around g scope) (hc : c.Coherent) (hg : g ∈ c.groups)
    (hchild : child ∈ c.children g.name) (hrow : row.length = g.arity) :
    c.Around child (⟨g, row⟩ :: scope) := by
  refine ⟨?_, List.forall_mem_cons.mpr ⟨hrow, h.fits⟩⟩
  rw [hc.ancestors_of_mem_children hg hchild, List.map_cons, h.groups_eq]

theorem path_eq (h : c.Around g scope) : scope.path = c.pathTo g := by
  rw [Scope.path, pathTo, ← h.groups_eq, List.map_map]
  rfl

theorem nodup (h : c.Around g scope) (hc : c.Coherent) (hg : g ∈ c.groups) :
    (scope.map fun f => f.group.name).Nodup := by
  have hnodup := (List.nodup_cons.mp (hc.nodup_ancestors hg)).2
  rw [← h.groups_eq, List.map_map] at hnodup
  exact hnodup

end Around

end Catalog

namespace Group

variable {rows : List Row} {e : Error}

theorem checkRow_eq_ok : g.checkRow row = .ok () ↔ row.length = g.arity := by
  simp [checkRow]

theorem checkRow_eq_error : g.checkRow row = .error e ↔
    row.length ≠ g.arity ∧ e = .binding (.rowLength g.name row.length g.arity) := by
  rw [checkRow]
  split <;> simp_all [eq_comm]

theorem checkRows_eq_ok : rows.forM g.checkRow = .ok () ↔ ∀ row ∈ rows, row.length = g.arity := by
  simp only [forM_eq_ok, checkRow_eq_ok]

theorem checkRows_eq_error : rows.forM g.checkRow = .error e ↔
    ∃ before row after, rows = before ++ row :: after ∧ (∀ r ∈ before, r.length = g.arity) ∧
      row.length ≠ g.arity ∧ e = .binding (.rowLength g.name row.length g.arity) := by
  simp only [forM_eq_error, checkRow_eq_ok, checkRow_eq_error]

end Group

namespace Slot

variable {s : Slot} {b : Binding} {q : GroupDefinition} {e : Element}

theorem convert_eq_error {v : Value} {err : Error} (h : s.convert v = .error err) :
    ∃ type, s.binding.expected = some type ∧ (∀ w, v.coerce type ≠ .ok w) ∧
      err = .typeMismatch type.name v.typeName s!"binding '{s.binding.element}' value {v.text}" := by
  unfold convert at h
  split at h
  · cases h
  · rename_i type htype
    cases hcoerce : v.coerce type with
    | ok w =>
      rw [hcoerce] at h
      cases h
    | error err' =>
      obtain rfl := Value.coerce_eq_error hcoerce
      rw [hcoerce] at h
      cases h
      exact ⟨type, htype, fun w hw => by simp [hcoerce] at hw, rfl⟩

theorem toOption_convert {v : Value} : (s.convert v).toOption =
    match s.binding.expected with
    | none => some v
    | some type => (v.coerce type).toOption := by
  unfold convert
  cases s.binding.expected with
  | none => rfl
  | some type =>
    dsimp only
    cases hcoerce : v.coerce type with
    | ok w => rfl
    | error err =>
      obtain rfl := Value.coerce_eq_error hcoerce
      rfl

theorem resolve_eq (hc : c.Coherent) (hg : g ∈ c.groups) (h : c.Around g scope)
    (hs : s.Reads ((c.ancestors g.name).map Group.definition) b q e) :
    ∃ v, s.resolve scope = s.convert v ∧ b.value? scope = (s.convert v).toOption := by
  have hancestor := hs.ancestor
  rw [← h.groups_eq, List.map_map, List.getElem?_map, Option.map_eq_some_iff] at hancestor
  obtain ⟨frame, hframe, rfl⟩ := hancestor
  have hmem : frame ∈ scope := List.mem_of_getElem? hframe
  have hrow : frame.row.length = frame.group.arity := h.fits frame hmem
  obtain ⟨hposition, _⟩ := List.getElem?_eq_some_iff.mp hs.element
  obtain ⟨v, hv⟩ : ∃ v, frame.row[s.position]? = some v :=
    ⟨_, List.getElem?_eq_getElem (hrow ▸ hposition : s.position < frame.row.length)⟩
  have hname : frame.group.name = s.group := hs.group.symm
  have hfind : scope.find? (fun f => f.group.name = frame.group.name) = some frame :=
    find?_name (h.nodup hc hg) hmem
  have hindex : frame.group.elementIndex? e.name = some s.position := hs.position
  have hsplit : splitQualified? b.element = some (frame.group.name, e.name) := hs.split
  refine ⟨v, ?_, ?_⟩
  · simp only [resolve, hframe, read, hname, ne_eq, not_true_eq_false, if_false, hv]
    rw [Group.checkRow_eq_ok.mpr hrow]
    rfl
  · simp only [Binding.value?, hsplit, Option.bind_eq_bind, Option.bind_some, hfind, hindex, hv,
      toOption_convert, hs.binding]

end Slot

namespace Plan

variable {p : Plan} {t : QueryTemplate}

theorem exists_reads (hc : c.Coherent) (hg : g ∈ c.groups) (hp : g.plan = some p) :
    ∃ t, g.definition.template = some t ∧ p.query = t.query ∧
      List.Forall₂ (fun s b => ∃ q e,
        s.Reads ((c.ancestors g.name).map Group.definition) b q e) p.slots t.bindings := by
  have hplan := hc.plan_eq g hg
  rw [hp] at hplan
  obtain ⟨t, ht, hcompile⟩ := exists_of_mapM_eq_some hplan
  obtain ⟨_, hquery, hslots⟩ := compile_eq_ok.mp hcompile
  exact ⟨t, ht, hquery, hslots.flip.imp fun s b h => Slot.reads_of_compile h⟩

theorem parameters_eq_ok {values : List Value} (hc : c.Coherent) (hg : g ∈ c.groups)
    (h : c.Around g scope) (hp : g.plan = some p) (ht : g.definition.template = some t) :
    p.parameters scope = .ok values ↔
      List.Forall₂ (fun b v => b.value? scope = some v) t.bindings values := by
  obtain ⟨_, ht', _, hslots⟩ := exists_reads hc hg hp
  cases ht.symm.trans ht'
  rw [parameters, mapM_eq_ok]
  apply forall₂_congr_left hslots
  rintro s b v ⟨q, e, hs⟩
  obtain ⟨v', hresolve, hvalue⟩ := Slot.resolve_eq hc hg h hs
  rw [hresolve, hvalue]
  cases s.convert v' <;> simp [Except.toOption]

theorem parameters_eq_error {err : Error} (hc : c.Coherent) (hg : g ∈ c.groups)
    (h : c.Around g scope) (hp : g.plan = some p) (herr : p.parameters scope = .error err) :
    ∃ b ∈ g.definition.bindings, ∃ type, ∃ v : Value,
      b.expected = some type ∧ (∀ w, v.coerce type ≠ .ok w) ∧
        err = .typeMismatch type.name v.typeName s!"binding '{b.element}' value {v.text}" := by
  obtain ⟨t, ht, _, hslots⟩ := exists_reads hc hg hp
  obtain ⟨s, hs, hresolve⟩ := mapM_eq_error herr
  obtain ⟨b, hzip⟩ := exists_mem_zip hslots hs
  obtain ⟨q, e, hreads⟩ := List.forall₂_zip hslots hzip
  obtain ⟨v, hconvert, _⟩ := Slot.resolve_eq hc hg h hreads
  obtain ⟨type, htype, hcoerce, rfl⟩ := Slot.convert_eq_error (hconvert.symm.trans hresolve)
  rw [hreads.binding] at htype ⊢
  exact ⟨b, GroupDefinition.mem_bindings.mpr ⟨t, ht, (List.of_mem_zip hzip).2⟩, type, v, htype,
    hcoerce, rfl⟩

end Plan

end NestedViews
