import NestedViews.Proofs.Query.Lexer
import NestedViews.Proofs.Scope

namespace NestedViews

/-- The parameter that a binding gets at a place. It is the value of the element that the binding
names, in the enclosing row of the group that it names: the value itself if the binding expects no
type, else what it is coerced to, which is a null or a value of that type. -/
def Binding.Supplies (b : Binding) (scope : Scope) (v : Value) : Prop :=
  ∃ frame ∈ scope, ∃ element position source,
    splitQualified? b.element = some (frame.group.name, element) ∧
      frame.group.elementIndex? element = some position ∧ frame.row[position]? = some source ∧
        (b.expected = none → v = source) ∧
          ∀ type, b.expected = some type →
            source.coerce type = .ok v ∧ (v = .null ∨ v.type? = some type)

theorem Binding.supplies_of_value? {b : Binding} {scope : Scope} {v : Value}
    (h : b.value? scope = some v) : b.Supplies scope v := by
  simp only [value?, Option.bind_eq_bind, Option.bind_eq_some_iff] at h
  obtain ⟨⟨group, element⟩, hsplit, frame, hframe, position, hposition, source, hsource, hv⟩ := h
  have hname : frame.group.name = group := by simpa using List.find?_some hframe
  rw [← hname] at hsplit
  refine ⟨frame, List.mem_of_find?_eq_some hframe, element, position, source, hsplit, hposition,
    hsource, ?_⟩
  cases hexpected : b.expected with
  | none =>
    rw [hexpected] at hv
    constructor
    · exact fun _ => (Option.some.inj hv).symm
    · rintro _ ⟨⟩
  | some type =>
    rw [hexpected] at hv
    have hcoerce := eq_ok_of_toOption hv
    constructor
    · rintro ⟨⟩
    · rintro _ ⟨⟩
      exact ⟨hcoerce, Value.type?_of_coerce hcoerce⟩

/-- A parameter vector fits a query at a place: it has one value for each placeholder that is met in
the text of the query, and these are the values that the bindings get there. -/
def QueryTemplate.Fits (t : QueryTemplate) (scope : Scope) (vector : List Value) : Prop :=
  ∃ placeholders, Query.lex .text .start t.query.toList = .ok placeholders ∧
    vector.length = placeholders.length ∧
      List.Forall₂ (fun b v => b.Supplies scope v) t.bindings vector

theorem Plan.exists_fits {c : Catalog} {g : Group} {p : Plan} (hc : c.Coherent) (hg : g ∈ c.groups)
    (hp : g.plan = some p) : ∃ t, g.definition.template = some t ∧ p.query = t.query ∧
      ∀ scope vector, c.Around g scope → p.parameters scope = .ok vector → t.Fits scope vector := by
  have hplan := hc.plan_eq g hg
  rw [hp] at hplan
  obtain ⟨t, ht, hcompile⟩ := exists_of_mapM_eq_some hplan
  obtain ⟨⟨found, hfound, hlength⟩, hquery, _⟩ := compile_eq_ok.mp hcompile
  refine ⟨t, ht, hquery, fun scope vector haround hvector => ?_⟩
  have hvalues := (parameters_eq_ok hc hg haround hp ht).mp hvector
  exact ⟨found, Query.placeholders_eq_ok.mp hfound, hvalues.length_eq.symm.trans hlength.symm,
    hvalues.imp fun _ _ => Binding.supplies_of_value?⟩

end NestedViews
