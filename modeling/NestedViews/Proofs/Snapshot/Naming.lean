import NestedViews.Proofs.Snapshot.RoundTrip

namespace NestedViews

variable {cs before behind : List Char} {name group element : String}

theorem splitLastDot_eq_none (h : '.' ∉ cs) : splitLastDot cs = none := by
  induction cs with
  | nil => rfl
  | cons c cs ih =>
    rw [List.mem_cons, not_or] at h
    rw [splitLastDot, ih h.2]
    exact if_neg (Ne.symm h.1)

theorem splitLastDot_append (h : '.' ∉ behind) :
    splitLastDot (before ++ '.' :: behind) = some (before, behind) := by
  induction before with
  | nil =>
    rw [List.nil_append, splitLastDot, splitLastDot_eq_none h]
    rfl
  | cons c before ih => rw [List.cons_append, splitLastDot, ih]

theorem of_splitLastDot (cs : List Char) : (splitLastDot cs = none → '.' ∉ cs) ∧
    ∀ before behind, splitLastDot cs = some (before, behind) →
      cs = before ++ '.' :: behind ∧ '.' ∉ behind := by
  induction cs with
  | nil => simp [splitLastDot]
  | cons c cs ih =>
    obtain ⟨hnone, hsome⟩ := ih
    rw [splitLastDot]
    cases hsplit : splitLastDot cs with
    | some parts =>
      obtain ⟨before, behind⟩ := parts
      obtain ⟨rfl, hbehind⟩ := hsome before behind hsplit
      refine ⟨by rintro ⟨⟩, ?_⟩
      rintro _ _ ⟨⟩
      exact ⟨rfl, hbehind⟩
    | none =>
      have hrest := hnone hsplit
      by_cases hdot : c = '.'
      · simp only [hdot, if_true]
        refine ⟨by rintro ⟨⟩, ?_⟩
        rintro _ _ ⟨⟩
        exact ⟨rfl, hrest⟩
      · simp only [hdot, if_false]
        refine ⟨fun _ => ?_, by rintro _ _ ⟨⟩⟩
        rw [List.mem_cons, not_or]
        exact ⟨Ne.symm hdot, hrest⟩

theorem splitQualified?_eq_some_iff : splitQualified? name = some (group, element) ↔
    name = group ++ "." ++ element ∧ group ≠ "" ∧ element ≠ "" ∧ '.' ∉ element.toList := by
  constructor
  · intro h
    rw [splitQualified?] at h
    cases hsplit : splitLastDot name.toList with
    | none => simp [hsplit] at h
    | some parts =>
      obtain ⟨before, behind⟩ := parts
      obtain ⟨hname, hbehind⟩ := (of_splitLastDot name.toList).2 before behind hsplit
      simp only [hsplit, Option.ite_none_left_eq_some, not_or, Option.some.injEq,
        Prod.mk.injEq] at h
      obtain ⟨⟨hbefore, hne⟩, rfl, rfl⟩ := h
      refine ⟨?_, by simpa using hbefore, by simpa using hne, by simpa using hbehind⟩
      rw [← String.toList_inj, hname]
      simp
  · rintro ⟨rfl, hgroup, helement, hdot⟩
    have htext : (group ++ "." ++ element).toList = group.toList ++ '.' :: element.toList := by
      simp
    rw [splitQualified?, htext, splitLastDot_append hdot]
    simp [hgroup, helement]

theorem Element.make_eq_ok_iff {e : Element} :
    Element.make e.name e.type = .ok e ↔ e.name ≠ "" ∧ '.' ∉ e.name.toList := by
  by_cases hempty : e.name = ""
  · simp [make, hempty]
  · by_cases hdot : '.' ∈ e.name.toList <;> simp [make, hempty, hdot]

theorem GroupDefinition.name_ne_of_check {d : GroupDefinition} (h : d.check = .ok ()) :
    d.name ≠ "" :=
  (check_eq_ok.mp h).1

namespace Catalog

variable {c : Catalog} {g : Group} {e : Element} {i : Nat} {bytes : List UInt8}

theorem Coherent.element_eq_ok_iff (hc : c.Coherent) (hg : g ∈ c.groups)
    (he : g.elements[i]? = some e) :
    c.element (g.name ++ "." ++ e.name) = .ok (g, i) ↔ Element.make e.name e.type = .ok e := by
  have hchecked := hc.checked g hg
  have hindex : g.elementIndex? e.name = some i :=
    GroupDefinition.elementIndex?_of_getElem?
      (GroupDefinition.nodup_elements_of_check hchecked) he
  have hfound : c.element (g.name ++ "." ++ e.name) = .ok (g, i) ↔
      c.element? (g.name ++ "." ++ e.name) = some (g, i) := by
    rw [element]
    cases c.element? (g.name ++ "." ++ e.name) <;> simp
  rw [hfound, Element.make_eq_ok_iff, element?]
  simp only [Option.bind_eq_bind, Option.bind_eq_some_iff]
  constructor
  · rintro ⟨⟨group, element⟩, hsplit, g', hg', i', hi', heq⟩
    cases heq
    obtain ⟨hname, _, helement, hdot⟩ := splitQualified?_eq_some_iff.mp hsplit
    obtain ⟨_, rfl⟩ := hc.group?_eq_some.mp hg'
    -- Behind the same name of a group, the same text is left.
    have hsame : e.name = element := by
      rw [← String.toList_inj] at hname ⊢
      simpa using hname
    exact hsame ▸ ⟨helement, hdot⟩
  · rintro ⟨helement, hdot⟩
    have hsplit : splitQualified? (g.name ++ "." ++ e.name) = some (g.name, e.name) :=
      splitQualified?_eq_some_iff.mpr
        ⟨rfl, GroupDefinition.name_ne_of_check hchecked, helement, hdot⟩
    exact ⟨_, hsplit, g, hc.group?_of_mem hg, i, hindex, rfl⟩

theorem coherent_of_decode (h : decode bytes = .ok c) : c.Coherent := by
  rw [decode] at h
  split at h
  · exact Built.coherent ⟨_, h⟩
  · cases h

/-- In a restored catalog groups have names, and the elements of a group have different ones. Those
elements can be addressed that could have been made under their names, and no others. -/
theorem addressable_of_decode (h : decode bytes = .ok c) : ∀ g ∈ c.groups,
    g.name ≠ "" ∧ (g.elements.map Element.name).Nodup ∧
      ∀ i e, g.elements[i]? = some e →
        (c.element (g.name ++ "." ++ e.name) = .ok (g, i) ↔
          Element.make e.name e.type = .ok e) := by
  intro g hg
  have hc := coherent_of_decode h
  have hchecked := hc.checked g hg
  exact ⟨GroupDefinition.name_ne_of_check hchecked,
    GroupDefinition.nodup_elements_of_check hchecked, fun i e he => hc.element_eq_ok_iff hg he⟩

def stockDefinitions : List GroupDefinition :=
  [⟨"stock", [⟨"bin.code", .string⟩], none, none⟩, ⟨"stock.bin", [⟨"code", .string⟩], none, none⟩]

def stockCatalog : Catalog :=
  ⟨stockDefinitions.map fun d => ⟨d, none, none⟩, ⟨stockDefinitions.map fun d => ⟨d.name, none⟩⟩⟩

theorem addressable_stockCatalog : decode stockCatalog.encode = .ok stockCatalog ∧
    ∀ g ∈ stockCatalog.groups, g.name ≠ "" ∧ (g.elements.map Element.name).Nodup ∧
      ∀ i e, g.elements[i]? = some e →
        (stockCatalog.element (g.name ++ "." ++ e.name) = .ok (g, i) ↔
          Element.make e.name e.type = .ok e) := by
  have hdecode : decode stockCatalog.encode = .ok stockCatalog := by decide +kernel
  exact ⟨hdecode, addressable_of_decode hdecode⟩

/-- A catalog is restored although one of its elements has a dot in its name, under which it cannot
be made, and although the qualified name of that element is another one's. -/
theorem decode_dotted_element :
    decode stockCatalog.encode = .ok stockCatalog ∧
      Element.make "bin.code" .string = .error (.schema (.dottedElementName "bin.code")) ∧
      ∃ stock bin : Group, stockCatalog.groups = [stock, bin] ∧
        stock.elements = [⟨"bin.code", .string⟩] ∧
        stockCatalog.element (stock.name ++ "." ++ "bin.code") = .ok (bin, 0) ∧ stock ≠ bin := by
  refine ⟨by decide +kernel, rfl, _, _, rfl, rfl, ?_, ?_⟩ <;> decide +kernel

end Catalog

end NestedViews
