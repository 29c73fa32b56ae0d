import NestedViews.Proofs.Catalog.Forest
import NestedViews.Proofs.Snapshot.Text
import NestedViews.Snapshot.Definitions

namespace NestedViews.Snapshot

theorem codes_type : Codes (fun _ => True) encodeType decodeType := by
  have hnodup : numberedTypes.Nodup := by decide
  refine .congr ((codes_nat 4).bind typeNumber (fun number _ => ⟨?_, ?_⟩) ?_)
    fun _ _ => List.append_nil _
  · rintro type rest ⟨_, rfl⟩ _
    cases type <;> rfl
  · intro bytes type rest h
    cases hnumber : numberedTypes[number]? with
    | none =>
      rw [hnumber] at h
      cases h
    | some found =>
      rw [hnumber] at h
      cases h
      obtain ⟨hlt, rfl⟩ := List.getElem?_eq_some_iff.mp hnumber
      exact ⟨⟨trivial, hnodup.idxOf_getElem number hlt⟩, rfl⟩
  · intro type _ _
    cases type <;> decide

theorem codes_element : Codes (fun _ => True) encodeElement decodeElement := by
  refine codes_text.bind Element.name (fun name _ => ?_) fun _ _ _ => trivial
  refine codes_type.last Element.type (fun type e _ => ?_) fun _ _ => trivial
  cases e
  simp

theorem codes_binding : Codes (fun _ => True) encodeBinding decodeBinding := by
  refine codes_text.bind Binding.element (fun element _ => ?_) fun _ _ _ => trivial
  refine (codes_option codes_type).last Binding.expected (fun expected b _ => ?_)
    fun _ _ _ _ => trivial
  cases b
  simp

theorem codes_template : Codes (fun _ => True) encodeTemplate decodeTemplate := by
  refine codes_text.bind QueryTemplate.query (fun query _ => ?_) fun _ _ _ => trivial
  refine (codes_list codes_binding ?_).last QueryTemplate.bindings (fun bindings t _ => ?_)
    fun _ _ _ _ => trivial
  · exact fun b => List.append_ne_nil_of_left_ne_nil (encodeText_ne_nil b.element) _
  · cases t
    simp

theorem codes_definition : Codes (fun _ => True) encodeDefinition decodeDefinition := by
  have hassoc : encodeDefinition = fun d =>
      encodeText d.name ++ (encodeList encodeElement d.elements ++
        (encodeOption encodeTemplate d.template ++ encodeOption encodeText d.parent)) := by
    funext d
    simp only [encodeDefinition, List.append_assoc]
  rw [hassoc]
  refine codes_text.bind GroupDefinition.name (fun name _ => ?_) fun _ _ _ => trivial
  refine (codes_list codes_element ?_).bind GroupDefinition.elements (fun elements _ => ?_)
    fun _ _ _ _ _ => trivial
  · exact fun e => List.append_ne_nil_of_left_ne_nil (encodeText_ne_nil e.name) _
  refine (codes_option codes_template).bind GroupDefinition.template (fun template _ => ?_)
    fun _ _ _ _ _ => trivial
  refine (codes_option codes_text).last GroupDefinition.parent (fun parent d _ => ?_)
    fun _ _ _ _ => trivial
  cases d
  simp [and_assoc]

theorem encodeDefinition_ne_nil (d : GroupDefinition) : encodeDefinition d ≠ [] := by
  simp [encodeDefinition, encodeText_ne_nil]

theorem codes_definitions :
    Codes (fun _ => True) (encodeList encodeDefinition) (decodeList decodeDefinition) :=
  (codes_list codes_definition encodeDefinition_ne_nil).of_iff fun _ =>
    ⟨fun _ => trivial, fun _ _ _ => trivial⟩

end NestedViews.Snapshot

namespace NestedViews.Catalog

variable {c : Catalog} {bytes : List UInt8} {definitions : List GroupDefinition}

open Snapshot

theorem definitions_of_ofDefinitions (h : ofDefinitions definitions = .ok c) :
    c.groups.map Group.definition = definitions := by
  rw [ofDefinitions, bind_eq_ok] at h
  obtain ⟨registered, hregistered, h⟩ := h
  obtain ⟨rfl, hnodup, hchecks⟩ := of_foldlM_register hregistered
  exact (coherent_of_build (hnodup (by simp)) hchecks h).1

theorem Built.ofDefinitions_eq (hc : c.Built) :
    ofDefinitions (c.groups.map Group.definition) = .ok c := by
  obtain ⟨definitions, h⟩ := hc
  rwa [definitions_of_ofDefinitions h]

theorem decodeList_encode (hsize : c.encode.length < 2 ^ 64) (rest : List UInt8) :
    decodeList decodeDefinition (c.encode ++ rest) =
      .ok (c.groups.map Group.definition, rest) :=
  codes_definitions.reads _ rest trivial hsize

theorem decode_encode_append (hc : c.Built) (hsize : c.encode.length < 2 ^ 64)
    (rest : List UInt8) : decode (c.encode ++ rest) = .ok c := by
  have hread : (decodeList decodeDefinition).run (c.encode ++ rest) =
      .ok (c.groups.map Group.definition, rest) := decodeList_encode hsize rest
  rw [decode, hread]
  exact hc.ofDefinitions_eq

theorem decode_encode_orderCatalog : orderCatalog.Built ∧ orderCatalog.encode.length < 2 ^ 64 ∧
    decode (orderCatalog.encode ++ [0xFF]) = .ok orderCatalog := by
  have hsize : orderCatalog.encode.length < 2 ^ 64 := by decide +kernel
  exact ⟨built_orderCatalog, hsize, decode_encode_append built_orderCatalog hsize [0xFF]⟩

theorem encode_prefix_of_decode (h : decode bytes = .ok c) : c.encode <+: bytes := by
  rw [decode] at h
  cases hread : (decodeList decodeDefinition).run bytes with
  | error fault =>
    rw [hread] at h
    cases h
  | ok result =>
    obtain ⟨definitions, rest⟩ := result
    rw [hread] at h
    obtain ⟨_, rfl⟩ := codes_definitions.exact bytes definitions rest hread
    rw [encode, definitions_of_ofDefinitions h]
    exact List.prefix_append _ _

theorem decode_of_prefix (hsize : c.encode.length < 2 ^ 64) (hpart : bytes <+: c.encode)
    (hne : bytes ≠ c.encode) : ∃ fault, decode bytes = .error (.catalog (.undecodable fault)) := by
  obtain ⟨more, hmore⟩ := hpart
  cases hread : (decodeList decodeDefinition).run bytes with
  | error fault => exact ⟨fault, by rw [decode, hread]⟩
  | ok result =>
    obtain ⟨definitions, rest⟩ := result
    obtain ⟨_, rfl⟩ := codes_definitions.exact bytes definitions rest hread
    have hlength := congrArg List.length hmore
    rw [List.length_append, List.length_append] at hlength
    -- What was cut off would be left over by reading the whole snapshot.
    have hwhole := codes_definitions.reads definitions (rest ++ more) trivial (by omega)
    rw [← List.append_assoc, hmore, ← List.append_nil c.encode, decodeList_encode hsize] at hwhole
    have hleft : [] = rest ++ more := (Prod.mk.inj (Except.ok.inj hwhole)).2
    have hnil : more = [] := (List.append_eq_nil_iff.mp hleft.symm).2
    rw [hnil, List.append_nil] at hmore
    exact absurd hmore hne

/-- The snapshot of a catalog is in every input that the catalog is restored from, and it is cut off
nowhere: a part of it is refused. -/
theorem decode_canonical :
    (∀ bytes c, decode bytes = .ok c → c.encode <+: bytes) ∧
      ∀ c : Catalog, c.encode.length < 2 ^ 64 → ∀ bytes, bytes <+: c.encode → bytes ≠ c.encode →
        ∃ fault, decode bytes = .error (.catalog (.undecodable fault)) :=
  ⟨fun _ _ => encode_prefix_of_decode, fun _ hsize _ => decode_of_prefix hsize⟩

theorem decode_canonical_orderCatalog :
    (decode (orderCatalog.encode ++ [0xFF]) = .ok orderCatalog ∧
      orderCatalog.encode <+: orderCatalog.encode ++ [0xFF]) ∧
    ∃ fault, decode orderCatalog.encode.dropLast = .error (.catalog (.undecodable fault)) := by
  have hread : decode (orderCatalog.encode ++ [0xFF]) = .ok orderCatalog := by decide +kernel
  have hsize : orderCatalog.encode.length < 2 ^ 64 := by decide +kernel
  have hne : orderCatalog.encode.dropLast ≠ orderCatalog.encode := by decide +kernel
  exact ⟨⟨hread, decode_canonical.1 _ _ hread⟩,
    decode_canonical.2 _ hsize _ (List.dropLast_prefix _) hne⟩

end NestedViews.Catalog
