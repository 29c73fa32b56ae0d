import NestedViews.Proofs.Lookup
import NestedViews.Proofs.Success

namespace NestedViews

variable {α : Type} {name : α → String} {as : List α} {i : Nat} {n : String} {a : α}

theorem getElem?_of_findIdx? (h : as.findIdx? (fun b => name b = n) = some i) :
    ∃ a, as[i]? = some a ∧ name a = n := by
  obtain ⟨hi, hname, _⟩ := List.findIdx?_eq_some_iff_getElem.mp h
  exact ⟨as[i], List.getElem?_eq_getElem hi, by simpa using hname⟩

theorem findIdx?_of_getElem? (hnodup : (as.map name).Nodup) (h : as[i]? = some a) :
    as.findIdx? (fun b => name b = name a) = some i := by
  obtain ⟨hi, rfl⟩ := List.getElem?_eq_some_iff.mp h
  rw [List.findIdx?_eq_some_iff_getElem]
  refine ⟨hi, by simp, fun j hj => ?_⟩
  have hne := List.pairwise_iff_getElem.mp hnodup j i (by simp; omega) (by simpa) hj
  simpa using hne

theorem GroupDefinition.elementIndex?_of_getElem? {d : GroupDefinition} {i : Nat} {e : Element}
    (h : (d.elements.map Element.name).Nodup) (he : d.elements[i]? = some e) :
    d.elementIndex? e.name = some i :=
  findIdx?_of_getElem? h he

namespace Slot

variable {group : String} {ancestors : List GroupDefinition} {b : Binding} {s : Slot}
variable {q : GroupDefinition} {e : Element}

/-- A slot reads the element of an ancestor that a binding names. -/
structure Reads (s : Slot) (ancestors : List GroupDefinition) (b : Binding) (q : GroupDefinition)
    (e : Element) : Prop where
  binding : s.binding = b
  group : s.group = q.name
  split : splitQualified? b.element = some (q.name, e.name)
  ancestor : ancestors[s.levelsUp]? = some q
  position : q.elementIndex? e.name = some s.position
  element : q.elements[s.position]? = some e
  canBecome : ∀ type, b.expected = some type → e.type.canBecome type

theorem compile_eq_ok {target element : String} {levelsUp position : Nat}
    (hsplit : splitQualified? b.element = some (target, element))
    (hlevelsUp : ancestors.findIdx? (·.name = target) = some levelsUp)
    (hq : ancestors[levelsUp]? = some q) (hposition : q.elementIndex? element = some position)
    (he : q.elements[position]? = some e) :
    compile group ancestors b = .ok s ↔ (∀ type, b.expected = some type → e.type.canBecome type) ∧
      s = ⟨b, target, levelsUp, position, e.type⟩ := by
  simp only [compile, hsplit, hlevelsUp, hq, hposition, he]
  cases hexpected : b.expected with
  | none => exact pure_eq_ok.trans ⟨fun h => ⟨by simp, h.symm⟩, fun h => h.2.symm⟩
  | some type =>
    cases hbecome : e.type.canBecome type
    · simp [hbecome]
    · simp only [hbecome, Bool.not_true, Bool.false_eq_true, if_false, pure_eq_ok,
        Option.some.injEq]
      exact ⟨fun h => ⟨fun _ htype => htype ▸ hbecome, h.symm⟩, fun h => h.2.symm⟩

theorem reads_of_compile (h : compile group ancestors b = .ok s) :
    ∃ q e, s.Reads ancestors b q e := by
  have hcompile := h
  unfold compile at h
  split at h <;> try cases h
  rename_i target element hsplit
  split at h <;> try cases h
  rename_i levelsUp hlevelsUp
  split at h <;> try cases h
  rename_i q hq
  split at h <;> try cases h
  rename_i position hposition
  split at h <;> try cases h
  rename_i e he
  obtain ⟨hbecome, rfl⟩ := (compile_eq_ok hsplit hlevelsUp hq hposition he).mp hcompile
  obtain ⟨_, hq', rfl⟩ := getElem?_of_findIdx? hlevelsUp
  obtain ⟨_, he', rfl⟩ := getElem?_of_findIdx? hposition
  rw [hq] at hq'
  rw [he] at he'
  cases hq'
  cases he'
  exact ⟨q, e, rfl, rfl, hsplit, hq, hposition, he, hbecome⟩

theorem exists_compile (hq : q ∈ ancestors)
    (hancestors : (ancestors.map GroupDefinition.name).Nodup)
    (he : e ∈ q.elements) (helements : (q.elements.map Element.name).Nodup)
    (hsplit : splitQualified? b.element = some (q.name, e.name))
    (hbecome : ∀ type, b.expected = some type → e.type.canBecome type) :
    ∃ s, compile group ancestors b = .ok s := by
  obtain ⟨levelsUp, hq⟩ := List.mem_iff_getElem?.mp hq
  obtain ⟨position, he⟩ := List.mem_iff_getElem?.mp he
  exact ⟨_, (compile_eq_ok hsplit (findIdx?_of_getElem? hancestors hq) hq
    (findIdx?_of_getElem? helements he) he).mpr ⟨hbecome, rfl⟩⟩

end Slot

namespace Plan

variable {group : String} {t : QueryTemplate} {ancestors : List GroupDefinition} {p : Plan}

theorem compile_eq_ok : compile group t ancestors = .ok p ↔
    (∃ found, Query.placeholders t.query = .ok found ∧ found.length = t.bindings.length) ∧
      p.query = t.query ∧
        List.Forall₂ (fun b s => Slot.compile group ancestors b = .ok s) t.bindings p.slots := by
  unfold compile
  cases hfound : Query.placeholders t.query with
  | error fault => simp
  | ok found =>
    by_cases hlength : found.length = t.bindings.length
    · obtain ⟨query, slots⟩ := p
      simp only [pure_bind, ne_eq, hlength, not_true_eq_false, if_false, bind_eq_ok, mapM_eq_ok,
        pure_eq_ok, mk.injEq, Except.ok.injEq, exists_eq_left', true_and]
      constructor
      · rintro ⟨_, h, rfl, rfl⟩
        exact ⟨rfl, h⟩
      · rintro ⟨rfl, h⟩
        exact ⟨_, h, rfl, rfl⟩
    · simp [hlength]

end Plan

end NestedViews
