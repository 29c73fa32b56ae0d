import Mathlib
import NestedViews.Value.Coercion

namespace NestedViews.Value

variable {v w : Value} {type : ValueType} {s : String} {e : Error}

theorem int64?_eq_some_iff {n : ℤ} {m : Int64} : int64? n = some m ↔ m.toInt = n := by
  rw [int64?, Option.ite_none_right_eq_some, Option.some_inj]
  constructor
  · rintro ⟨h, rfl⟩
    exact h
  · rintro rfl
    rw [Int64.ofInt_toInt]
    exact ⟨rfl, rfl⟩

theorem type?_of_parse? (h : parse? s type = some w) : w.type? = some type := by
  cases type with
  | int64 =>
    obtain ⟨_, _, rfl⟩ := Option.map_eq_some_iff.mp h
    rfl
  | float64 =>
    obtain ⟨_, _, rfl⟩ := Option.map_eq_some_iff.mp h
    rfl
  | bool =>
    simp only [parse?] at h
    split at h
    · cases h
      rfl
    · split at h <;> cases h
      rfl
  | string =>
    cases h
    rfl
  | date =>
    obtain ⟨_, _, rfl⟩ := Option.map_eq_some_iff.mp h
    rfl
  | timestamp =>
    obtain ⟨_, _, rfl⟩ := Option.map_eq_some_iff.mp h
    rfl

theorem type?_of_convert? (h : v.convert? type = some w) : w.type? = some type := by
  unfold convert? at h
  split at h
  · cases h
    rfl
  · cases h
    rfl
  · cases h
    rfl
  · cases h
    rfl
  · obtain ⟨_, _, rfl⟩ := Option.map_eq_some_iff.mp h
    rfl
  · obtain ⟨_, _, rfl⟩ := Option.map_eq_some_iff.mp h
    rfl
  · exact type?_of_parse? h
  · cases h

theorem eq_null_of_isNull (h : v.isNull) : v = .null := by
  cases v <;> cases h
  rfl

theorem isNull_eq_false (h : v.type? = some type) : v.isNull = false := by
  rw [isNull, h]
  rfl

theorem coerce_self (h : v.type? = some type) : v.coerce type = .ok v :=
  if_pos (.inl h)

theorem coerce_null (type : ValueType) : null.coerce type = .ok null :=
  if_pos (.inr rfl)

theorem coerce_eq_ok_iff {source : ValueType} (hsource : v.type? = some source)
    (hne : source ≠ type) : v.coerce type = .ok w ↔ v.convert? type = some w := by
  have hcond : ¬(v.type? = some type ∨ v.isNull) := by
    simp [isNull_eq_false hsource, hsource, hne]
  rw [coerce, if_neg hcond]
  cases v.convert? type <;> simp

theorem coerce_eq_error (h : v.coerce type = .error e) :
    e = .typeMismatch type.name v.typeName s!"cannot coerce {v.text}" := by
  unfold coerce at h
  split at h
  · cases h
  · split at h <;> cases h
    rfl

theorem coerce_eq_mismatch {source : ValueType} (hsource : v.type? = some source)
    (hne : source ≠ type) (h : v.convert? type = none) :
    v.coerce type = .error (.typeMismatch type.name source.name s!"cannot coerce {v.text}") := by
  have hname : v.typeName = source.name := by
    rw [typeName, hsource]
    rfl
  cases hcoerce : v.coerce type with
  | ok w => cases h.symm.trans ((coerce_eq_ok_iff hsource hne).mp hcoerce)
  | error e => rw [coerce_eq_error hcoerce, hname]

theorem type?_of_coerce (h : v.coerce type = .ok w) : w = .null ∨ w.type? = some type := by
  unfold coerce at h
  split at h
  · rename_i hsame
    cases h
    exact hsame.symm.imp eq_null_of_isNull id
  · split at h <;> cases h
    rename_i hconvert
    exact .inr (type?_of_convert? hconvert)

/-- What stands for a value among the values of a type: a null for a null, else a value of the type,
which stands for itself. -/
structure StandsFor (w v : Value) (type : ValueType) : Prop where
  isNull_iff : w.isNull ↔ v.isNull
  type?_eq : v.isNull = false → w.type? = some type
  stable : w.coerce type = .ok w

theorem standsFor_of_coerce (h : v.coerce type = .ok w) : w.StandsFor v type := by
  cases hv : v.type? with
  | none =>
    obtain rfl : v = .null := eq_null_of_isNull (by rw [isNull, hv]; rfl)
    cases (coerce_null type).symm.trans h
    exact ⟨Iff.rfl, fun h => Bool.noConfusion h, coerce_null type⟩
  | some source =>
    have hw : w.type? = some type := by
      rcases eq_or_ne source type with rfl | hne
      · cases (coerce_self hv).symm.trans h
        exact hv
      · exact type?_of_convert? ((coerce_eq_ok_iff hv hne).mp h)
    exact ⟨by simp [isNull_eq_false hv, isNull_eq_false hw], fun _ => hw, coerce_self hw⟩

theorem exists_parse? (type : ValueType) : ∃ s w, parse? s type = some w := by
  cases type with
  | int64 => exact ⟨"0", _, rfl⟩
  | float64 => exact ⟨"0", _, rfl⟩
  | bool => exact ⟨"true", .bool true, rfl⟩
  | string => exact ⟨"", _, rfl⟩
  | date => exact ⟨"1970-01-01", _, rfl⟩
  | timestamp => exact ⟨"1970-01-01T00:00:00Z", _, rfl⟩

theorem convert?_string (hne : ValueType.string ≠ type) :
    (string s).convert? type = parse? s type := by
  cases type with
  | string => exact absurd rfl hne
  | int64 | float64 | bool | date | timestamp => rfl

def sample : ValueType → Value
  | .int64 => .int64 0
  | .float64 => .float64 ⟨0⟩
  | .bool => .bool true
  | .string => .string ""
  | .date => .date 0
  | .timestamp => .timestamp 0

theorem type?_sample (source : ValueType) : (sample source).type? = some source := by
  cases source <;> rfl

theorem convert?_sample_float64 : (sample .float64).convert? .int64 = some (.int64 0) := by
  decide +kernel

theorem exists_convert?_sample {source : ValueType} (hstring : source ≠ .string)
    (hne : source ≠ type) (h : source.canBecome type) :
    ∃ w, (sample source).convert? type = some w := by
  cases source with
  | string => exact absurd rfl hstring
  | int64 =>
    cases type with
    | int64 => exact absurd rfl hne
    | float64 | string | timestamp => exact ⟨_, rfl⟩
    | bool | date => cases h
  | float64 =>
    cases type with
    | float64 => exact absurd rfl hne
    | int64 => exact ⟨_, convert?_sample_float64⟩
    | string => exact ⟨_, rfl⟩
    | bool | date | timestamp => cases h
  | bool =>
    cases type with
    | bool => exact absurd rfl hne
    | string => exact ⟨_, rfl⟩
    | int64 | float64 | date | timestamp => cases h
  | date =>
    cases type with
    | date => exact absurd rfl hne
    | string | timestamp => exact ⟨_, rfl⟩
    | int64 | float64 | bool => cases h
  | timestamp =>
    cases type with
    | timestamp => exact absurd rfl hne
    | int64 | string => exact ⟨_, rfl⟩
    | float64 | bool | date => cases h

theorem exists_convert? {source : ValueType} (hne : source ≠ type) (h : source.canBecome type) :
    ∃ v w : Value, v.type? = some source ∧ v.convert? type = some w := by
  rcases eq_or_ne source .string with rfl | hstring
  · obtain ⟨s, w, hs⟩ := exists_parse? type
    exact ⟨.string s, w, rfl, (convert?_string hne).trans hs⟩
  · obtain ⟨w, hw⟩ := exists_convert?_sample hstring hne h
    exact ⟨sample source, w, type?_sample source, hw⟩

theorem canBecome_of_convert? {source : ValueType} (hsource : v.type? = some source)
    (h : v.convert? type = some w) : source.canBecome type := by
  unfold convert? at h
  split at h
  -- every type can become a text, and a text every type
  · cases source <;> rfl
  · cases hsource
    rfl
  · cases hsource
    rfl
  · cases hsource
    rfl
  · cases hsource
    rfl
  · cases hsource
    rfl
  · cases hsource
    cases type <;> rfl
  · cases h

theorem canBecome_self (type : ValueType) : type.canBecome type := by
  cases type <;> rfl

/-- The types tell just which coercions can succeed: one type can become another iff some value of
the one is coerced to the other. Whatever is coerced, the result stands for it among the values of
the type, or else the failure names the type and the type of the value. -/
theorem canBecome_iff_coerces :
    (∀ source target : ValueType, source.canBecome target ↔
      ∃ v w : Value, v.type? = some source ∧ v.coerce target = .ok w) ∧
    ∀ (v : Value) (target : ValueType),
      (∃ w, v.coerce target = .ok w ∧ w.StandsFor v target) ∨
        v.coerce target =
          .error (.typeMismatch target.name v.typeName s!"cannot coerce {v.text}") := by
  refine ⟨fun source target => ⟨fun h => ?_, ?_⟩, fun v target => ?_⟩
  · rcases eq_or_ne source target with rfl | hne
    · exact ⟨sample source, _, type?_sample source, coerce_self (type?_sample source)⟩
    · obtain ⟨v, w, hv, hw⟩ := exists_convert? hne h
      exact ⟨v, w, hv, (coerce_eq_ok_iff hv hne).mpr hw⟩
  · rintro ⟨v, w, hv, hw⟩
    rcases eq_or_ne source target with rfl | hne
    · exact canBecome_self source
    · exact canBecome_of_convert? hv ((coerce_eq_ok_iff hv hne).mp hw)
  · cases h : v.coerce target with
    | ok w => exact .inl ⟨w, rfl, standsFor_of_coerce h⟩
    | error e => exact .inr (congrArg Except.error (coerce_eq_error h))

end NestedViews.Value
