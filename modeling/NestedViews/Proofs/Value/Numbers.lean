import NestedViews.Proofs.Binary64.Nearest
import NestedViews.Proofs.Value.Coercion

namespace NestedViews

def ValueType.IsNumeric (type : ValueType) : Prop :=
  type = .int64 ∨ type = .float64

namespace Value

open Calendar

variable {v w : Value} {source target : ValueType}

theorem exists_int64_iff {p : ℤ → Prop} {f : Int64 → Value} :
    (∃ m : Int64, p m.toInt ∧ f m = w) ↔
      ∃ n, p n ∧ -2 ^ 63 ≤ n ∧ n < 2 ^ 63 ∧ w = f (.ofInt n) := by
  constructor
  · rintro ⟨m, hm, rfl⟩
    exact ⟨m.toInt, hm, m.le_toInt, m.toInt_lt, by rw [Int64.ofInt_toInt]⟩
  · rintro ⟨n, hn, hlow, hhigh, rfl⟩
    exact ⟨.ofInt n, by rwa [Int64.toInt_ofInt_of_le hlow hhigh], rfl⟩

theorem coerce_float64_int64 {x : Binary64} : (float64 x).coerce .int64 = .ok w ↔
    ∃ m : Int64, x.rat? = some (m.toInt : ℚ) ∧ .int64 m = w := by
  rw [coerce_eq_ok_iff rfl (by decide)]
  simp only [convert?, Option.map_eq_some_iff, Binary64.toInt64?_eq_some_iff]

theorem coerce_date_timestamp {days : Int32} : (date days).coerce .timestamp = .ok w ↔
    ∃ m : Int64, m.toInt = days.toInt * 86400000000 ∧ .timestamp m = w := by
  rw [coerce_eq_ok_iff rfl (by decide)]
  simp only [convert?, Option.map_eq_some_iff, int64?_eq_some_iff]
  rfl

/-- A floating point number is coerced to an integer iff it is one within the limits of 64 bits, and
a date is coerced to a timestamp iff its microseconds are. -/
theorem coerce_at_limits (w : Value) :
    (∀ x : Binary64, (float64 x).coerce .int64 = .ok w ↔
      ∃ n : ℤ, x.rat? = some (n : ℚ) ∧ -2 ^ 63 ≤ n ∧ n < 2 ^ 63 ∧ w = .int64 (.ofInt n)) ∧
    ∀ days : Int32, (date days).coerce .timestamp = .ok w ↔
      ∃ n : ℤ, n = days.toInt * 86400000000 ∧ -2 ^ 63 ≤ n ∧ n < 2 ^ 63 ∧
        w = .timestamp (.ofInt n) := by
  constructor
  · intro x
    rw [coerce_float64_int64]
    exact exists_int64_iff (p := fun n => x.rat? = some (n : ℚ))
  · intro days
    rw [coerce_date_timestamp]
    exact exists_int64_iff (p := fun n => n = days.toInt * 86400000000)

example : Binary64.toInt64? ⟨0x43E0000000000000⟩ = none ∧
    Binary64.toInt64? ⟨0x8000000000000000⟩ = some 0 := by decide +kernel

def number? : Value → Option ℚ
  | .int64 n => some n.toInt
  | .float64 x => x.rat?
  | _ => none

def SameNumber (v w : Value) : Prop :=
  v = w ∨ ∃ q, v.number? = some q ∧ w.number? = some q

def Representable (v : Value) (type : ValueType) : Prop :=
  ∃ w : Value, w.type? = some type ∧ w.SameNumber v

/-- What coercion makes of a numeric value: the same number, where the type can represent it; where
it cannot, an integer is rounded to the nearest floating point number and a floating point number
is refused. -/
inductive CoercesNumber (v : Value) (target : ValueType) : Prop
  | exact {w : Value} : v.coerce target = .ok w → w.type? = some target → w.SameNumber v →
      CoercesNumber v target
  | rounded {n : Int64} {x : Binary64} : ¬v.Representable target → v = .int64 n →
      target = .float64 → v.coerce target = .ok (.float64 x) → x.IsNearest n.toInt →
      CoercesNumber v target
  | refused : ¬v.Representable target → target = .int64 →
      v.coerce target = .error (.typeMismatch target.name v.typeName s!"cannot coerce {v.text}") →
      CoercesNumber v target

theorem representable_int64_iff {x : Binary64} :
    (float64 x).Representable .int64 ↔ ∃ m : Int64, x.rat? = some (m.toInt : ℚ) := by
  constructor
  · rintro ⟨w, hw, hsame⟩
    cases w <;> cases hw
    rename_i m
    obtain heq | ⟨q, hm, hx⟩ := hsame
    · cases heq
    · cases hm
      exact ⟨m, hx⟩
  · rintro ⟨m, hx⟩
    exact ⟨.int64 m, rfl, .inr ⟨_, rfl, hx⟩⟩

theorem representable_float64_iff {n : Int64} :
    (int64 n).Representable .float64 ↔ ∃ x : Binary64, x.rat? = some (n.toInt : ℚ) := by
  constructor
  · rintro ⟨w, hw, hsame⟩
    cases w <;> cases hw
    rename_i x
    obtain heq | ⟨q, hx, hn⟩ := hsame
    · cases heq
    · cases hn
      exact ⟨x, hx⟩
  · rintro ⟨x, hx⟩
    exact ⟨.float64 x, rfl, .inr ⟨_, hx, rfl⟩⟩

theorem coerce_int64_float64 (n : Int64) :
    (int64 n).coerce .float64 = .ok (.float64 (.ofInt n.toInt)) :=
  (coerce_eq_ok_iff rfl (by decide)).mpr rfl

theorem ofInt_toInt_isNearest (n : Int64) : (Binary64.ofInt n.toInt).IsNearest n.toInt := by
  apply Binary64.ofInt_isNearest
  have hlow := n.le_toInt
  have hhigh := n.toInt_lt
  rcases eq_or_ne n.toInt.natAbs 0 with hzero | hne
  · rw [hzero]
    decide
  · have hlog := (@Nat.log2_lt _ 64 hne).mpr (by omega)
    omega

theorem coercesNumber_int64 (n : Int64) : (int64 n).CoercesNumber .float64 := by
  have hcoerce := coerce_int64_float64 n
  have hnearest := ofInt_toInt_isNearest n
  by_cases hrepresentable : (int64 n).Representable .float64
  · obtain ⟨x, hx⟩ := representable_float64_iff.mp hrepresentable
    exact .exact hcoerce rfl (.inr ⟨_, hnearest.rat?_eq hx, rfl⟩)
  · exact .rounded hrepresentable rfl rfl hcoerce hnearest

theorem coercesNumber_float64 (x : Binary64) : (float64 x).CoercesNumber .int64 := by
  by_cases hrepresentable : (float64 x).Representable .int64
  · obtain ⟨m, hx⟩ := representable_int64_iff.mp hrepresentable
    exact .exact (coerce_float64_int64.mpr ⟨m, hx, rfl⟩) rfl (.inr ⟨_, rfl, hx⟩)
  · refine .refused hrepresentable rfl ?_
    cases hcoerce : (float64 x).coerce .int64 with
    | ok w =>
      obtain ⟨m, hx, -⟩ := coerce_float64_int64.mp hcoerce
      exact absurd (representable_int64_iff.mpr ⟨m, hx⟩) hrepresentable
    | error e => exact congrArg Except.error (coerce_eq_error hcoerce)

theorem coerce_numeric (hv : v.type? = some source) (hsource : source.IsNumeric)
    (htarget : target.IsNumeric) : v.CoercesNumber target := by
  rcases eq_or_ne source target with rfl | hne
  · exact .exact (coerce_self hv) hv (.inl rfl)
  rcases hsource with rfl | rfl <;> rcases htarget with rfl | rfl
  · exact absurd rfl hne
  · cases v <;> cases hv
    exact coercesNumber_int64 _
  · cases v <;> cases hv
    exact coercesNumber_float64 _
  · exact absurd rfl hne

def firstGap : Value :=
  .int64 9007199254740993

theorem coerce_numeric_firstGap : firstGap.type? = some .int64 ∧ ValueType.int64.IsNumeric ∧
    ValueType.float64.IsNumeric ∧ firstGap.CoercesNumber .float64 :=
  ⟨rfl, .inl rfl, .inr rfl, coerce_numeric rfl (.inl rfl) (.inr rfl)⟩

/-- Coercion of integers to floating point numbers loses what is beyond 53 bits. -/
theorem coerce_firstGap : firstGap.coerce .float64 = .ok (.float64 ⟨0x4340000000000000⟩) ∧
    firstGap.number? = some 9007199254740993 ∧
    (float64 ⟨0x4340000000000000⟩).number? = some 9007199254740992 := by
  have hround : Binary64.ofInt (9007199254740993 : Int64).toInt = ⟨0x4340000000000000⟩ := by
    decide +kernel
  have hnumber : Binary64.toNumber ⟨0x4340000000000000⟩ = .finite false (2 ^ 52) 1 := by
    decide +kernel
  refine ⟨?_, rfl, ?_⟩
  · rw [firstGap, coerce_int64_float64, hround]
  · rw [number?, Binary64.rat?, hnumber, Binary64.Number.rat?]
    norm_num [Binary64.signed]

end Value

end NestedViews
