import Mathlib
import NestedViews.Binary64.Integer

namespace NestedViews.Binary64

@[simp] theorem natAbs_signed (negative : Bool) (n : ℕ) : (signed negative n).natAbs = n := by
  cases negative <;> simp [signed]

@[simp] theorem abs_signed (negative : Bool) (n : ℕ) : |signed negative n| = n := by
  rw [Int.abs_eq_natAbs, natAbs_signed]

theorem signed_mul (negative : Bool) (m n : ℕ) :
    signed negative (m * n) = signed negative m * n := by
  cases negative <;> simp [signed]

@[simp] theorem signed_eq_zero {negative : Bool} {n : ℕ} : signed negative n = 0 ↔ n = 0 := by
  cases negative <;> simp [signed]

theorem two_zpow_mul (e : ℤ) : (2 : ℚ) ^ e * 2 ^ (-e).toNat = 2 ^ e.toNat := by
  rw [← zpow_natCast, ← zpow_natCast, ← zpow_add₀ two_ne_zero]
  congr 1
  omega

namespace Number

def rat? : Number → Option ℚ
  | .finite negative mantissa exponent => some (signed negative mantissa * 2 ^ exponent)
  | _ => none

variable {x y : Number} {q r : ℚ}

theorem signed_mul_zpow (negative : Bool) (mantissa : ℕ) {unit exponent : ℤ} (h : unit ≤ exponent) :
    (signed negative mantissa * 2 ^ exponent : ℚ) =
      signed negative (mantissa * Nat.pow 2 (exponent - unit).toNat) * 2 ^ unit := by
  have hpow : (2 : ℚ) ^ exponent = 2 ^ (exponent - unit).toNat * 2 ^ unit := by
    rw [← zpow_natCast, ← zpow_add₀ two_ne_zero]
    congr 1
    omega
  rw [hpow, signed_mul]
  push_cast [Nat.pow_eq]
  ring

theorem exists_compare? (hx : x.rat? = some q) (hy : y.rat? = some r) :
    ∃ (a b : ℤ) (unit : ℚ), 0 < unit ∧ x.compare? y = some (compare a b) ∧
      q = a * unit ∧ r = b * unit := by
  cases x <;> cases hx
  rename_i s m e
  cases y <;> cases hy
  rename_i t n f
  exact ⟨_, _, 2 ^ min e f, by positivity, rfl, signed_mul_zpow s m (min_le_left e f),
    signed_mul_zpow t n (min_le_right e f)⟩

theorem compare?_eq_lt (hx : x.rat? = some q) (hy : y.rat? = some r) :
    x.compare? y = some .lt ↔ q < r := by
  obtain ⟨a, b, unit, hunit, hcompare, rfl, rfl⟩ := exists_compare? hx hy
  rw [hcompare, Option.some_inj, compare_lt_iff_lt, mul_lt_mul_iff_left₀ hunit, Int.cast_lt]

theorem compare?_eq_eq (hx : x.rat? = some q) (hy : y.rat? = some r) :
    x.compare? y = some .eq ↔ q = r := by
  obtain ⟨a, b, unit, hunit, hcompare, rfl, rfl⟩ := exists_compare? hx hy
  rw [hcompare, Option.some_inj, compare_eq_iff_eq, mul_left_inj' hunit.ne', Int.cast_inj]

theorem compare?_isLE (hx : x.rat? = some q) (hy : y.rat? = some r) :
    (x.compare? y).any Ordering.isLE ↔ q ≤ r := by
  obtain ⟨a, b, unit, hunit, hcompare, rfl, rfl⟩ := exists_compare? hx hy
  rw [hcompare, Option.any_some, Std.isLE_compare,
    mul_le_mul_iff_left₀ hunit, Int.cast_le]

variable {negative : Bool} {mantissa : ℕ} {exponent : ℤ}

theorem fraction_eq_zero_iff :
    (Number.finite negative mantissa exponent).fraction.compare? (.finite false 0 0) = some .eq ↔
      2 ^ (-exponent).toNat ∣ mantissa := by
  have hpow : (2 : ℚ) ^ exponent ≠ 0 := zpow_ne_zero _ two_ne_zero
  have hzero : (signed false 0 * 2 ^ (0 : ℤ) : ℚ) = 0 := by simp [signed]
  rw [compare?_eq_eq rfl rfl, hzero, mul_eq_zero, or_iff_left hpow, Int.cast_eq_zero,
    signed_eq_zero, Nat.dvd_iff_mod_eq_zero, Nat.pow_eq]

theorem dvd_of_eq_intCast {n : ℤ} (h : (signed negative mantissa * 2 ^ exponent : ℚ) = n) :
    2 ^ (-exponent).toNat ∣ mantissa := by
  rcases le_total 0 exponent with hexponent | hexponent
  · simp [Int.toNat_of_nonpos (neg_nonpos.mpr hexponent)]
  · have hscaled : (signed negative mantissa : ℚ) = n * 2 ^ (-exponent).toNat := by
      rw [← h, mul_assoc, two_zpow_mul, Int.toNat_of_nonpos hexponent, pow_zero, mul_one]
    have hdvd : (2 : ℤ) ^ (-exponent).toNat ∣ signed negative mantissa :=
      Dvd.intro_left n (by exact_mod_cast hscaled.symm)
    simpa [Int.natAbs_pow] using Int.natAbs_dvd_natAbs.mpr hdvd

theorem eq_intCast_of_dvd (h : 2 ^ (-exponent).toNat ∣ mantissa) :
    (signed negative mantissa * 2 ^ exponent : ℚ) =
      signed negative (mantissa * Nat.pow 2 exponent.toNat / Nat.pow 2 (-exponent).toNat) := by
  have hcancel : mantissa * 2 ^ exponent.toNat / 2 ^ (-exponent).toNat * 2 ^ (-exponent).toNat =
      mantissa * 2 ^ exponent.toNat := Nat.div_mul_cancel (h.mul_right _)
  have hpow : (2 : ℚ) ^ (-exponent).toNat ≠ 0 := by positivity
  apply mul_right_cancel₀ hpow
  rw [mul_assoc, two_zpow_mul]
  have hsigned := congrArg (signed negative) hcancel
  simp only [signed_mul] at hsigned
  simp only [Nat.pow_eq]
  exact_mod_cast hsigned.symm

end Number

def rat? (x : Binary64) : Option ℚ :=
  x.toNumber.rat?

theorem rat?_least : (ofInt Int64.minValue.toInt).rat? = some (-2 ^ 63) := by
  have h : (ofInt Int64.minValue.toInt).toNumber = .finite true (2 ^ 52) 11 := by decide +kernel
  rw [rat?, h, Number.rat?]
  norm_num [signed]

/-- The largest integer of 64 bits is rounded up. -/
theorem rat?_bound : (ofInt Int64.maxValue.toInt).rat? = some (2 ^ 63) := by
  have h : (ofInt Int64.maxValue.toInt).toNumber = .finite false (2 ^ 52) 11 := by decide +kernel
  rw [rat?, h, Number.rat?]
  norm_num [signed]

theorem toInt64?_eq_some_iff {x : Binary64} {n : Int64} :
    x.toInt64? = some n ↔ x.rat? = some (n.toInt : ℚ) := by
  unfold toInt64? rat?
  cases hx : x.toNumber with
  | nan => simp [Number.fraction, Number.compare?, Number.rat?]
  | infinite => simp [Number.fraction, Number.compare?, Number.rat?]
  | finite negative mantissa exponent =>
    have hleast := Number.compare?_isLE rat?_least (y := .finite negative mantissa exponent) rfl
    have hbound := Number.compare?_eq_lt (x := .finite negative mantissa exponent) rfl rat?_bound
    rw [Option.ite_none_right_eq_some, Number.fraction_eq_zero_iff, hleast, hbound, Number.rat?,
      Option.some_inj, Option.some_inj]
    constructor
    · rintro ⟨⟨hdvd, hlow, hhigh⟩, rfl⟩
      rw [Number.eq_intCast_of_dvd hdvd] at hlow hhigh ⊢
      rw [Number.toInt64, Int64.toInt_ofIntClamp]
      · exact_mod_cast hlow
      · exact Int.le_of_lt_add_one (by exact_mod_cast hhigh)
    · intro h
      have hdvd := Number.dvd_of_eq_intCast h
      have hwhole := h
      rw [Number.eq_intCast_of_dvd hdvd, Int.cast_inj] at hwhole
      rw [h, Number.toInt64, hwhole, Int64.ofIntClamp_toInt]
      exact ⟨⟨hdvd, by exact_mod_cast n.le_toInt, by exact_mod_cast n.toInt_lt⟩, rfl⟩

end NestedViews.Binary64
