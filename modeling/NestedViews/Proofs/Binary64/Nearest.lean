import Mathlib
import NestedViews.Proofs.Binary64.Exact

namespace NestedViews.Binary64

/-- A number is finite and no finite number is nearer to a rational number. If another one is
equally near then the last bit is zero. -/
def IsNearest (x : Binary64) (q : ℚ) : Prop :=
  ∃ r, x.rat? = some r ∧ ∀ (y : Binary64) (s : ℚ), y.rat? = some s →
    |r - q| < |s - q| ∨ |r - q| = |s - q| ∧ (s = r ∨ x.bits.toNat % 2 = 0)

theorem IsNearest.rat?_eq {x y : Binary64} {q : ℚ} (hx : x.IsNearest q) (hy : y.rat? = some q) :
    x.rat? = some q := by
  obtain ⟨r, hr, hnearest⟩ := hx
  have hle : |r - q| ≤ |q - q| := (hnearest y q hy).elim le_of_lt fun h => h.1.le
  rw [sub_self, abs_zero, abs_nonpos_iff, sub_eq_zero] at hle
  rw [hr, hle]

section Quotient

variable {num den bound : ℕ}

theorem roundDiv_cases (num den : ℕ) :
    roundDiv num den = num / den ∧ 2 * (num % den) ≤ den ∨
      roundDiv num den = num / den + 1 ∧ den ≤ 2 * (num % den) := by
  unfold roundDiv
  dsimp only
  split
  · omega
  · split
    · omega
    · rcases Nat.mod_two_eq_zero_or_one (num / den) with h | h <;> omega

theorem le_roundDiv (hden : 0 < den) (h : bound * den ≤ num) : bound ≤ roundDiv num den := by
  have := (Nat.le_div_iff_mul_le hden).mpr h
  rcases roundDiv_cases num den with ⟨heq, _⟩ | ⟨heq, _⟩ <;> omega

theorem roundDiv_le (hden : 0 < den) (h : num < bound * den) : roundDiv num den ≤ bound := by
  have := (Nat.div_lt_iff_lt_mul hden).mpr h
  rcases roundDiv_cases num den with ⟨heq, _⟩ | ⟨heq, _⟩ <;> omega

/-- No multiple of the denominator is nearer to the numerator than the one that is rounded to, and
this one is even if another is equally near. -/
theorem roundDiv_nearest (hden : 0 < den) (k : ℤ) :
    (roundDiv num den * den - num : ℤ).natAbs < (k * den - num : ℤ).natAbs ∨
      (roundDiv num den * den - num : ℤ).natAbs = (k * den - num : ℤ).natAbs ∧
        (k = roundDiv num den ∨ roundDiv num den % 2 = 0) := by
  have hnum : ((num / den : ℕ) * den + (num % den : ℕ) : ℤ) = num := by
    exact_mod_cast Nat.div_add_mod' num den
  have hmod := Nat.mod_lt num hden
  have hside : k * den + den ≤ (num / den : ℕ) * (den : ℤ) ∨ k = (num / den : ℕ) ∨
      k = (num / den : ℕ) + 1 ∨ (num / den : ℕ) * (den : ℤ) + 2 * den ≤ k * den := by
    rcases lt_trichotomy k (num / den : ℕ) with h | h | h
    · exact .inl (by nlinarith)
    · exact .inr (.inl h)
    · rcases eq_or_lt_of_le (Int.add_one_le_of_lt h) with h | h
      · exact .inr (.inr (.inl h.symm))
      · exact .inr (.inr (.inr (by nlinarith)))
  have hnext : ((num / den : ℕ) + 1 : ℤ) * den = (num / den : ℕ) * (den : ℤ) + den := by ring
  unfold roundDiv
  dsimp only
  generalize num / den = quotient at *
  generalize num % den = rest at *
  split
  · rcases hside with h | rfl | rfl | h <;> omega
  · split
    · push_cast
      rcases hside with h | rfl | rfl | h <;> omega
    · rcases Nat.mod_two_eq_zero_or_one quotient with heven | hodd
      · rw [heven, Nat.add_zero]
        rcases hside with h | rfl | rfl | h <;> omega
      · rw [hodd]
        push_cast
        rcases hside with h | rfl | rfl | h <;> omega

end Quotient

section Fields

variable {magnitude mantissa : ℕ}

theorem toNat_bits_ofMagnitude (negative : Bool) (h : magnitude < 2 ^ 63) :
    (ofMagnitude negative magnitude).bits.toNat = (if negative then 2 ^ 63 else 0) + magnitude := by
  rw [ofMagnitude, UInt64.toNat_ofNat']
  apply Nat.mod_eq_of_lt
  simp only [Nat.pow_eq]
  split <;> omega

theorem negative_ofMagnitude (negative : Bool) (h : magnitude < 2 ^ 63) :
    (ofMagnitude negative magnitude).negative = negative := by
  rw [Binary64.negative, toNat_bits_ofMagnitude negative h, Nat.pow_eq]
  cases negative
  · rw [if_neg Bool.false_ne_true, beq_eq_false_iff_ne]
    omega
  · rw [if_pos rfl, beq_iff_eq]
    omega

theorem exponentField_ofMagnitude (negative : Bool) (h : magnitude < 2 ^ 63) :
    (ofMagnitude negative magnitude).exponentField = magnitude / 2 ^ 52 := by
  simp only [exponentField, toNat_bits_ofMagnitude negative h, Nat.pow_eq]
  split <;> omega

theorem fractionField_ofMagnitude (negative : Bool) (h : magnitude < 2 ^ 63) :
    (ofMagnitude negative magnitude).fractionField = magnitude % 2 ^ 52 := by
  simp only [fractionField, toNat_bits_ofMagnitude negative h, Nat.pow_eq]
  split <;> omega

theorem rat?_ofMagnitude (negative : Bool) {exponent : ℕ} (hexponent : exponent ≤ 2044)
    (hlow : 2 ^ 52 ≤ mantissa) (hhigh : mantissa ≤ 2 ^ 53) :
    (ofMagnitude negative (exponent * 2 ^ 52 + mantissa)).rat? =
      some ((signed negative mantissa : ℚ) * 2 ^ ((exponent : ℤ) - 1074)) := by
  have hmagnitude : exponent * 2 ^ 52 + mantissa < 2 ^ 63 := by omega
  rw [rat?, toNumber, negative_ofMagnitude _ hmagnitude, exponentField_ofMagnitude _ hmagnitude,
    fractionField_ofMagnitude _ hmagnitude]
  rcases hhigh.lt_or_eq with hlt | rfl
  · have hfield : (exponent * 2 ^ 52 + mantissa) / 2 ^ 52 = exponent + 1 := by omega
    have hfraction : (exponent * 2 ^ 52 + mantissa) % 2 ^ 52 = mantissa - 2 ^ 52 := by omega
    have hmantissa : Nat.pow 2 52 + (mantissa - 2 ^ 52) = mantissa := Nat.add_sub_cancel' hlow
    have hunit : ((exponent + 1 : ℕ) - 1075 : ℤ) = exponent - 1074 := by omega
    rw [hfield, hfraction, if_neg (by omega), if_neg (by omega), Number.rat?, hmantissa, hunit]
  · have hfield : (exponent * 2 ^ 52 + 2 ^ 53) / 2 ^ 52 = exponent + 2 := by omega
    have hfraction : (exponent * 2 ^ 52 + 2 ^ 53) % 2 ^ 52 = 0 := by omega
    have hunit : ((exponent + 2 : ℕ) - 1075 : ℤ) = exponent - 1074 + 1 := by omega
    rw [hfield, hfraction, if_neg (by omega), if_neg (by omega), Number.rat?, hunit,
      zpow_add_one₀ two_ne_zero, pow_succ, signed_mul]
    push_cast [Nat.pow_eq]
    ring_nf

theorem mantissa_lt {x : Binary64} {negative : Bool} {exponent : ℤ}
    (h : x.toNumber = .finite negative mantissa exponent) : mantissa < 2 ^ 53 := by
  have hfraction : x.fractionField < 2 ^ 52 := Nat.mod_lt _ (by decide)
  unfold toNumber at h
  split at h
  · split at h <;> cases h
  · split at h <;> cases h
    · omega
    · simp only [Nat.pow_eq]
      omega

end Fields

/-- Whole multiples of a power of two, and what is too small to be one. -/
def OnGrid (exponent : ℤ) (q : ℚ) : Prop :=
  (∃ k : ℤ, q = k * 2 ^ exponent) ∨ |q| < 2 ^ 52 * 2 ^ exponent

theorem OnGrid.neg {exponent : ℤ} {q : ℚ} (h : OnGrid exponent q) : OnGrid exponent (-q) := by
  rcases h with ⟨k, rfl⟩ | h
  · exact .inl ⟨-k, by push_cast; ring⟩
  · exact .inr (by rwa [abs_neg])

theorem onGrid_of_rat? {x : Binary64} {q : ℚ} (h : x.rat? = some q) (exponent : ℤ) :
    OnGrid exponent q := by
  unfold rat? at h
  cases hx : x.toNumber <;> rw [hx] at h <;> cases h
  rename_i negative mantissa unit
  rcases le_or_gt exponent unit with hle | hlt
  · exact .inl ⟨_, Number.signed_mul_zpow negative mantissa hle⟩
  · right
    have hmantissa : (mantissa : ℚ) < 2 ^ 53 := by exact_mod_cast mantissa_lt hx
    have hunit : (2 : ℚ) ^ unit ≤ 2 ^ (exponent - 1) := zpow_le_zpow_right₀ one_le_two (by omega)
    calc |(signed negative mantissa * 2 ^ unit : ℚ)| = mantissa * 2 ^ unit := by
          rw [abs_mul, ← Int.cast_abs, abs_signed, abs_zpow, abs_two, Int.cast_natCast]
      _ < 2 ^ 53 * 2 ^ unit := by gcongr
      _ ≤ 2 ^ 53 * 2 ^ (exponent - 1) := by gcongr
      _ = 2 ^ 52 * 2 ^ exponent := by
        rw [zpow_sub_one₀ two_ne_zero]
        ring

section Integers

variable {n : ℕ}

def unitExponent (n : ℕ) : ℤ :=
  n.log2 - 52

def roundedMantissa (n : ℕ) : ℕ :=
  roundDiv (n * 2 ^ (-unitExponent n).toNat) (2 ^ (unitExponent n).toNat)

theorem floorLog2_one (hn : n ≠ 0) : floorLog2 n 1 = n.log2 := by
  have hlog : (n.log2 - Nat.log2 1 : ℤ) = n.log2 := by
    rw [show Nat.log2 1 = 0 from rfl, Nat.cast_zero, sub_zero]
  rw [floorLog2, hlog]
  exact if_pos (by simpa using Nat.log2_self_le hn)

theorem scaled_bounds (hn : n ≠ 0) :
    2 ^ 52 * 2 ^ (unitExponent n).toNat ≤ n * 2 ^ (-unitExponent n).toNat ∧
      n * 2 ^ (-unitExponent n).toNat < 2 ^ 53 * 2 ^ (unitExponent n).toNat := by
  have hlow : 52 + (unitExponent n).toNat = n.log2 + (-unitExponent n).toNat := by
    unfold unitExponent
    omega
  have hhigh : 53 + (unitExponent n).toNat = n.log2 + 1 + (-unitExponent n).toNat := by
    omega
  rw [← pow_add, ← pow_add, hlow, hhigh, pow_add, pow_add _ (n.log2 + 1)]
  exact ⟨Nat.mul_le_mul_right _ (Nat.log2_self_le hn),
    Nat.mul_lt_mul_of_pos_right Nat.lt_log2_self (by positivity)⟩

theorem le_roundedMantissa (hn : n ≠ 0) : 2 ^ 52 ≤ roundedMantissa n :=
  le_roundDiv (by positivity) (scaled_bounds hn).1

theorem roundedMantissa_le (hn : n ≠ 0) : roundedMantissa n ≤ 2 ^ 53 :=
  roundDiv_le (by positivity) (scaled_bounds hn).2

theorem nearest_one_eq (negative : Bool) (hn : n ≠ 0) (hlog : n.log2 ≤ 1022) :
    nearest negative n 1 =
      ofMagnitude negative ((unitExponent n + 1074).toNat * 2 ^ 52 + roundedMantissa n) := by
  have hexponent : max (floorLog2 n 1 - 52) (-1074) = unitExponent n := by
    rw [floorLog2_one hn, unitExponent]
    omega
  have hle := roundedMantissa_le hn
  rw [nearest, if_neg hn, hexponent]
  simp only [Nat.pow_eq, one_mul]
  rw [← roundedMantissa, min_eq_left]
  unfold unitExponent
  omega

theorem rat?_nearest (negative : Bool) (hn : n ≠ 0) (hlog : n.log2 ≤ 1022) :
    (nearest negative n 1).rat? =
      some ((signed negative (roundedMantissa n) : ℚ) * 2 ^ unitExponent n) := by
  have hexponent : ((unitExponent n + 1074).toNat : ℤ) - 1074 = unitExponent n := by
    unfold unitExponent
    omega
  rw [nearest_one_eq negative hn hlog,
    rat?_ofMagnitude _ (by unfold unitExponent; omega) (le_roundedMantissa hn)
      (roundedMantissa_le hn), hexponent]

theorem bits_nearest_mod_two (negative : Bool) (hn : n ≠ 0) (hlog : n.log2 ≤ 1022) :
    (nearest negative n 1).bits.toNat % 2 = roundedMantissa n % 2 := by
  have hle := roundedMantissa_le hn
  rw [nearest_one_eq negative hn hlog, toNat_bits_ofMagnitude _ (by unfold unitExponent; omega)]
  split <;> omega

theorem abs_sub_eq (k : ℤ) (n : ℕ) (exponent : ℤ) : |(k : ℚ) * 2 ^ exponent - n| =
    (k * (2 ^ exponent.toNat : ℕ) - (n * 2 ^ (-exponent).toNat : ℕ) : ℤ).natAbs /
      2 ^ (-exponent).toNat := by
  have hpos : (0 : ℚ) < 2 ^ (-exponent).toNat := by positivity
  have hscaled : ((k : ℚ) * 2 ^ exponent - n) * 2 ^ (-exponent).toNat =
      (k * (2 ^ exponent.toNat : ℕ) - (n * 2 ^ (-exponent).toNat : ℕ) : ℤ) := by
    rw [sub_mul, mul_assoc, two_zpow_mul]
    push_cast
    rfl
  rw [eq_div_iff hpos.ne', Nat.cast_natAbs, Int.cast_abs, ← hscaled, abs_mul, abs_of_pos hpos]

theorem roundedMantissa_nearest (n : ℕ) (k : ℤ) :
    |(roundedMantissa n : ℚ) * 2 ^ unitExponent n - n| < |(k : ℚ) * 2 ^ unitExponent n - n| ∨
      |(roundedMantissa n : ℚ) * 2 ^ unitExponent n - n| = |(k : ℚ) * 2 ^ unitExponent n - n| ∧
        (k = roundedMantissa n ∨ roundedMantissa n % 2 = 0) := by
  have hpos : (0 : ℚ) < 2 ^ (-unitExponent n).toNat := by positivity
  rw [← Int.cast_natCast (roundedMantissa n), abs_sub_eq, abs_sub_eq,
    div_lt_div_iff_of_pos_right hpos, div_left_inj' hpos.ne', Nat.cast_lt, Nat.cast_inj]
  exact roundDiv_nearest (by positivity) k

theorem roundedMantissa_nearest_of_onGrid (hn : n ≠ 0) {s : ℚ} (hs : OnGrid (unitExponent n) s) :
    |(roundedMantissa n : ℚ) * 2 ^ unitExponent n - n| < |s - n| ∨
      |(roundedMantissa n : ℚ) * 2 ^ unitExponent n - n| = |s - n| ∧
        (s = roundedMantissa n * 2 ^ unitExponent n ∨ roundedMantissa n % 2 = 0) := by
  rcases hs with ⟨k, rfl⟩ | hsmall
  · exact (roundedMantissa_nearest n k).imp_right fun ⟨heq, heven⟩ =>
      ⟨heq, heven.imp_left fun hk => by rw [hk, Int.cast_natCast]⟩
  · left
    have hleast : (2 : ℚ) ^ 52 * 2 ^ unitExponent n ≤ n := by
      have hpos : (0 : ℚ) < 2 ^ (-unitExponent n).toNat := by positivity
      rw [← mul_le_mul_iff_left₀ hpos, mul_assoc, two_zpow_mul]
      exact_mod_cast (scaled_bounds hn).1
    have hle : |(roundedMantissa n : ℚ) * 2 ^ unitExponent n - n| ≤
        |(2 : ℚ) ^ 52 * 2 ^ unitExponent n - n| := by
      have h := roundedMantissa_nearest n (2 ^ 52)
      push_cast at h
      exact h.elim le_of_lt fun h => h.1.le
    calc |(roundedMantissa n : ℚ) * 2 ^ unitExponent n - n|
        ≤ |(2 : ℚ) ^ 52 * 2 ^ unitExponent n - n| := hle
      _ = n - 2 ^ 52 * 2 ^ unitExponent n := by
        rw [abs_sub_comm, abs_of_nonneg (sub_nonneg.mpr hleast)]
      _ < n - s := sub_lt_sub_left ((le_abs_self s).trans_lt hsmall) _
      _ ≤ |s - n| := by
        rw [abs_sub_comm]
        exact le_abs_self _

theorem rat?_ofInt_zero : (ofInt 0).rat? = some 0 := by
  have h : (ofInt 0).toNumber = .finite false 0 (-1074) := by decide +kernel
  rw [rat?, h, Number.rat?]
  simp [signed]

theorem ofInt_isNearest {n : ℤ} (hlog : n.natAbs.log2 ≤ 1022) : (ofInt n).IsNearest n := by
  rcases eq_or_ne n 0 with rfl | hn
  · refine ⟨0, rat?_ofInt_zero, fun y s _ => ?_⟩
    rcases eq_or_ne s 0 with rfl | hs
    · exact .inr ⟨rfl, .inl rfl⟩
    · exact .inl (by simpa using hs)
  · have habs : n.natAbs ≠ 0 := Int.natAbs_ne_zero.mpr hn
    refine ⟨_, rat?_nearest _ habs hlog, fun y s hy => ?_⟩
    have hgrid := onGrid_of_rat? hy (unitExponent n.natAbs)
    rw [ofInt, bits_nearest_mod_two _ habs hlog]
    rcases hn.lt_or_gt with hneg | hpos
    · have hn : (n : ℚ) = -(n.natAbs : ℚ) := by
        rw [Nat.cast_natAbs, abs_of_neg hneg, Int.cast_neg, neg_neg]
      have h := roundedMantissa_nearest_of_onGrid habs hgrid.neg
      have hsigned : (signed true (roundedMantissa n.natAbs) : ℚ) = -roundedMantissa n.natAbs := by
        simp [signed]
      rw [decide_eq_true hneg, hn, hsigned, neg_mul, neg_sub_neg, abs_sub_comm, sub_neg_eq_add,
        ← abs_neg (s + _), neg_add']
      rwa [neg_eq_iff_eq_neg] at h
    · have hn : (n : ℚ) = n.natAbs := by rw [Nat.cast_natAbs, abs_of_pos hpos]
      rw [decide_eq_false hpos.not_gt, hn]
      exact roundedMantissa_nearest_of_onGrid habs hgrid

end Integers

end NestedViews.Binary64
