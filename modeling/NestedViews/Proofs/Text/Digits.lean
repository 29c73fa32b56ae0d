import Mathlib
import NestedViews.Text.Blank
import NestedViews.Text.Digits

namespace NestedViews.Text

variable {n width : ℕ} {c : Char} {cs ds rest : List Char}

theorem isBlank_eq_false_of_isDigit (h : c.isDigit) : isBlank c = false := by
  have hrange : 48 ≤ c.toNat ∧ c.toNat ≤ 57 := by
    simpa [Char.isDigit, UInt32.le_iff_toNat_le] using h
  simp [isBlank, blankRanges]
  omega

theorem skipBlanks_cons (h : isBlank c = false) : skipBlanks (c :: cs) = c :: cs :=
  List.dropWhile_cons_of_neg (by simp [h])

theorem trim_eq_self (h : ∀ c ∈ cs, isBlank c = false) : trim cs = cs := by
  have hskip : ∀ ds : List Char, (∀ c ∈ ds, isBlank c = false) → skipBlanks ds = ds := by
    intro ds hds
    cases ds with
    | nil => rfl
    | cons c ds => exact skipBlanks_cons (hds c List.mem_cons_self)
  rw [trim, hskip cs h, hskip cs.reverse fun c hc => h c (List.mem_reverse.mp hc),
    List.reverse_reverse]

theorem isDigit_of_mem_paddedDigits (h : c ∈ paddedDigits width n) : c.isDigit := by
  rcases List.mem_append.mp h with h | h
  · rw [List.eq_of_mem_replicate h]
    rfl
  · exact isDigit_of_mem_digits h

theorem isBlank_of_mem_paddedDigits (h : c ∈ paddedDigits width n) : isBlank c = false :=
  isBlank_eq_false_of_isDigit (isDigit_of_mem_paddedDigits h)

theorem isBlank_of_mem_signedDigits {n : ℤ} (h : c ∈ signedDigits n) : isBlank c = false := by
  unfold signedDigits at h
  split at h
  · rcases List.mem_cons.mp h with rfl | h
    · rfl
    · exact isBlank_eq_false_of_isDigit (isDigit_of_mem_digits h)
  · exact isBlank_eq_false_of_isDigit (isDigit_of_mem_digits h)

theorem paddedDigits_ne_nil (width n : ℕ) : paddedDigits width n ≠ [] :=
  List.append_ne_nil_of_right_ne_nil _ (digits_ne_nil n)

theorem exists_paddedDigits_eq_cons (width n : ℕ) :
    ∃ c cs, paddedDigits width n = c :: cs ∧ c.isDigit := by
  cases h : paddedDigits width n with
  | nil => exact absurd h (paddedDigits_ne_nil width n)
  | cons c cs => exact ⟨c, cs, rfl, isDigit_of_mem_paddedDigits (h ▸ List.mem_cons_self)⟩

theorem skipBlanks_paddedDigits :
    skipBlanks (paddedDigits width n ++ rest) = paddedDigits width n ++ rest := by
  obtain ⟨c, cs, heq, hc⟩ := exists_paddedDigits_eq_cons width n
  rw [heq]
  exact skipBlanks_cons (isBlank_eq_false_of_isDigit hc)

theorem number_paddedDigits (width n : ℕ) : number (paddedDigits width n) = n := by
  have hzeros : ∀ count, Nat.ofDigitChars 10 (List.replicate count '0') 0 = 0 := by
    intro count
    induction count with
    | zero => rfl
    | succ count ih =>
      rw [List.replicate_succ, Nat.ofDigitChars_cons]
      exact ih
  rw [number, paddedDigits, Nat.ofDigitChars_append, hzeros]
  exact number_digits n

theorem length_paddedDigits (hwidth : 0 < width) (h : n < 10 ^ width) :
    (paddedDigits width n).length = width := by
  have hle : (digits n).length ≤ width := (Nat.length_toDigits_le_iff (by decide) hwidth).mpr h
  rw [paddedDigits, List.length_append, List.length_replicate]
  omega

theorem takeDigits?_paddedDigits (hwidth : 0 < width) (h : n < 10 ^ width) :
    takeDigits? width (paddedDigits width n ++ rest) = some (n, rest) := by
  have hlength := length_paddedDigits hwidth h
  have htake : (paddedDigits width n ++ rest).take width = paddedDigits width n :=
    List.take_left' hlength
  have hdrop : (paddedDigits width n ++ rest).drop width = rest := List.drop_left' hlength
  have hdigits : (paddedDigits width n).all Char.isDigit :=
    List.all_eq_true.mpr fun c hc => isDigit_of_mem_paddedDigits hc
  simp [takeDigits?, htake, hdrop, hlength, hdigits, number_paddedDigits]

theorem takeWhile_take_paddedDigits (hwidth : 0 < width) (h : n < 10 ^ width) :
    ((paddedDigits width n ++ rest).take width).takeWhile Char.isDigit = paddedDigits width n := by
  rw [List.take_left' (length_paddedDigits hwidth h)]
  exact List.takeWhile_eq_self_iff.mpr fun c hc => isDigit_of_mem_paddedDigits hc

theorem spanDigits_append (hds : ∀ c ∈ ds, c.isDigit)
    (hrest : ∀ c ∈ rest.head?, c.isDigit = false) :
    spanDigits (ds ++ rest) = (ds, rest) := by
  have htake : rest.takeWhile Char.isDigit = [] := by
    cases rest with
    | nil => rfl
    | cons c rest => exact List.takeWhile_cons_of_neg (by simp [hrest c rfl])
  have hdrop : rest.dropWhile Char.isDigit = rest := by
    cases rest with
    | nil => rfl
    | cons c rest => exact List.dropWhile_cons_of_neg (by simp [hrest c rfl])
  rw [spanDigits, List.takeWhile_append_of_pos hds, List.dropWhile_append_of_pos hds, htake, hdrop,
    List.append_nil]

end NestedViews.Text
