import Mathlib

/-!
# Rounding to binary digits

`roundTo nearest p q` rounds a positive number to `p` binary digits: `q` is scaled so that its unit in
the last place is 1, and `nearest` picks an integer.  What is rounded to on a tie is left open; all
that is used is that `nearest` is monotone and errs by a half at most (`Nearest`).

`roundTo_mono` says that rounding keeps the order, also across powers of two, and
`abs_roundTo_sub_le` bounds its relative error.
-/

namespace Rounding

variable {R : Type*} [Field R] [LinearOrder R] [IsStrictOrderedRing R] [FloorRing R]

/-- Rounding to an integer next to a number. -/
structure Nearest (nearest : R → ℤ) : Prop where
  mono : Monotone nearest
  dist : ∀ q, |(nearest q : R) - q| ≤ 1 / 2

/-- The unit in the last of `p` binary digits. -/
def ulp (p : ℕ) (q : R) : R := ((2 : ℕ) : R) ^ (Int.log 2 q - (p - 1))

/-- A number rounded to `p` binary digits. -/
def roundTo (nearest : R → ℤ) (p : ℕ) (q : R) : R :=
  if q = 0 then 0 else nearest (q / ulp p q) * ulp p q

variable {nearest : R → ℤ} {p : ℕ} {q q' : R}

omit [IsStrictOrderedRing R] in
lemma ulp_eq (p : ℕ) (q : R) : ulp p q = 2 ^ (Int.log 2 q - (p - 1)) := by
  rw [ulp, Nat.cast_ofNat]

lemma ulp_pos (p : ℕ) (q : R) : 0 < ulp p q := by
  rw [ulp_eq]
  exact zpow_pos two_pos _

/-- An integer is next to itself only. -/
lemma Nearest.intCast (h : Nearest nearest) (n : ℤ) : nearest (n : R) = n := by
  have hdist := h.dist n
  have hlt : |((nearest (n : R) - n : ℤ) : R)| < ((1 : ℤ) : R) := by
    push_cast
    exact hdist.trans_lt (by norm_num)
  rw [← Int.cast_abs, Int.cast_lt, Int.abs_lt_one_iff, sub_eq_zero] at hlt
  exact hlt

/-- Rounding does not pass an integer. -/
lemma Nearest.le_of_le (h : Nearest nearest) {n : ℤ} (hle : (n : R) ≤ q) : n ≤ nearest q :=
  (h.intCast n).ge.trans (h.mono hle)

lemma Nearest.ge_of_ge (h : Nearest nearest) {n : ℤ} (hle : q ≤ (n : R)) : nearest q ≤ n :=
  (h.mono hle).trans (h.intCast n).le

omit [IsStrictOrderedRing R] in
/-- A power of two is a power of two of units in the last place. -/
lemma zpow_eq_mul_ulp (p : ℕ) (hp : 0 < p) (q : R) (e : ℕ) :
    (2 : R) ^ (Int.log 2 q + e) = ((2 ^ (p - 1 + e) : ℕ) : ℤ) * ulp p q := by
  have hexp : Int.log 2 q + e = ((p - 1 + e : ℕ) : ℤ) + (Int.log 2 q - (p - 1)) := by
    push_cast [Nat.cast_sub hp]
    ring
  rw [ulp_eq, hexp, zpow_add₀ two_ne_zero, zpow_natCast]
  push_cast
  rfl

/-- A rounded number stays between the powers of two around it. -/
lemma zpow_le_roundTo (h : Nearest nearest) (hp : 0 < p) (hq : 0 < q) :
    (2 : R) ^ Int.log 2 q ≤ roundTo nearest p q := by
  have hle : (2 : R) ^ Int.log 2 q ≤ q := by
    exact_mod_cast Int.zpow_log_le_self (b := 2) one_lt_two hq
  have hpow := zpow_eq_mul_ulp p hp q 0
  rw [Nat.cast_zero, add_zero, add_zero] at hpow
  rw [roundTo, if_neg hq.ne', hpow]
  refine mul_le_mul_of_nonneg_right ?_ (ulp_pos p q).le
  refine Int.cast_le.mpr (h.le_of_le ?_)
  rwa [le_div_iff₀ (ulp_pos p q), ← hpow]

lemma roundTo_le_zpow (h : Nearest nearest) (hp : 0 < p) (hq : 0 < q) :
    roundTo nearest p q ≤ (2 : R) ^ (Int.log 2 q + 1) := by
  have hlt : q < (2 : R) ^ (Int.log 2 q + 1) := by
    exact_mod_cast Int.lt_zpow_succ_log_self (b := 2) one_lt_two q
  have hpow := zpow_eq_mul_ulp p hp q 1
  rw [Nat.cast_one] at hpow
  rw [roundTo, if_neg hq.ne', hpow]
  refine mul_le_mul_of_nonneg_right ?_ (ulp_pos p q).le
  refine Int.cast_le.mpr (h.ge_of_ge ?_)
  rw [div_le_iff₀ (ulp_pos p q), ← hpow]
  exact hlt.le

lemma roundTo_pos (h : Nearest nearest) (hp : 0 < p) (hq : 0 < q) : 0 < roundTo nearest p q :=
  (zpow_pos two_pos _).trans_le (zpow_le_roundTo h hp hq)

omit [IsStrictOrderedRing R] in
@[simp] lemma roundTo_zero (nearest : R → ℤ) (p : ℕ) : roundTo nearest p 0 = 0 := if_pos rfl

/-- Rounding keeps the order. -/
theorem roundTo_mono (h : Nearest nearest) (hp : 0 < p) (hq : 0 ≤ q) (hle : q ≤ q') :
    roundTo nearest p q ≤ roundTo nearest p q' := by
  rcases hq.eq_or_lt with rfl | hq
  · rw [roundTo_zero]
    rcases hle.eq_or_lt with rfl | hq'
    · rw [roundTo_zero]
    · exact (roundTo_pos h hp hq').le
  have hq' : 0 < q' := hq.trans_le hle
  have hlog : Int.log 2 q ≤ Int.log 2 q' := Int.log_mono_right hq hle
  rcases hlog.eq_or_lt with hlog | hlog
  · -- the same unit in the last place
    have hulp : ulp p q' = ulp p q := by rw [ulp, ulp, hlog]
    rw [roundTo, roundTo, if_neg hq.ne', if_neg hq'.ne', hulp]
    refine mul_le_mul_of_nonneg_right (Int.cast_le.mpr (h.mono ?_)) (ulp_pos p q).le
    exact div_le_div_of_nonneg_right hle (ulp_pos p q).le
  · -- a power of two lies between them
    calc roundTo nearest p q ≤ (2 : R) ^ (Int.log 2 q + 1) := roundTo_le_zpow h hp hq
      _ ≤ (2 : R) ^ Int.log 2 q' := zpow_le_zpow_right₀ one_le_two hlog
      _ ≤ roundTo nearest p q' := zpow_le_roundTo h hp hq'

/-- The relative error of a rounded number. -/
theorem abs_roundTo_sub_le (h : Nearest nearest) (hq : 0 ≤ q) :
    |roundTo nearest p q - q| ≤ q / 2 ^ p := by
  rcases hq.eq_or_lt with rfl | hq
  · rw [roundTo_zero, sub_zero, abs_zero, zero_div]
  have hulp := ulp_pos p q
  have hle : (2 : R) ^ Int.log 2 q ≤ q := by
    exact_mod_cast Int.zpow_log_le_self (b := 2) one_lt_two hq
  have hhalf : ulp p q / 2 = (2 : R) ^ Int.log 2 q / 2 ^ p := by
    have hexp : Int.log 2 q - (p - 1) = Int.log 2 q - p + 1 := by ring
    rw [ulp_eq, hexp, zpow_add_one₀ two_ne_zero, mul_div_cancel_right₀ _ two_ne_zero,
      zpow_sub₀ two_ne_zero, zpow_natCast]
  have hsub : (nearest (q / ulp p q) : R) * ulp p q - q =
      ((nearest (q / ulp p q) : R) - q / ulp p q) * ulp p q := by
    rw [sub_mul, div_mul_cancel₀ _ hulp.ne']
  rw [roundTo, if_neg hq.ne', hsub, abs_mul, abs_of_pos hulp]
  calc |(nearest (q / ulp p q) : R) - q / ulp p q| * ulp p q
      ≤ 1 / 2 * ulp p q := mul_le_mul_of_nonneg_right (h.dist _) hulp.le
    _ = ulp p q / 2 := by ring
    _ = (2 : R) ^ Int.log 2 q / 2 ^ p := hhalf
    _ ≤ q / 2 ^ p := div_le_div_of_nonneg_right hle (by positivity)

end Rounding
