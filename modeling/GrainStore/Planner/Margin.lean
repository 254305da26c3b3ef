import Mathlib
import GrainStore.Foundation.Rounding
import GrainStore.Planner

/-!
# The margin of a plan

A post-filter leaves some of the candidates, so the planner asks for so many that the part of them
that is expected to be left clears a margin, and for no more.  `plan_clears` is this relation with
the rounding of the doubles accounted for, and `plan_mono` says that a plan for a higher recall or a
rarer filter never asks for less.
-/

namespace GrainStore

open Rounding

/-! ## The rounding of doubles -/

/-- The exponent is the one of the largest power of two that is not greater. -/
lemma binaryExponent_eq_log {q : ℚ} (hq : 0 < q) : binaryExponent q = Int.log 2 q := by
  have hnum : q.num.natAbs ≠ 0 := Int.natAbs_ne_zero.mpr (Rat.num_pos.mpr hq).ne'
  have habs : ((q.num.natAbs : ℤ) : ℚ) = q.num := by
    rw [Int.natCast_natAbs, abs_of_pos (Rat.num_pos.mpr hq)]
  have hdiv : q = (q.num.natAbs : ℚ) / q.den := by
    rw [← Int.cast_natCast, habs, Rat.num_div_den]
  have hden : (0 : ℚ) < q.den := Nat.cast_pos.mpr q.den_pos
  set a := Nat.log2 q.num.natAbs with ha
  set b := Nat.log2 q.den with hb
  have hnum₁ : (2 : ℚ) ^ a ≤ q.num.natAbs := by exact_mod_cast Nat.log2_self_le hnum
  have hnum₂ : (q.num.natAbs : ℚ) < 2 ^ (a + 1) := by exact_mod_cast Nat.lt_log2_self
  have hden₁ : (2 : ℚ) ^ b ≤ q.den := by exact_mod_cast Nat.log2_self_le q.den_pos.ne'
  have hden₂ : (q.den : ℚ) < 2 ^ (b + 1) := by exact_mod_cast Nat.lt_log2_self
  -- the quotient lies between the powers of two below and above `2 ^ (a - b)`
  have hlower : (2 : ℚ) ^ ((a : ℤ) - b - 1) ≤ q := by
    rw [hdiv, sub_sub, zpow_sub₀ two_ne_zero, zpow_natCast]
    refine div_le_div₀ (by positivity) hnum₁ hden ?_
    exact_mod_cast hden₂.le
  have hupper : q < (2 : ℚ) ^ ((a : ℤ) - b + 1) := by
    have hexp : (a : ℤ) - b + 1 = ((a + 1 : ℕ) : ℤ) - b := by push_cast; ring
    rw [hdiv, hexp, zpow_sub₀ two_ne_zero, zpow_natCast, zpow_natCast]
    exact div_lt_div₀ hnum₂ hden₁ (by positivity) (by positivity)
  have hle : ∀ e : ℤ, (2 : ℚ) ^ e ≤ q → e ≤ Int.log 2 q := fun e he =>
    (Int.zpow_le_iff_le_log one_lt_two hq).mp (by exact_mod_cast he)
  have hlt : ∀ e : ℤ, q < (2 : ℚ) ^ e → Int.log 2 q < e := fun e he =>
    (Int.lt_zpow_iff_log_lt one_lt_two hq).mp (by exact_mod_cast he)
  rw [binaryExponent]
  split
  · rename_i he
    have := hle _ he
    have := hlt _ hupper
    omega
  · rename_i he
    have := hlt _ (not_le.mp he)
    have := hle _ hlower
    omega

/-- Rounding to an even integer is rounding to one next to a number. -/
lemma nearest_roundEven : Nearest roundEven where
  mono := by
    intro q q' hle
    have hfloor : ⌊q⌋ ≤ ⌊q'⌋ := Int.floor_le_floor hle
    have hq : q.floor = ⌊q⌋ := rfl
    have hq' : q'.floor = ⌊q'⌋ := rfl
    rcases hfloor.eq_or_lt with heq | hlt
    · have heq' : ((⌊q⌋ : ℤ) : ℚ) = ⌊q'⌋ := congrArg _ heq
      unfold roundEven
      rw [hq, hq', heq']
      split_ifs <;> first | omega | linarith
    · unfold roundEven
      rw [hq, hq']
      split_ifs <;> omega
  dist := by
    intro q
    have hq : q.floor = ⌊q⌋ := rfl
    have h₁ := Int.floor_le q
    have h₂ := Int.lt_floor_add_one q
    rw [abs_le]
    unfold roundEven
    rw [hq]
    split_ifs <;> push_cast <;> constructor <;> linarith

/-- The doubles have 53 binary digits. -/
lemma roundF64_eq {q : ℚ} (hq : 0 ≤ q) : roundF64 q = roundTo roundEven 53 q := by
  rcases hq.eq_or_lt with rfl | hq
  · rfl
  · have hulp : (2 : ℚ) ^ (binaryExponent q - 52) = ulp 53 q := by
      rw [ulp_eq, binaryExponent_eq_log hq]
      norm_num
    rw [roundF64, roundTo, if_neg hq.ne', if_neg hq.ne']
    dsimp only
    rw [hulp]

lemma roundF64_mono {q q' : ℚ} (hq : 0 ≤ q) (hle : q ≤ q') : roundF64 q ≤ roundF64 q' := by
  rw [roundF64_eq hq, roundF64_eq (hq.trans hle)]
  exact roundTo_mono nearest_roundEven (by norm_num) hq hle

lemma roundF64_pos {q : ℚ} (hq : 0 < q) : 0 < roundF64 q := by
  rw [roundF64_eq hq.le]
  exact roundTo_pos nearest_roundEven (by norm_num) hq

lemma abs_roundF64_sub_le {q : ℚ} (hq : 0 ≤ q) : |roundF64 q - q| ≤ q / 2 ^ 53 := by
  rw [roundF64_eq hq]
  exact abs_roundTo_sub_le nearest_roundEven hq

/-! ## Recall targets -/

/-- `t <= u` for doubles. -/
def F64.le : F64 → F64 → Bool
  | .nan, _ => false
  | _, .nan => false
  | .negInf, _ => true
  | _, .posInf => true
  | .finite q, .finite r => q ≤ r
  | _, _ => false

/-- A greater double passes the thresholds that a smaller one passes. -/
lemma F64.ge_of_le {t u : F64} (h : t.le u = true) {c : ℚ} (hge : t.ge c = true) :
    u.ge c = true := by
  cases t with
  | nan => cases h
  | negInf => cases hge
  | finite q =>
    cases u with
    | nan => cases h
    | negInf => cases h
    | finite r => exact decide_eq_true ((of_decide_eq_true hge).trans (of_decide_eq_true h))
    | posInf => rfl
  | posInf =>
    cases u with
    | posInf => rfl
    | _ => cases h

namespace Planner

variable {t u : F64}

lemma marginFor_mono (h : t.le u = true) : marginFor t ≤ marginFor u := by
  have hge := fun c => F64.ge_of_le h (c := c)
  unfold marginFor
  split_ifs <;> first | exact absurd (hge _ ‹_›) ‹_› | norm_num

lemma efFor_mono (h : t.le u = true) : efFor t ≤ efFor u := by
  have hge := fun c => F64.ge_of_le h (c := c)
  unfold efFor
  split_ifs <;> first | exact absurd (hge _ ‹_›) ‹_› | norm_num

lemma marginFor_pos (t : F64) : 0 < marginFor t := by
  unfold marginFor
  split_ifs <;> norm_num

/-! ## Plans -/

/-- The selectivity that a plan reckons with. -/
lemma estSelectivity_pos (selectivity : ℚ) (k : ℕ) (t : F64) :
    0 < (plan selectivity k t).estSelectivity :=
  lt_min ((roundF64_pos (by norm_num)).trans_le (le_max_right _ _)) one_pos

/-- A plan for a higher recall or a rarer filter asks for no less. -/
lemma plan_mono {selectivity selectivity' : ℚ} (k : ℕ) (hsel : selectivity' ≤ selectivity)
    (h : t.le u = true) :
    (plan selectivity k t).overFetch ≤ (plan selectivity' k u).overFetch ∧
      (plan selectivity k t).ef ≤ (plan selectivity' k u).ef ∧
      (plan selectivity k t).estCandidates ≤ (plan selectivity' k u).estCandidates := by
  have hest : (plan selectivity' k u).estSelectivity ≤ (plan selectivity k t).estSelectivity :=
    min_le_min_right _ (max_le_max_right _ hsel)
  have hpos := estSelectivity_pos selectivity' k u
  have hquot : marginFor t / (plan selectivity k t).estSelectivity ≤
      marginFor u / (plan selectivity' k u).estSelectivity :=
    div_le_div₀ (marginFor_pos u).le (marginFor_mono h) hpos hest
  have hround := roundF64_mono (div_pos (marginFor_pos t) (estSelectivity_pos selectivity k t)).le
    hquot
  have hfetch : (plan selectivity k t).overFetch ≤ (plan selectivity' k u).overFetch :=
    min_le_min_right _ (max_le_max_right _ (Int.toNat_le_toNat (Int.ceil_le_ceil hround)))
  exact ⟨hfetch, efFor_mono h, min_le_min_right _ (Nat.mul_le_mul_left k hfetch)⟩

/-- A plan clears its margin and is the cheapest one that does, up to the rounding of one division:
whatever the estimate, the number of results and the target are, the multiplier times the
selectivity is no less than the margin, unless the multiplier is capped, and it would be less with
a smaller multiplier. -/
theorem plan_clears (selectivity : ℚ) (k : ℕ) (t : F64) :
    1 ≤ (plan selectivity k t).overFetch ∧ (plan selectivity k t).overFetch ≤ 4096 ∧
      ((plan selectivity k t).overFetch < 4096 → marginFor t * (1 - 1 / 2 ^ 53) ≤
        (plan selectivity k t).overFetch * (plan selectivity k t).estSelectivity) ∧
      (1 < (plan selectivity k t).overFetch →
        ((plan selectivity k t).overFetch - 1) * (plan selectivity k t).estSelectivity <
          marginFor t * (1 + 1 / 2 ^ 53)) := by
  set sel := (plan selectivity k t).estSelectivity with hsel
  have hpos : 0 < sel := estSelectivity_pos selectivity k t
  set quot := roundF64 (marginFor t / sel) with hquot
  have hfetch : (plan selectivity k t).overFetch = min (max ⌈quot⌉.toNat 1) 4096 := rfl
  have herror := abs_le.mp (abs_roundF64_sub_le (div_pos (marginFor_pos t) hpos).le)
  rw [← hquot] at herror
  have hlower : marginFor t * (1 - 1 / 2 ^ 53) ≤ quot * sel := by
    rw [← div_le_iff₀ hpos, mul_div_right_comm]
    linarith [herror.1]
  have hupper : quot * sel ≤ marginFor t * (1 + 1 / 2 ^ 53) := by
    rw [← le_div_iff₀ hpos, mul_div_right_comm]
    linarith [herror.2]
  rw [hfetch]
  refine ⟨by omega, by omega, ?_, ?_⟩
  · intro hlt
    have hle : ⌈quot⌉.toNat ≤ min (max ⌈quot⌉.toNat 1) 4096 := by omega
    have hceil : quot ≤ (⌈quot⌉.toNat : ℚ) :=
      (Int.le_ceil quot).trans (by exact_mod_cast Int.self_le_toNat ⌈quot⌉)
    refine hlower.trans (mul_le_mul_of_nonneg_right (hceil.trans ?_) hpos.le)
    exact_mod_cast hle
  · intro hlt
    have hle : (min (max ⌈quot⌉.toNat 1) 4096 : ℤ) ≤ ⌈quot⌉ := by omega
    have hceil : ((min (max ⌈quot⌉.toNat 1) 4096 : ℕ) : ℚ) - 1 < quot := by
      have hlt' := Int.ceil_lt_add_one quot
      have hcast : ((min (max ⌈quot⌉.toNat 1) 4096 : ℕ) : ℚ) ≤ (⌈quot⌉ : ℚ) := by
        exact_mod_cast hle
      linarith
    exact (mul_lt_mul_of_pos_right hceil hpos).trans_le hupper

end Planner

end GrainStore
