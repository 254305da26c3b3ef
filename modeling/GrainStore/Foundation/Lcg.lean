import Mathlib

/-!
# Linear congruential generators modulo a power of two

`Lcg.step a c` is the step `x ↦ a * x + c` on words of `w` bits.  With a multiplier that is 1 modulo
4 and an odd increment the generator goes through all words before it comes back
(`minimalPeriod_step`), so in one period every value of its upper bits comes equally often
(`count_high`).
-/

namespace Lcg

variable {w : ℕ}

/-- One step of the generator. -/
def step (a c x : BitVec w) : BitVec w := a * x + c

/-- The sum of the first powers of the multiplier. -/
def powerSum (a : ℤ) (n : ℕ) : ℤ := ∑ i ∈ Finset.range n, a ^ i

lemma powerSum_succ (a : ℤ) (n : ℕ) : powerSum a (n + 1) = a * powerSum a n + 1 := by
  rw [powerSum, powerSum, Finset.sum_range_succ', Finset.mul_sum, pow_zero]
  congr 1
  exact Finset.sum_congr rfl fun i _ => pow_succ' a i

/-- The state after `n` steps, up to multiples of the modulus. -/
lemma iterate_step_modEq (a c x : BitVec w) (n : ℕ) :
    (((step a c)^[n] x).toNat : ℤ) ≡
      (a.toNat : ℤ) ^ n * x.toNat + c.toNat * powerSum a.toNat n [ZMOD 2 ^ w] := by
  induction n with
  | zero => simp [powerSum, Int.ModEq.refl]
  | succ n ih =>
    rw [Function.iterate_succ_apply', powerSum_succ]
    have hstep : ((step a c ((step a c)^[n] x)).toNat : ℤ) ≡
        a.toNat * ((step a c)^[n] x).toNat + c.toNat [ZMOD 2 ^ w] := by
      rw [step, BitVec.toNat_add, BitVec.toNat_mul]
      push_cast
      exact (Int.mod_modEq _ _).trans (Int.ModEq.add_right _ (Int.mod_modEq _ _))
    have hnext : (a.toNat : ℤ) * (a.toNat ^ n * x.toNat + c.toNat * powerSum a.toNat n) + c.toNat =
        a.toNat ^ (n + 1) * x.toNat + c.toNat * (a.toNat * powerSum a.toNat n + 1) := by ring
    rw [← hnext]
    exact hstep.trans ((ih.mul_left _).add_right _)

/-- A power sum of a number that is 1 modulo 4 has as many factors 2 as it has terms. -/
lemma two_pow_dvd_powerSum_iff {a : ℤ} (ha : a % 4 = 1) (n : ℕ) :
    (2 : ℤ) ^ w ∣ powerSum a n ↔ 2 ^ w ∣ n := by
  have hcast : (2 : ℤ) ^ w ∣ (n : ℤ) ↔ 2 ^ w ∣ n := by
    rw [← Int.natCast_dvd_natCast]
    push_cast
    exact Iff.rfl
  rw [← hcast]
  by_cases hone : a = 1
  · simp [powerSum, hone]
  · have hgeom : (a - 1) * powerSum a n = a ^ n - 1 ^ n := by
      rw [one_pow]
      exact mul_geom_sum a n
    have hlift : emultiplicity 2 (a ^ n - 1 ^ n) =
        emultiplicity 2 (a - 1) + emultiplicity 2 (n : ℤ) :=
      Int.two_pow_sub_pow' n (by omega) (by omega)
    rw [← hgeom, emultiplicity_mul Int.prime_two] at hlift
    have hfinite : FiniteMultiplicity 2 (a - 1) :=
      Int.finiteMultiplicity_iff.mpr ⟨by decide, sub_ne_zero.mpr hone⟩
    have hsame : emultiplicity 2 (powerSum a n) = emultiplicity 2 (n : ℤ) := by
      rw [hfinite.emultiplicity_eq_multiplicity] at hlift
      exact ENat.add_right_injective_of_ne_top (ENat.natCast_ne_top _) hlift
    rw [pow_dvd_iff_le_emultiplicity, pow_dvd_iff_le_emultiplicity, hsame]

section Period

variable {a c : BitVec w}

/-- A state comes back after `n` steps exactly when `n` is a multiple of the modulus. -/
theorem iterate_step_eq_iff (ha : a.toNat % 4 = 1) (hc : c.toNat % 2 = 1) (x : BitVec w) (n : ℕ) :
    (step a c)^[n] x = x ↔ 2 ^ w ∣ n := by
  have hmod := iterate_step_modEq a c x n
  have heq : (step a c)^[n] x = x ↔ (((step a c)^[n] x).toNat : ℤ) ≡ x.toNat [ZMOD 2 ^ w] := by
    refine ⟨fun h => by rw [h], fun h => BitVec.eq_of_toNat_eq ?_⟩
    have hnat : ((step a c)^[n] x).toNat ≡ x.toNat [MOD 2 ^ w] := by
      rw [← Int.natCast_modEq_iff]
      push_cast
      exact h
    rwa [Nat.ModEq, Nat.mod_eq_of_lt ((step a c)^[n] x).isLt, Nat.mod_eq_of_lt x.isLt] at hnat
  have hfactor : (a.toNat : ℤ) ^ n * x.toNat + c.toNat * powerSum a.toNat n - x.toNat =
      powerSum a.toNat n * ((a.toNat - 1) * x.toNat + c.toNat) := by
    have hgeom : ((a.toNat : ℤ) - 1) * powerSum a.toNat n = (a.toNat : ℤ) ^ n - 1 :=
      mul_geom_sum _ n
    linear_combination (-(x.toNat : ℤ)) * hgeom
  have hodd : IsCoprime ((2 : ℤ) ^ w) ((a.toNat - 1) * x.toNat + c.toNat) := by
    refine IsCoprime.pow_left ((Int.prime_two.irreducible.coprime_iff_not_dvd).mpr fun hdvd => ?_)
    have heven : (2 : ℤ) ∣ ((a.toNat : ℤ) - 1) * x.toNat := Dvd.dvd.mul_right (by omega) _
    have := (Int.dvd_add_right heven).mp hdvd
    omega
  rw [heq, ← two_pow_dvd_powerSum_iff (a := (a.toNat : ℤ)) (by omega)]
  constructor
  · intro h
    have hdvd := (h.symm.trans hmod).dvd
    rw [hfactor] at hdvd
    exact hodd.dvd_of_dvd_mul_right hdvd
  · intro h
    refine hmod.trans (Int.ModEq.symm (Int.modEq_iff_dvd.mpr ?_))
    rw [hfactor]
    exact h.mul_right _

/-- No two states have the same next one. -/
theorem step_injective (ha : a.toNat % 4 = 1) (hc : c.toNat % 2 = 1) :
    Function.Injective (step a c) := by
  intro x y h
  have hback : ∀ z, (step a c)^[2 ^ w] z = z := fun z =>
    (iterate_step_eq_iff ha hc z _).mpr dvd_rfl
  obtain ⟨m, hm⟩ := Nat.exists_eq_add_one.mpr (Nat.two_pow_pos w)
  rw [hm] at hback
  calc x = (step a c)^[m] (step a c x) := (hback x).symm
    _ = (step a c)^[m] (step a c y) := by rw [h]
    _ = y := hback y

/-- The generator has full period. -/
theorem minimalPeriod_step (ha : a.toNat % 4 = 1) (hc : c.toNat % 2 = 1) (x : BitVec w) :
    Function.minimalPeriod (step a c) x = 2 ^ w := by
  refine Nat.dvd_antisymm ?_ ?_
  · exact Function.IsPeriodicPt.minimalPeriod_dvd
      ((iterate_step_eq_iff ha hc x _).mpr dvd_rfl)
  · exact (iterate_step_eq_iff ha hc x _).mp (Function.isPeriodicPt_minimalPeriod _ x)

/-- Two states of one period are different. -/
theorem iterate_step_injOn (ha : a.toNat % 4 = 1) (hc : c.toNat % 2 = 1) (x : BitVec w) :
    Set.InjOn (fun n => (step a c)^[n] x) (Set.Iio (2 ^ w)) := by
  have h := Function.iterate_injOn_Iio_minimalPeriod (f := step a c) (x := x)
  rwa [minimalPeriod_step ha hc] at h

/-- One period goes through all words. -/
theorem exists_iterate_step (ha : a.toNat % 4 = 1) (hc : c.toNat % 2 = 1) (x y : BitVec w) :
    ∃ n < 2 ^ w, (step a c)^[n] x = y := by
  have hinj : Function.Injective fun n : Fin (2 ^ w) => BitVec.equivFin ((step a c)^[n] x) :=
    fun n n' h => Fin.ext (iterate_step_injOn ha hc x n.isLt n'.isLt (BitVec.equivFin.injective h))
  obtain ⟨n, hn⟩ := Finite.injective_iff_surjective.mp hinj (BitVec.equivFin y)
  exact ⟨n, n.isLt, BitVec.equivFin.injective hn⟩

/-- In one period every value of the upper bits comes equally often. -/
theorem count_high (ha : a.toNat % 4 = 1) (hc : c.toNat % 2 = 1) (x : BitVec w) {h s u : ℕ}
    (hw : w = h + s) (hu : u < 2 ^ h) :
    ((Finset.range (2 ^ w)).filter fun n => ((step a c)^[n] x >>> s).toNat = u).card = 2 ^ s := by
  have hsplit : 2 ^ w = 2 ^ h * 2 ^ s := by rw [← pow_add, ← hw]
  have hvalue : ∀ y : BitVec w, (y >>> s).toNat = u ↔
      y.toNat ∈ Finset.Ico (u * 2 ^ s) ((u + 1) * 2 ^ s) := by
    intro y
    rw [BitVec.toNat_ushiftRight, Nat.shiftRight_eq_div_pow, Finset.mem_Ico,
      Nat.div_eq_iff (Nat.two_pow_pos _), Nat.succ_mul]
    have hpos := Nat.two_pow_pos s
    omega
  calc ((Finset.range (2 ^ w)).filter fun n => ((step a c)^[n] x >>> s).toNat = u).card
      = (Finset.Ico (u * 2 ^ s) ((u + 1) * 2 ^ s)).card := by
        refine Finset.card_nbij (fun n => ((step a c)^[n] x).toNat) ?_ ?_ ?_
        · intro n hn
          exact (hvalue _).mp (Finset.mem_filter.mp hn).2
        · intro n hn n' hn' heq
          refine iterate_step_injOn ha hc x ?_ ?_ (BitVec.eq_of_toNat_eq heq)
          · exact Finset.mem_range.mp (Finset.mem_filter.mp hn).1
          · exact Finset.mem_range.mp (Finset.mem_filter.mp hn').1
        · intro y hy
          have hlt : y < 2 ^ w := by
            rw [hsplit]
            exact (Finset.mem_Ico.mp hy).2.trans_le (Nat.mul_le_mul_right _ hu)
          obtain ⟨n, hn, hny⟩ := exists_iterate_step ha hc x (BitVec.ofNat w y)
          have hnat : ((step a c)^[n] x).toNat = y := by
            rw [hny, BitVec.toNat_ofNat, Nat.mod_eq_of_lt hlt]
          refine ⟨n, Finset.mem_coe.mpr (Finset.mem_filter.mpr ⟨Finset.mem_range.mpr hn, ?_⟩), hnat⟩
          rw [hvalue, hnat]
          exact hy
    _ = 2 ^ s := by rw [Nat.card_Ico, Nat.succ_mul, Nat.add_sub_cancel_left]

end Period

end Lcg
