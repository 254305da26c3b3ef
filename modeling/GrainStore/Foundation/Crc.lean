import Mathlib

/-!
# Cyclic redundancy checks

A register of `w` bits that is shifted bit by bit; when a one falls out, a polynomial is added.  A
step is linear (`bit_xor`), and invertible if the polynomial has its top bit (`bit_injective`).  A
byte string no longer than the register is shifted in as if it had been added at once
(`run_eq_iterate`).  So registers stay different under the same bytes (`run_injective`), and two
strings that differ only inside a window no longer than the register leave different ones
(`eq_of_run_eq`).
-/

namespace Crc

variable {w : ℕ} {poly : BitVec w}

/-- Shift the register by one bit. -/
def bit (poly crc : BitVec w) : BitVec w := (crc >>> 1) ^^^ (if crc.getLsbD 0 then poly else 0#w)

/-- Shift a byte in. -/
def byte (poly crc : BitVec w) (b : BitVec 8) : BitVec w := (bit poly)^[8] (crc ^^^ b.setWidth w)

/-- Shift a byte string in. -/
def run (poly crc : BitVec w) (data : List (BitVec 8)) : BitVec w := data.foldl (byte poly) crc

lemma run_append (crc : BitVec w) (data data' : List (BitVec 8)) :
    run poly crc (data ++ data') = run poly (run poly crc data) data' := List.foldl_append

/-! ## One step -/

lemma bit_xor (poly x y : BitVec w) : bit poly (x ^^^ y) = bit poly x ^^^ bit poly y := by
  have hswap : ∀ p q : BitVec w,
      (x >>> 1 ^^^ y >>> 1) ^^^ (p ^^^ q) = (x >>> 1 ^^^ p) ^^^ (y >>> 1 ^^^ q) := by
    intro p q
    rw [BitVec.xor_assoc, BitVec.xor_assoc, ← BitVec.xor_assoc (y >>> 1), BitVec.xor_comm (y >>> 1),
      BitVec.xor_assoc p]
  unfold bit
  rw [BitVec.ushiftRight_xor_distrib, BitVec.getLsbD_xor, ← hswap]
  cases x.getLsbD 0 with
  | true =>
    cases y.getLsbD 0 with
    | true => simp
    | false => simp
  | false =>
    cases y.getLsbD 0 with
    | true => simp
    | false => simp

lemma iterate_bit_xor (poly x y : BitVec w) (n : ℕ) :
    (bit poly)^[n] (x ^^^ y) = (bit poly)^[n] x ^^^ (bit poly)^[n] y := by
  induction n generalizing x y with
  | zero => rfl
  | succ n ih => rw [Function.iterate_succ_apply, Function.iterate_succ_apply,
      Function.iterate_succ_apply, bit_xor, ih]

/-- The top bit of the register after a step is the bit that fell out. -/
lemma bit_injective (hpoly : poly.getLsbD (w - 1) = true) : Function.Injective (bit poly) := by
  have hzero : ∀ d : BitVec w, bit poly d = 0#w → d = 0#w := by
    intro d hd
    have hlow : d.getLsbD 0 = false := by
      have htop := congrArg (fun x => x.getLsbD (w - 1)) hd
      simp only [bit, BitVec.getLsbD_xor, BitVec.getLsbD_ushiftRight, BitVec.getLsbD_zero] at htop
      have hout : d.getLsbD (1 + (w - 1)) = false := BitVec.getLsbD_of_ge d _ (by omega)
      rw [hout, Bool.false_xor] at htop
      cases hbit : d.getLsbD 0 with
      | false => rfl
      | true => simp [hbit, hpoly] at htop
    have hshift : d >>> 1 = 0#w := by
      unfold bit at hd
      rw [hlow] at hd
      simpa using hd
    refine BitVec.eq_of_getLsbD_eq ?_
    intro i _
    rw [BitVec.getLsbD_zero]
    cases i with
    | zero => exact hlow
    | succ i =>
      have hi := congrArg (fun x => x.getLsbD i) hshift
      simpa [Nat.add_comm] using hi
  intro x y hxy
  have hdiff := hzero (x ^^^ y) (by rw [bit_xor, hxy, BitVec.xor_self])
  exact BitVec.xor_eq_zero_iff.mp hdiff

/-- Bits that have room to be shifted in and out again. -/
lemma iterate_bit_shiftLeft (poly x : BitVec w) (n : ℕ)
    (hx : ∀ i, w ≤ i + n → x.getLsbD i = false) : (bit poly)^[n] (x <<< n) = x := by
  induction n with
  | zero => rw [Function.iterate_zero_apply, BitVec.shiftLeft_zero]
  | succ n ih =>
    have hstep : bit poly (x <<< (n + 1)) = x <<< n := by
      have hlow : (x <<< (n + 1)).getLsbD 0 = false := by simp
      unfold bit
      rw [hlow]
      refine BitVec.eq_of_getLsbD_eq ?_
      intro i hi
      simp only [Bool.false_eq_true, if_false, BitVec.xor_zero, BitVec.getLsbD_ushiftRight,
        BitVec.getLsbD_shiftLeft]
      by_cases hin : 1 + i < w
      · have hindex : 1 + i - (n + 1) = i - n := by omega
        have hless : (1 + i < n + 1) = (i < n) := by simp [Nat.add_comm 1 i]
        simp only [hin, hi, hindex, hless]
      · by_cases hn : i < n
        · simp [hin, hn]
        · simp [hin, hx (i - n) (by omega)]
    rw [Function.iterate_succ_apply, hstep, ih fun i hi => hx i (by omega)]

/-! ## Byte strings -/

/-- A byte string as one word, its first byte lowest. -/
def word (w : ℕ) : List (BitVec 8) → BitVec w
  | [] => 0#w
  | b :: bs => b.setWidth w ^^^ (word w bs <<< 8)

lemma getLsbD_word_of_le {bs : List (BitVec 8)} {i : ℕ} (h : 8 * bs.length ≤ i) :
    (word w bs).getLsbD i = false := by
  induction bs generalizing i with
  | nil => exact BitVec.getLsbD_zero
  | cons b bs ih =>
    rw [List.length_cons] at h
    have hb : b.getLsbD i = false := BitVec.getLsbD_of_ge b i (by omega)
    rw [word, BitVec.getLsbD_xor, BitVec.getLsbD_setWidth, hb, BitVec.getLsbD_shiftLeft,
      ih (by omega)]
    simp

lemma word_injective {bs bs' : List (BitVec 8)} (hlen : bs.length = bs'.length)
    (hfit : 8 * bs.length ≤ w) (h : word w bs = word w bs') : bs = bs' := by
  induction bs generalizing bs' with
  | nil => exact (List.length_eq_zero_iff.mp hlen.symm).symm
  | cons b bs ih =>
    cases bs' with
    | nil => simp at hlen
    | cons b' bs' =>
      rw [List.length_cons] at hfit
      have hbits : ∀ i, (word w (b :: bs)).getLsbD i = (word w (b' :: bs')).getLsbD i :=
        fun i => by rw [h]
      simp only [word, BitVec.getLsbD_xor, BitVec.getLsbD_setWidth,
        BitVec.getLsbD_shiftLeft] at hbits
      have hlen' : bs.length = bs'.length := Nat.succ.inj hlen
      have hbyte : b = b' := BitVec.eq_of_getLsbD_eq fun i hi => by
        have hw : i < w := by omega
        simpa [hi, hw] using hbits i
      have hword : word w bs = word w bs' := BitVec.eq_of_getLsbD_eq fun i _ => by
        by_cases hin : i + 8 < w
        · have hout : ∀ c : BitVec 8, c.getLsbD (i + 8) = false := fun c =>
            BitVec.getLsbD_of_ge c _ (by omega)
          simpa [hin, hout] using hbits (i + 8)
        · rw [getLsbD_word_of_le (by omega), getLsbD_word_of_le (by omega)]
      rw [hbyte, ih hlen' (by omega) hword]

/-- A byte string that fits the register is shifted in as if it had been added at once. -/
theorem run_eq_iterate (poly crc : BitVec w) {bs : List (BitVec 8)} (hfit : 8 * bs.length ≤ w) :
    run poly crc bs = (bit poly)^[8 * bs.length] (crc ^^^ word w bs) := by
  induction bs generalizing crc with
  | nil => exact (BitVec.xor_zero).symm
  | cons b bs ih =>
    rw [List.length_cons] at hfit
    have hback : (bit poly)^[8] (word w bs <<< 8) = word w bs :=
      iterate_bit_shiftLeft poly _ 8 fun i hi => getLsbD_word_of_le (by omega)
    calc run poly crc (b :: bs) = run poly (byte poly crc b) bs := rfl
      _ = (bit poly)^[8 * bs.length] (byte poly crc b ^^^ word w bs) := ih _ (by omega)
      _ = (bit poly)^[8 * bs.length] ((bit poly)^[8] (crc ^^^ word w (b :: bs))) := by
          rw [word, ← BitVec.xor_assoc, iterate_bit_xor poly _ (word w bs <<< 8) 8, hback]
          rfl
      _ = (bit poly)^[8 * (b :: bs).length] (crc ^^^ word w (b :: bs)) := by
          rw [← Function.iterate_add_apply, List.length_cons, Nat.mul_succ]

/-- Different registers stay different under the same bytes. -/
theorem run_injective (hpoly : poly.getLsbD (w - 1) = true) (data : List (BitVec 8)) :
    Function.Injective fun crc => run poly crc data := by
  induction data with
  | nil => exact fun _ _ => id
  | cons b data ih =>
    intro x y hxy
    have hbyte : byte poly x b = byte poly y b := ih hxy
    exact (BitVec.xor_left_inj _).mp ((bit_injective hpoly).iterate 8 hbyte)

/-- Two strings that leave the same register and differ only inside a window that fits the register
do not differ. -/
theorem eq_of_run_eq (hpoly : poly.getLsbD (w - 1) = true) {crc : BitVec w}
    {before inside inside' after : List (BitVec 8)} (hlen : inside.length = inside'.length)
    (hfit : 8 * inside.length ≤ w)
    (h : run poly crc (before ++ inside ++ after) = run poly crc (before ++ inside' ++ after)) :
    inside = inside' := by
  rw [run_append, run_append, run_append, run_append] at h
  have hwindow : run poly (run poly crc before) inside = run poly (run poly crc before) inside' :=
    run_injective hpoly after h
  have hfit' : 8 * inside'.length ≤ w := hlen ▸ hfit
  rw [run_eq_iterate poly (run poly crc before) hfit,
    run_eq_iterate poly (run poly crc before) hfit', ← hlen] at hwindow
  exact word_injective hlen hfit
    ((BitVec.xor_right_inj _).mp ((bit_injective hpoly).iterate _ hwindow))

end Crc
