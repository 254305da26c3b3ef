import Mathlib

/-!
# Fixed-width integers as bytes

Unsigned integers of a fixed width, written as bytes in big-endian or little-endian
order, and what the encodings preserve.

A byte is a `BitVec 8` and a byte string a list of bytes.  `beBytes n x` and
`leBytes n x` write the `n` low-order base-256 digits of `x`; `ofBeBytes` and
`ofLeBytes` read a byte string back.  The big-endian encoding is an order embedding:
on numbers that fit, comparing the byte strings lexicographically is comparing the
numbers (`compare_beBytes`), and on strings that start with blocks of one length the
comparison goes block by block (`compare_append`).
-/

namespace FixedWidth

/-- A byte. -/
abbrev Byte := BitVec 8

/-! ## The order of bit vectors -/

/-- Bit vectors of one width are linearly ordered by their unsigned value. -/
instance instLinearOrderBitVec {w : ℕ} : LinearOrder (BitVec w) where
  le_refl a := Nat.le_refl a.toNat
  le_trans _ _ _ hab hbc := Nat.le_trans hab hbc
  le_antisymm _ _ hab hba := BitVec.eq_of_toNat_eq (Nat.le_antisymm hab hba)
  le_total a b := Nat.le_total a.toNat b.toNat
  lt_iff_le_not_ge a b := Nat.lt_iff_le_and_not_ge (m := a.toNat) (n := b.toNat)
  toDecidableLE := inferInstance
  toDecidableEq := inferInstance
  toDecidableLT := inferInstance
  compare_eq_compareOfLessAndEq _ _ := rfl

/-- Comparing bit vectors is comparing their unsigned values. -/
lemma compare_toNat {w : ℕ} (a b : BitVec w) : compare a.toNat b.toNat = compare a b := by
  rcases lt_trichotomy a b with h | rfl | h
  · rw [compare_lt_iff_lt.mpr h, compare_lt_iff_lt.mpr (BitVec.lt_def.mp h)]
  · rw [compare_eq_iff_eq.mpr rfl, compare_eq_iff_eq.mpr rfl]
  · rw [compare_gt_iff_gt.mpr h, compare_gt_iff_gt.mpr (BitVec.lt_def.mp h)]

/-- Complementing two bit vectors reverses their comparison. -/
lemma compare_not {w : ℕ} (a b : BitVec w) : compare (~~~a) (~~~b) = compare b a := by
  have ha : a.toNat < 2 ^ w := a.isLt
  have hb : b.toNat < 2 ^ w := b.isLt
  have key : ∀ {c d : BitVec w}, c < d → ~~~d < ~~~c := by
    intro c d h
    have hd : d.toNat < 2 ^ w := d.isLt
    rw [BitVec.lt_def, BitVec.toNat_not, BitVec.toNat_not]
    have := BitVec.lt_def.mp h
    omega
  rcases lt_trichotomy a b with h | rfl | h
  · rw [compare_gt_iff_gt.mpr (key h), compare_gt_iff_gt.mpr h]
  · rw [compare_eq_iff_eq.mpr rfl, compare_eq_iff_eq.mpr rfl]
  · rw [compare_lt_iff_lt.mpr (key h), compare_lt_iff_lt.mpr h]

/-- The successor of a bit vector that is not the largest one. -/
lemma toNat_add_one {w : ℕ} {x : BitVec w} (h : x.toNat + 1 < 2 ^ w) :
    (x + 1).toNat = x.toNat + 1 := by
  rcases Nat.eq_zero_or_pos w with rfl | hw
  · omega
  · have hone : (1 : BitVec w).toNat = 1 := BitVec.toNat_one hw
    rw [BitVec.toNat_add, hone, Nat.mod_eq_of_lt h]

/-! ## Big-endian byte strings -/

/-- The `n` low-order bytes of `x`, most significant first. -/
def beBytes : ℕ → ℕ → List Byte
  | 0, _ => []
  | n + 1, x => BitVec.ofNat 8 (x / 256 ^ n) :: beBytes n x

/-- The number a byte string denotes, most significant byte first. -/
def ofBeBytes (bs : List Byte) : ℕ :=
  bs.foldl (fun acc b => acc * 256 + b.toNat) 0

@[simp] lemma beBytes_zero (x : ℕ) : beBytes 0 x = [] := rfl

/-- The first byte of the encoding is the most significant one. -/
lemma beBytes_succ (n x : ℕ) :
    beBytes (n + 1) x = BitVec.ofNat 8 (x / 256 ^ n) :: beBytes n x := rfl

@[simp] lemma length_beBytes (n x : ℕ) : (beBytes n x).length = n := by
  induction n with
  | zero => rfl
  | succ n ih => rw [beBytes_succ, List.length_cons, ih]

/-- The low-order digits of a number, split into the leading digit and the rest. -/
lemma mod_pow_succ_eq (n x : ℕ) :
    x % 256 ^ (n + 1) = x / 256 ^ n % 256 * 256 ^ n + x % 256 ^ n := by
  rw [pow_succ, Nat.mod_mul]
  ring

/-- Reading with an accumulator shifts the accumulator past the bytes read. -/
lemma foldl_beBytes (n x acc : ℕ) :
    (beBytes n x).foldl (fun acc b => acc * 256 + b.toNat) acc =
      acc * 256 ^ n + x % 256 ^ n := by
  induction n generalizing acc with
  | zero => simp [Nat.mod_one]
  | succ n ih =>
    rw [beBytes_succ, List.foldl_cons, ih, mod_pow_succ_eq, BitVec.toNat_ofNat]
    ring

/-- Reading back the `n` bytes of `x` gives `x` modulo `256 ^ n`. -/
lemma ofBeBytes_beBytes (n x : ℕ) : ofBeBytes (beBytes n x) = x % 256 ^ n := by
  rw [ofBeBytes, foldl_beBytes, Nat.zero_mul, Nat.zero_add]

/-- The first byte counts most. -/
lemma ofBeBytes_cons (b : Byte) (bs : List Byte) :
    ofBeBytes (b :: bs) = b.toNat * 256 ^ bs.length + ofBeBytes bs := by
  have hfold : ∀ (bs : List Byte) (acc : ℕ), bs.foldl (fun acc b => acc * 256 + b.toNat) acc =
      acc * 256 ^ bs.length + ofBeBytes bs := by
    intro bs
    induction bs with
    | nil => simp [ofBeBytes]
    | cons b bs ih =>
      intro acc
      rw [ofBeBytes, List.foldl_cons, List.foldl_cons, ih, ih, List.length_cons]
      ring
  rw [ofBeBytes, List.foldl_cons, hfold, Nat.zero_mul, Nat.zero_add]

lemma ofBeBytes_lt (bs : List Byte) : ofBeBytes bs < 256 ^ bs.length := by
  induction bs with
  | nil => exact Nat.one_pos
  | cons b bs ih =>
    have hb : (b.toNat + 1) * 256 ^ bs.length ≤ 256 * 256 ^ bs.length :=
      Nat.mul_le_mul_right _ b.isLt
    rw [ofBeBytes_cons, List.length_cons, pow_succ']
    rw [Nat.add_mul] at hb
    omega

/-- Digits beyond the ones written do not show. -/
lemma beBytes_add_mul (n a x : ℕ) : beBytes n (a * 256 ^ n + x) = beBytes n x := by
  induction n generalizing a with
  | zero => rfl
  | succ n ih =>
    have hsplit : a * 256 ^ (n + 1) + x = a * 256 * 256 ^ n + x := by ring
    have hdiv : (a * 256 * 256 ^ n + x) / 256 ^ n = a * 256 + x / 256 ^ n := by
      rw [Nat.add_comm, Nat.add_mul_div_right _ _ (by positivity), Nat.add_comm]
    rw [beBytes_succ, beBytes_succ, hsplit, hdiv, ih]
    congr 1
    refine BitVec.eq_of_toNat_eq ?_
    rw [BitVec.toNat_ofNat, BitVec.toNat_ofNat]
    omega

/-- A byte string is the encoding of the number it denotes. -/
lemma beBytes_ofBeBytes (bs : List Byte) : beBytes bs.length (ofBeBytes bs) = bs := by
  induction bs with
  | nil => rfl
  | cons b bs ih =>
    have hdiv : (b.toNat * 256 ^ bs.length + ofBeBytes bs) / 256 ^ bs.length = b.toNat := by
      rw [Nat.add_comm, Nat.add_mul_div_right _ _ (by positivity),
        Nat.div_eq_of_lt (ofBeBytes_lt bs), Nat.zero_add]
    rw [List.length_cons, ofBeBytes_cons, beBytes_succ, hdiv, beBytes_add_mul, ih,
      BitVec.ofNat_toNat, BitVec.setWidth_eq]

/-- Comparing encodings of one width is comparing the numbers modulo that width. -/
lemma compare_beBytes_mod (n x y : ℕ) :
    compare (beBytes n x) (beBytes n y) = compare (x % 256 ^ n) (y % 256 ^ n) := by
  induction n with
  | zero => simp [Nat.mod_one]
  | succ n ih =>
    have hx : x % 256 ^ n < 256 ^ n := Nat.mod_lt _ (by positivity)
    have hy : y % 256 ^ n < 256 ^ n := Nat.mod_lt _ (by positivity)
    rw [beBytes_succ, beBytes_succ, List.compare_cons_cons, ih, ← compare_toNat,
      BitVec.toNat_ofNat, BitVec.toNat_ofNat, mod_pow_succ_eq n x, mod_pow_succ_eq n y]
    set a := x / 256 ^ n % 256
    set b := y / 256 ^ n % 256
    rcases lt_trichotomy a b with h | h | h
    · have hlt : a * 256 ^ n + x % 256 ^ n < b * 256 ^ n + y % 256 ^ n := by
        have : (a + 1) * 256 ^ n ≤ b * 256 ^ n := Nat.mul_le_mul_right _ h
        rw [Nat.add_mul] at this
        omega
      rw [compare_lt_iff_lt.mpr h, compare_lt_iff_lt.mpr hlt]
      rfl
    · rw [h, compare_eq_iff_eq.mpr rfl]
      rcases lt_trichotomy (x % 256 ^ n) (y % 256 ^ n) with h' | h' | h'
      · rw [compare_lt_iff_lt.mpr h', compare_lt_iff_lt.mpr (by omega)]
        rfl
      · rw [h', compare_eq_iff_eq.mpr rfl, compare_eq_iff_eq.mpr rfl]
        rfl
      · rw [compare_gt_iff_gt.mpr h', compare_gt_iff_gt.mpr (by omega)]
        rfl
    · have hlt : b * 256 ^ n + y % 256 ^ n < a * 256 ^ n + x % 256 ^ n := by
        have : (b + 1) * 256 ^ n ≤ a * 256 ^ n := Nat.mul_le_mul_right _ h
        rw [Nat.add_mul] at this
        omega
      rw [compare_gt_iff_gt.mpr h, compare_gt_iff_gt.mpr hlt]
      rfl

/-- On numbers that fit in `n` bytes the big-endian encoding preserves comparison. -/
theorem compare_beBytes {n x y : ℕ} (hx : x < 256 ^ n) (hy : y < 256 ^ n) :
    compare (beBytes n x) (beBytes n y) = compare x y := by
  rw [compare_beBytes_mod, Nat.mod_eq_of_lt hx, Nat.mod_eq_of_lt hy]

/-! ## Little-endian byte strings -/

/-- The `n` low-order bytes of `x`, least significant first. -/
def leBytes : ℕ → ℕ → List Byte
  | 0, _ => []
  | n + 1, x => BitVec.ofNat 8 x :: leBytes n (x / 256)

/-- The number a byte string denotes, least significant byte first. -/
def ofLeBytes : List Byte → ℕ
  | [] => 0
  | b :: bs => b.toNat + 256 * ofLeBytes bs

@[simp] lemma leBytes_zero (x : ℕ) : leBytes 0 x = [] := rfl

/-- The first byte of the encoding is the least significant one. -/
lemma leBytes_succ (n x : ℕ) :
    leBytes (n + 1) x = BitVec.ofNat 8 x :: leBytes n (x / 256) := rfl

@[simp] lemma length_leBytes (n x : ℕ) : (leBytes n x).length = n := by
  induction n generalizing x with
  | zero => rfl
  | succ n ih => rw [leBytes_succ, List.length_cons, ih]

/-- Reading back the `n` bytes of `x` gives `x` modulo `256 ^ n`. -/
lemma ofLeBytes_leBytes (n x : ℕ) : ofLeBytes (leBytes n x) = x % 256 ^ n := by
  induction n generalizing x with
  | zero => simp [ofLeBytes, Nat.mod_one]
  | succ n ih =>
    have hpow : 256 ^ (n + 1) = 256 * 256 ^ n := pow_succ' 256 n
    rw [leBytes_succ, ofLeBytes, ih, BitVec.toNat_ofNat, hpow, Nat.mod_mul]

lemma ofLeBytes_lt (bs : List Byte) : ofLeBytes bs < 256 ^ bs.length := by
  induction bs with
  | nil => exact Nat.one_pos
  | cons b bs ih =>
    have hb := b.isLt
    rw [ofLeBytes, List.length_cons, pow_succ']
    omega

/-- A byte string is the encoding of the number it denotes. -/
lemma leBytes_ofLeBytes (bs : List Byte) : leBytes bs.length (ofLeBytes bs) = bs := by
  induction bs with
  | nil => rfl
  | cons b bs ih =>
    have hb := b.isLt
    have hdiv : (b.toNat + 256 * ofLeBytes bs) / 256 = ofLeBytes bs := by omega
    have hbyte : BitVec.ofNat 8 (b.toNat + 256 * ofLeBytes bs) = b := by
      refine BitVec.eq_of_toNat_eq ?_
      rw [BitVec.toNat_ofNat]
      omega
    rw [List.length_cons, ofLeBytes, leBytes_succ, hdiv, hbyte, ih]

/-! ## Comparing block by block -/

/-- Strings that start with blocks of one length compare by the blocks first. -/
theorem compare_append {a b : List Byte} (h : a.length = b.length) (s t : List Byte) :
    compare (a ++ s) (b ++ t) = (compare a b).then (compare s t) := by
  induction a generalizing b with
  | nil =>
    rw [List.length_nil] at h
    obtain rfl := List.length_eq_zero_iff.mp h.symm
    rfl
  | cons x a ih =>
    cases b with
    | nil => simp at h
    | cons y b =>
      rw [List.cons_append, List.cons_append, List.compare_cons_cons, List.compare_cons_cons,
        ih (by simpa using h), Ordering.then_assoc]

/-! ## Bit vectors as bytes -/

section BitVectors

variable {w : ℕ}

/-- The bytes of a bit vector of `w` bits, most significant first. -/
def toBeBytes (x : BitVec w) : List Byte := beBytes (w / 8) x.toNat

/-- The bit vector of `w` bits that a byte string denotes, most significant byte first. -/
def fromBeBytes (w : ℕ) (bs : List Byte) : BitVec w := BitVec.ofNat w (ofBeBytes bs)

/-- The bytes of a bit vector of `w` bits, least significant first. -/
def toLeBytes (x : BitVec w) : List Byte := leBytes (w / 8) x.toNat

/-- The bit vector of `w` bits that a byte string denotes, least significant byte first. -/
def fromLeBytes (w : ℕ) (bs : List Byte) : BitVec w := BitVec.ofNat w (ofLeBytes bs)

@[simp] lemma length_toBeBytes (x : BitVec w) : (toBeBytes x).length = w / 8 :=
  length_beBytes _ _

@[simp] lemma length_toLeBytes (x : BitVec w) : (toLeBytes x).length = w / 8 :=
  length_leBytes _ _

/-- An unsigned value of `w` bits fits in `w / 8` bytes. -/
lemma toNat_lt_pow_bytes (hw : 8 ∣ w) (x : BitVec w) : x.toNat < 256 ^ (w / 8) := by
  have hpow : (256 : ℕ) ^ (w / 8) = 2 ^ w := by
    obtain ⟨n, rfl⟩ := hw
    rw [Nat.mul_div_cancel_left n (by decide), pow_mul]
    norm_num
  rw [hpow]
  exact x.isLt

/-- A bit vector is recovered from its big-endian bytes. -/
lemma fromBeBytes_toBeBytes (hw : 8 ∣ w) (x : BitVec w) : fromBeBytes w (toBeBytes x) = x := by
  rw [fromBeBytes, toBeBytes, ofBeBytes_beBytes, Nat.mod_eq_of_lt (toNat_lt_pow_bytes hw x),
    BitVec.ofNat_toNat, BitVec.setWidth_eq]

/-- A bit vector is recovered from its little-endian bytes. -/
lemma fromLeBytes_toLeBytes (hw : 8 ∣ w) (x : BitVec w) : fromLeBytes w (toLeBytes x) = x := by
  rw [fromLeBytes, toLeBytes, ofLeBytes_leBytes, Nat.mod_eq_of_lt (toNat_lt_pow_bytes hw x),
    BitVec.ofNat_toNat, BitVec.setWidth_eq]

lemma pow_bytes_eq {bs : List Byte} (h : 8 * bs.length = w) : 256 ^ bs.length = 2 ^ w := by
  rw [← h, pow_mul]
  norm_num

/-- Bytes are recovered from the bit vector they denote, big-endian. -/
lemma toBeBytes_fromBeBytes {bs : List Byte} (h : 8 * bs.length = w) :
    toBeBytes (fromBeBytes w bs) = bs := by
  have hlt : ofBeBytes bs < 2 ^ w := pow_bytes_eq h ▸ ofBeBytes_lt bs
  have hlen : w / 8 = bs.length := by omega
  rw [toBeBytes, fromBeBytes, BitVec.toNat_ofNat, Nat.mod_eq_of_lt hlt, hlen, beBytes_ofBeBytes]

/-- Bytes are recovered from the bit vector they denote, little-endian. -/
lemma toLeBytes_fromLeBytes {bs : List Byte} (h : 8 * bs.length = w) :
    toLeBytes (fromLeBytes w bs) = bs := by
  have hlt : ofLeBytes bs < 2 ^ w := pow_bytes_eq h ▸ ofLeBytes_lt bs
  have hlen : w / 8 = bs.length := by omega
  rw [toLeBytes, fromLeBytes, BitVec.toNat_ofNat, Nat.mod_eq_of_lt hlt, hlen, leBytes_ofLeBytes]

/-- Comparing big-endian bytes is comparing the bit vectors. -/
theorem compare_toBeBytes (hw : 8 ∣ w) (x y : BitVec w) :
    compare (toBeBytes x) (toBeBytes y) = compare x y := by
  rw [toBeBytes, toBeBytes, compare_beBytes (toNat_lt_pow_bytes hw x) (toNat_lt_pow_bytes hw y),
    compare_toNat]

end BitVectors

end FixedWidth
