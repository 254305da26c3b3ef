import Mathlib
import GrainStore.Model

/-!
# The Bloom filter of a block

A bit set in which a sid sets the bits at `k` places, computed by double hashing in wrapping 64-bit
arithmetic and reduced modulo the number of bits.  Asking for a sid looks at the same places, so
a sid that was inserted is never missed (`maybeContains_ofSids`).
-/

namespace GrainStore

/-- A Bloom filter over sids: `mBits` bits, `k` places for each sid. -/
structure Bloom where
  bits : List U64
  mBits : U64
  k : U32
  /-- There are bits. -/
  pos : 0 < mBits.toNat
  /-- The words have room for all of them. -/
  covers : mBits.toNat ≤ 64 * bits.length

namespace Bloom

/-- A filter with no bit set.  The source computes `size`, the number of bits and of places, from
the number of sids in floating point, and then takes 64 bits at least. -/
def new (size : U64 × U32) : Bloom where
  bits := List.replicate (((max size.1 64#64).toNat + 63) / 64) 0#64
  mBits := max size.1 64#64
  k := size.2
  pos := by
    have hle : (64#64).toNat ≤ (max size.1 64#64).toNat := BitVec.le_def.mp (le_max_right _ _)
    exact lt_of_lt_of_le (by decide) hle
  covers := by
    rw [List.length_replicate]
    omega

def splitmix (z : U64) : U64 :=
  let z := z + 0x9E3779B97F4A7C15#64
  let z := (z ^^^ (z >>> 30)) * 0xBF58476D1CE4E5B9#64
  let z := (z ^^^ (z >>> 27)) * 0x94D049BB133111EB#64
  z ^^^ (z >>> 31)

/-- The two hashes of a sid, the second of them odd. -/
def hashes (x : Sid) : U64 × U64 :=
  let lo : U64 := x.setWidth 64
  let hi : U64 := (x >>> 64).setWidth 64
  (splitmix (lo ^^^ hi * 0xD6E8FEB86659FD93#64),
    splitmix (hi ^^^ lo * 0x9E3779B97F4A7C15#64) ||| 1#64)

/-- The `i`-th place of a sid. -/
def probe (b : Bloom) (x : Sid) (i : U64) : Fin b.mBits.toNat :=
  ⟨(((hashes x).1 + i * (hashes x).2) % b.mBits).toNat, by
    rw [BitVec.toNat_umod]
    exact Nat.mod_lt _ b.pos⟩

/-- The word of a bit. -/
def word (b : Bloom) (bit : Fin b.mBits.toNat) : Fin b.bits.length :=
  ⟨bit / 64, by
    have hbit := bit.isLt
    have hcovers := b.covers
    omega⟩

def setBit (b : Bloom) (bit : Fin b.mBits.toNat) : Bloom :=
  { b with
    bits := b.bits.set (b.word bit) (b.bits.get (b.word bit) ||| 1#64 <<< (bit % 64 : ℕ))
    covers := by
      rw [List.length_set]
      exact b.covers }

def testBit (b : Bloom) (bit : Fin b.mBits.toNat) : Bool :=
  b.bits.get (b.word bit) &&& 1#64 <<< (bit % 64 : ℕ) != 0#64

/-- The numbers of a sid's places. -/
def rounds (b : Bloom) : List U64 := (List.range b.k.toNat).map (BitVec.ofNat 64)

def insert (b : Bloom) (x : Sid) : Bloom := b.rounds.foldl (fun b i => b.setBit (b.probe x i)) b

def maybeContains (b : Bloom) (x : Sid) : Bool := b.rounds.all fun i => b.testBit (b.probe x i)

/-- The filter of some sids. -/
def ofSids (size : U64 × U32) (sids : List Sid) : Bloom := sids.foldl insert (new size)

/-! ## Bits -/

variable {b b' : Bloom} {x : Sid}

/-- Whether the bit at a place is set. -/
def Has (b : Bloom) (place : ℕ) : Prop := (b.bits.getD (place / 64) 0#64).getLsbD (place % 64)

lemma testBit_iff (bit : Fin b.mBits.toNat) : b.testBit bit ↔ b.Has bit := by
  have hword : b.bits.get (b.word bit) = b.bits.getD (bit / 64) 0#64 :=
    (List.getD_eq_getElem _ _ _).symm
  rw [testBit, Has, hword, bne_iff_ne, ← BitVec.twoPow_eq, BitVec.and_twoPow]
  cases hbit : (b.bits.getD (bit / 64) 0#64).getLsbD (bit % 64 : ℕ) with
  | false => simp
  | true =>
    have hlt : (bit % 64 : ℕ) < 64 := Nat.mod_lt _ (by decide)
    have hone : (BitVec.twoPow 64 (bit % 64 : ℕ)).getLsbD (bit % 64 : ℕ) = true := by
      rw [BitVec.getLsbD_twoPow]
      simp [hlt]
    simp only [if_true, iff_true]
    intro hzero
    rw [hzero, BitVec.getLsbD_zero] at hone
    simp at hone

/-- Setting a bit changes one word. -/
lemma getD_setBit (b : Bloom) (bit : Fin b.mBits.toNat) (n : ℕ) :
    (b.setBit bit).bits.getD n 0#64 =
      if bit / 64 = n then b.bits.getD n 0#64 ||| BitVec.twoPow 64 (bit % 64 : ℕ)
      else b.bits.getD n 0#64 := by
  have hword : b.bits.get (b.word bit) = b.bits.getD (bit / 64) 0#64 :=
    (List.getD_eq_getElem _ _ _).symm
  have hval : (b.word bit : ℕ) = bit / 64 := rfl
  simp only [setBit, List.getD_eq_getElem?_getD, List.getElem?_set, hval, hword]
  by_cases hn : (bit : ℕ) / 64 = n
  · subst hn
    rw [if_pos rfl, if_pos rfl, if_pos (hval ▸ (b.word bit).isLt), BitVec.twoPow_eq,
      Option.getD_some]
  · rw [if_neg hn, if_neg hn]

/-- Setting a bit sets it, and keeps the others. -/
lemma has_setBit_iff {bit : Fin b.mBits.toNat} {place : ℕ} :
    (b.setBit bit).Has place ↔ b.Has place ∨ place = bit := by
  rw [Has, Has, getD_setBit]
  by_cases hword : (bit : ℕ) / 64 = place / 64
  · have hplace : (bit : ℕ) % 64 = place % 64 ↔ place = bit := by omega
    have hlt : (bit % 64 : ℕ) < 64 := Nat.mod_lt _ (by decide)
    rw [if_pos hword, BitVec.getLsbD_or, BitVec.getLsbD_twoPow]
    simp [hlt, hplace]
  · have hne : place ≠ bit := fun heq => hword (by rw [heq])
    rw [if_neg hword]
    simp [hne]

/-- A filter grows by setting bits. -/
structure Grows (b b' : Bloom) : Prop where
  mBits : b'.mBits = b.mBits
  k : b'.k = b.k
  has : ∀ place, b.Has place → b'.Has place

lemma Grows.refl (b : Bloom) : Grows b b := ⟨rfl, rfl, fun _ => id⟩

lemma Grows.trans {b₁ b₂ b₃ : Bloom} (h : Grows b₁ b₂) (h' : Grows b₂ b₃) : Grows b₁ b₃ :=
  ⟨h'.mBits.trans h.mBits, h'.k.trans h.k, fun place hp => h'.has place (h.has place hp)⟩

lemma Grows.foldl {α : Type*} {f : Bloom → α → Bloom} (hf : ∀ b a, Grows b (f b a)) (l : List α)
    (b : Bloom) : Grows b (l.foldl f b) := by
  induction l generalizing b with
  | nil => exact Grows.refl b
  | cons a l ih => exact (hf b a).trans (ih _)

lemma grows_setBit (b : Bloom) (bit : Fin b.mBits.toNat) : Grows b (b.setBit bit) :=
  ⟨rfl, rfl, fun _ hp => has_setBit_iff.mpr (Or.inl hp)⟩

lemma grows_setBits (b : Bloom) (x : Sid) (l : List U64) :
    Grows b (l.foldl (fun b i => b.setBit (b.probe x i)) b) :=
  Grows.foldl (f := fun b i => b.setBit (b.probe x i))
    (fun b i => b.grows_setBit (b.probe x i)) l b

lemma grows_insert (b : Bloom) (x : Sid) : Grows b (b.insert x) := grows_setBits b x b.rounds

/-- The places of a sid depend on the number of bits only. -/
lemma probe_eq (h : b'.mBits = b.mBits) (x : Sid) (i : U64) :
    (b'.probe x i : ℕ) = b.probe x i := by
  simp only [probe, h]

/-! ## No false negatives -/

lemma maybeContains_iff : b.maybeContains x ↔ ∀ i ∈ b.rounds, b.Has (b.probe x i) := by
  simp only [maybeContains, List.all_eq_true, testBit_iff]

/-- All places of a sid that is inserted are set. -/
lemma maybeContains_insert (b : Bloom) (x : Sid) : (b.insert x).maybeContains x := by
  rw [maybeContains_iff]
  intro i hi
  have hgrows := b.grows_insert x
  rw [rounds, hgrows.k] at hi
  rw [probe_eq hgrows.mBits]
  -- the bit set in round `i` is kept in the rounds after it
  obtain ⟨before, after, hsplit⟩ := List.append_of_mem (show i ∈ b.rounds from hi)
  unfold insert
  rw [hsplit, List.foldl_append, List.foldl_cons]
  refine (grows_setBits _ x after).has _ (has_setBit_iff.mpr (Or.inr ?_))
  rw [probe_eq (b.grows_setBits x before).mBits]

/-- What a filter may contain it may contain when it has grown. -/
lemma Grows.maybeContains (h : Grows b b') (hx : b.maybeContains x) : b'.maybeContains x := by
  rw [maybeContains_iff] at hx ⊢
  intro i hi
  rw [rounds, h.k] at hi
  rw [probe_eq h.mBits]
  exact h.has _ (hx i hi)

/-- A filter misses none of the sids it was made from, whatever its size. -/
theorem maybeContains_ofSids (size : U64 × U32) {sids : List Sid} (h : x ∈ sids) :
    (ofSids size sids).maybeContains x := by
  obtain ⟨before, after, rfl⟩ := List.append_of_mem h
  rw [ofSids, List.foldl_append, List.foldl_cons]
  exact (Grows.foldl grows_insert after _).maybeContains (maybeContains_insert _ x)

end Bloom

end GrainStore
