import Mathlib
import GrainStore.Wal.Codec

/-!
# What the frame decoder accepts

A frame is a length, a checksum and a payload (`frameOf`).  The decoder accepts a frame whose
payload begins with the encoding of a record; bytes behind the value are covered by the length and
the checksum, and otherwise ignored (`decodeFrame_eq_iff`).  So a record has many frames, of which
the encoder writes the one without such bytes (`decodeFrame_canonical`).
-/

namespace GrainStore

open FixedWidth

/-- The frame around a payload. -/
def frameOf (payload : Bytes) : Bytes :=
  toLeBytes (BitVec.ofNat 32 payload.length) ++ toLeBytes (crc32 payload) ++ payload

lemma encodeFrame_eq (r : WalRecord) : encodeFrame r = frameOf (encodePayload r) := rfl

lemma length_frameOf (payload : Bytes) : (frameOf payload).length = 8 + payload.length := by
  simp only [frameOf, List.length_append, length_toLeBytes, Nat.reduceDiv, Nat.reduceAdd]

lemma slice_slice_append {b : Bytes} {i j k : ℕ} (hij : i ≤ j) (hjk : j ≤ k) :
    slice b i j ++ slice b j k = slice b i k := by
  rw [slice, slice, slice]
  have hdrop : b.drop j = (b.drop i).drop (j - i) := by
    rw [List.drop_drop, Nat.add_sub_cancel' hij]
  have hsum : k - i = (j - i) + (k - j) := by omega
  rw [hdrop, hsum, List.take_add]

/-- A payload that decodes begins with the encoding of its record. -/
lemma eq_append_of_decodePayload {b : Bytes} {r : WalRecord} (h : decodePayload b = some r) :
    r.val.length < 2 ^ 32 ∧ ∃ tail, b = encodePayload r ++ tail := by
  unfold decodePayload at h
  split at h
  · cases h
  · rename_i hfixed
    dsimp only at h
    split at h
    · cases h
    · rename_i hval
      set vlen := (fromBeBytes 32 (slice b 57 61)).toNat with hvlen
      have hlen : REC_FIXED + vlen ≤ b.length := not_lt.mp hval
      have h61 : 61 ≤ b.length := not_lt.mp hfixed
      have hlength : (slice b REC_FIXED (REC_FIXED + vlen)).length = vlen := by
        rw [length_slice hlen, Nat.add_sub_cancel_left]
      obtain rfl := Option.some.inj h
      refine ⟨?_, b.drop (REC_FIXED + vlen), ?_⟩
      · dsimp only
        rw [hlength]
        exact BitVec.isLt _
      · have hop : [(b.drop 28).headD 0] = slice b 28 29 := by
          have hne : b.drop 28 ≠ [] := by
            intro hnil
            have hshort := List.drop_eq_nil_iff.mp hnil
            omega
          obtain ⟨op, rest, hcons⟩ := List.exists_cons_of_ne_nil hne
          rw [slice, hcons]
          rfl
        have hfield : ∀ {w : ℕ} (i j : ℕ), j ≤ 61 → 8 * (j - i) = w →
            toBeBytes (fromBeBytes w (slice b i j)) = slice b i j := fun i j hj hw =>
          toBeBytes_fromBeBytes (by rw [length_slice (hj.trans h61), hw])
        have hvbytes : toBeBytes (BitVec.ofNat 32 vlen) = slice b 57 61 := by
          rw [hvlen, BitVec.ofNat_toNat, BitVec.setWidth_eq]
          exact hfield 57 61 le_rfl rfl
        rw [encodePayload]
        dsimp only
        rw [hlength, hvbytes, hop, hfield 0 8 (by decide) rfl, hfield 8 24 (by decide) rfl,
          hfield 24 28 (by decide) rfl, hfield 29 33 (by decide) rfl, hfield 33 41 (by decide) rfl,
          hfield 41 57 (by decide) rfl]
        simp (disch := decide) only [slice_slice_append]
        have hval : slice b 0 61 ++ slice b REC_FIXED (REC_FIXED + vlen) =
            slice b 0 (REC_FIXED + vlen) :=
          slice_slice_append (by decide : 0 ≤ REC_FIXED) (Nat.le_add_right _ _)
        rw [hval, slice, List.drop_zero, Nat.sub_zero, List.take_append_drop]

/-- What the decoder accepts: frames around payloads that decode. -/
theorem decodeFrame_eq_iff {input : Bytes} {r : WalRecord} {n : ℕ} :
    decodeFrame input = some (r, n) ↔
      ∃ payload, input.take n = frameOf payload ∧ n ≤ input.length ∧ payload.length < 2 ^ 32 ∧
        decodePayload payload = some r := by
  rw [decodeFrame_eq_some_iff]
  constructor
  · rintro ⟨h8, hn, hle, hcrc, hpay⟩
    have hlen : (slice input 8 n).length = (fromLeBytes 32 (slice input 0 4)).toNat := by
      rw [length_slice hle, hn, Nat.add_sub_cancel_left]
    refine ⟨slice input 8 n, ?_, hle, hlen ▸ BitVec.isLt _, hpay⟩
    rw [frameOf, hlen, hcrc, BitVec.ofNat_toNat, BitVec.setWidth_eq,
      toLeBytes_fromLeBytes (by rw [length_slice (by omega)]),
      toLeBytes_fromLeBytes (by rw [length_slice (by omega)]),
      slice_slice_append (by decide) (by decide), slice_slice_append (by decide) (by omega), slice,
      List.drop_zero, Nat.sub_zero]
  · rintro ⟨payload, htake, hle, hfit, hpay⟩
    have hn : n = 8 + payload.length := by
      rw [← length_frameOf, ← htake, List.length_take_of_le hle]
    have hslice : ∀ i j, j ≤ n → slice input i j = slice (frameOf payload) i j := by
      intro i j hj
      rw [← htake, ← List.take_append_drop n input, slice_append_of_le (by
        rw [List.length_take_of_le hle]
        exact hj), List.take_append_drop]
    have hframe : frameOf payload = toLeBytes (BitVec.ofNat 32 payload.length) ++
        (toLeBytes (crc32 payload) ++ payload) := List.append_assoc _ _ _
    have hlen0 : slice input 0 4 = toLeBytes (BitVec.ofNat 32 payload.length) := by
      rw [hslice 0 4 (by omega), hframe, slice_append_left (by simp)]
    have hcrc : slice input 4 8 = toLeBytes (crc32 payload) := by
      rw [hslice 4 8 (by omega), hframe, slice_append_right (by simp) _ 8]
      simpa using slice_append_left (j := 4) (by simp) payload
    have hbody : slice input 8 n = payload := by
      rw [hslice 8 n le_rfl, slice, frameOf, List.drop_left' (by simp),
        List.take_of_length_le (by omega)]
    rw [hlen0, hcrc, hbody, fromLeBytes_toLeBytes (by decide), fromLeBytes_toLeBytes (by decide),
      BitVec.toNat_ofNat, Nat.mod_eq_of_lt hfit]
    exact ⟨by omega, hn, hle, rfl, hpay⟩

/-- What the decoder accepts.  A byte string from which a record is decoded begins with a frame,
with the right length and the right checksum, whose payload begins with the encoding of the record.
The bytes consumed are the encoder's frame exactly when the value ends the payload.  So two frames
whose values end their payloads are the same if they decode to the same record. -/
theorem decodeFrame_canonical {input : Bytes} {r : WalRecord} {n : ℕ}
    (h : decodeFrame input = some (r, n)) :
    (∃ tail, input.take n = frameOf (encodePayload r ++ tail)) ∧
      (input.take n = encodeFrame r ↔ n = 8 + REC_FIXED + r.val.length) ∧
      ∀ input' n', decodeFrame input' = some (r, n') → n = 8 + REC_FIXED + r.val.length →
        n' = 8 + REC_FIXED + r.val.length → input'.take n' = input.take n := by
  have hexact : ∀ {input : Bytes} {n : ℕ}, decodeFrame input = some (r, n) →
      (∃ tail, input.take n = frameOf (encodePayload r ++ tail)) ∧
        (input.take n = encodeFrame r ↔ n = 8 + REC_FIXED + r.val.length) := by
    intro input n h
    obtain ⟨payload, htake, hle, -, hpay⟩ := decodeFrame_eq_iff.mp h
    obtain ⟨-, tail, rfl⟩ := eq_append_of_decodePayload hpay
    refine ⟨⟨tail, htake⟩, ?_, ?_⟩
    · intro heq
      rw [← length_encodeFrame, ← heq, List.length_take_of_le hle]
    · intro hn
      have hlen := congrArg List.length htake
      rw [List.length_take_of_le hle, length_frameOf, List.length_append,
        length_encodePayload] at hlen
      have hnil : tail = [] := List.length_eq_zero_iff.mp (by omega)
      rw [htake, hnil, List.append_nil, encodeFrame_eq]
  obtain ⟨hframe, hiff⟩ := hexact h
  refine ⟨hframe, hiff, ?_⟩
  intro input' n' h' hn hn'
  rw [hiff.mpr hn, (hexact h').2.mpr hn']

namespace CanonicalExample

def tombstone : WalRecord := ⟨1, 2, 3, OP_DELETE, 0, 0, 4, []⟩

end CanonicalExample

open CanonicalExample in
/-- A frame with a byte behind the value is accepted, and is not what the encoder writes: two frames
decode to one record. -/
theorem decodeFrame_trailing :
    decodeFrame (frameOf (encodePayload tombstone ++ [0])) = some (tombstone, 70) ∧
      (frameOf (encodePayload tombstone ++ [0])).take 70 ≠ encodeFrame tombstone ∧
      decodeFrame (encodeFrame tombstone) = some (tombstone, 69) := by
  refine ⟨by decide +kernel, ?_, decodeFrame_encodeFrame (by decide)⟩
  intro heq
  have hlen := congrArg List.length heq
  rw [length_encodeFrame] at hlen
  revert hlen
  decide

open CanonicalExample in
theorem decodeFrame_canonical_tombstone :
    (encodeFrame tombstone ++ [7]).take 69 = encodeFrame tombstone ↔
      69 = 8 + REC_FIXED + tombstone.val.length :=
  (decodeFrame_canonical (decodeFrame_append (decodeFrame_encodeFrame (r := tombstone)
    (by decide)) [7])).2.1

end GrainStore
