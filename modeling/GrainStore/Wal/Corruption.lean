import Mathlib
import GrainStore.Foundation.Crc
import GrainStore.Recovery

/-!
# Corruption inside a frame

The checksum of the log is a cyclic redundancy check with a register of four bytes
(`crc32_eq_run`).  A change of at most four consecutive bytes of a payload therefore changes the
checksum (`Altered.crc32_ne`), the frame is not readable any more (`decodeFrame_of_altered`), and
recovery replays the frames before it and stops there (`recover_altered`).
-/

namespace GrainStore

open FixedWidth

/-- `data'` is `data` with a change among the four bytes from position `p`. -/
structure Altered (p : ℕ) (data data' : Bytes) : Prop where
  /-- Nothing is inserted or removed. -/
  length : data'.length = data.length
  /-- Something is changed. -/
  ne : data' ≠ data
  /-- The other bytes stay. -/
  outside : ∀ j, j < p ∨ p + 4 ≤ j → data'[j]? = data[j]?

/-- The polynomial of CRC32, its top bit set. -/
def crcPoly : U32 := 0xEDB88320#32

/-- Masking the polynomial with the low bit is adding it when the bit is set. -/
lemma crcBit_eq_bit : crcBit = Crc.bit crcPoly := by
  funext crc
  rw [crcBit, Crc.bit, crcPoly, BitVec.and_one_eq_setWidth_ofBool_getLsbD]
  cases crc.getLsbD 0 with
  | false => rfl
  | true => rfl

lemma crc32_eq_run (data : Bytes) : crc32 data = ~~~Crc.run crcPoly 0xFFFFFFFF#32 data := by
  rw [crc32, crcBit_eq_bit]
  rfl

namespace Altered

variable {p : ℕ} {data data' : Bytes}

/-- The two strings around the window in which they differ. -/
lemma exists_window (h : Altered p data data') :
    ∃ before inside inside' after : Bytes, data = before ++ inside ++ after ∧
      data' = before ++ inside' ++ after ∧ inside.length = inside'.length ∧
      inside.length ≤ 4 := by
  have hsplit : ∀ b : Bytes, b = b.take p ++ (b.drop p).take 4 ++ b.drop (p + 4) := by
    intro b
    rw [List.append_assoc, ← List.drop_drop, List.take_append_drop, List.take_append_drop]
  have hbefore : data'.take p = data.take p := List.ext_getElem? fun j => by
    rw [List.getElem?_take, List.getElem?_take]
    split
    · rename_i hj
      exact h.outside j (.inl hj)
    · rfl
  have hafter : data'.drop (p + 4) = data.drop (p + 4) := List.ext_getElem? fun j => by
    rw [List.getElem?_drop, List.getElem?_drop]
    exact h.outside _ (.inr (Nat.le_add_right _ _))
  refine ⟨data.take p, (data.drop p).take 4, (data'.drop p).take 4, data.drop (p + 4),
    hsplit data, ?_, ?_, List.length_take_le _ _⟩
  · rw [← hbefore, ← hafter]
    exact hsplit data'
  · rw [List.length_take, List.length_take, List.length_drop, List.length_drop, h.length]

/-- A change of at most four consecutive bytes changes the checksum. -/
theorem crc32_ne (h : Altered p data data') : crc32 data' ≠ crc32 data := by
  obtain ⟨before, inside, inside', after, rfl, rfl, hlen, hfour⟩ := h.exists_window
  intro hcrc
  rw [crc32_eq_run, crc32_eq_run, BitVec.not_inj] at hcrc
  have hinside : inside = inside' :=
    Crc.eq_of_run_eq (by decide : crcPoly.getLsbD (32 - 1) = true) hlen (by omega) hcrc.symm
  exact h.ne (by rw [hinside])

end Altered

/-- The frame of a record with another payload behind its header. -/
def frameWith (r : WalRecord) (payload : Bytes) : Bytes := (encodeFrame r).take 8 ++ payload

lemma frameWith_encodePayload (r : WalRecord) : frameWith r (encodePayload r) = encodeFrame r := by
  rw [frameWith, encodeFrame, List.take_left' (by simp)]

/-- A frame whose payload has changed in at most four consecutive bytes is not readable, whatever
follows it. -/
lemma decodeFrame_of_altered {r : WalRecord} {p : ℕ} {payload : Bytes} (hfits : r.Fits)
    (h : Altered p (encodePayload r) payload) (rest : Bytes) :
    decodeFrame (frameWith r payload ++ rest) = none := by
  set header := toLeBytes (BitVec.ofNat 32 (encodePayload r).length) ++
    toLeBytes (crc32 (encodePayload r)) with hheader
  have hlen : header.length = 8 := by simp [hheader]
  have hframe : (encodeFrame r).take 8 = header := List.take_left' hlen
  have hpay : payload.length = REC_FIXED + r.val.length := by
    rw [h.length, length_encodePayload]
  have hfit : REC_FIXED + r.val.length < 2 ^ 32 := hfits
  rw [frameWith, hframe]
  cases hdecode : decodeFrame (header ++ payload ++ rest) with
  | none => rfl
  | some found =>
    obtain ⟨r', n⟩ := found
    obtain ⟨-, hn, -, hcrc, -⟩ := decodeFrame_eq_some_iff.mp hdecode
    have hlen0 : slice (header ++ payload ++ rest) 0 4 =
        toLeBytes (BitVec.ofNat 32 (encodePayload r).length) := by
      rw [hheader, List.append_assoc, List.append_assoc, slice_append_left (by simp)]
    have hcrc0 : slice (header ++ payload ++ rest) 4 8 = toLeBytes (crc32 (encodePayload r)) := by
      rw [hheader, List.append_assoc, List.append_assoc, slice_append_right (by simp) _ 8]
      simpa using slice_append_left (j := 4) (by simp) (payload ++ rest)
    rw [hlen0, fromLeBytes_toLeBytes (by decide), BitVec.toNat_ofNat, length_encodePayload,
      Nat.mod_eq_of_lt hfit] at hn
    have hbody : slice (header ++ payload ++ rest) 8 n = payload := by
      rw [List.append_assoc, slice_append_right hlen.le, hlen, hn, Nat.sub_self,
        Nat.add_sub_cancel_left, slice_append_left hpay]
    rw [hbody, hcrc0, fromLeBytes_toLeBytes (by decide)] at hcrc
    exact absurd hcrc h.crc32_ne

/-- Corruption is detected: in a log of frames, a change of at most four consecutive bytes of one
frame's payload makes that frame unreadable, and recovery replays exactly the frames before it. -/
theorem recover_altered {before after : List WalRecord} {r : WalRecord} {p : ℕ} {payload : Bytes}
    (hfits : ∀ s ∈ before ++ r :: after, s.Fits) (h : Altered p (encodePayload r) payload) :
    (∀ rest, decodeFrame (frameWith r payload ++ rest) = none) ∧
      logOf (before.flatMap encodeFrame ++ frameWith r payload ++
        after.flatMap encodeFrame) = before ∧
      ∀ kv, recover kv (.ok (before.flatMap encodeFrame ++ frameWith r payload ++
          after.flatMap encodeFrame)) =
        .ok (before.foldl replayFrame (kv, { highWatermark := 0, idem := ∅, frames := 0 })) := by
  have hnone := decodeFrame_of_altered (hfits r (by simp)) h
  have hlog : logOf (before.flatMap encodeFrame ++ frameWith r payload ++
      after.flatMap encodeFrame) = before := by
    rw [List.append_assoc, logOf_flatMap_append fun s hs => hfits s (List.mem_append_left _ hs),
      logOf_of_none (hnone _), List.append_nil]
  refine ⟨hnone, hlog, ?_⟩
  intro kv
  rw [recover, recoverLoop_eq_foldl, List.drop_zero, hlog]

namespace CorruptionExample

def records : List WalRecord :=
  [⟨1, 1, 1, OP_PUT, 0, 0, 7, [10]⟩, ⟨2, 2, 1, OP_PUT, 0, 0, 8, [1, 2, 3, 4, 5]⟩,
    ⟨3, 3, 1, OP_DELETE, 0, 0, 9, []⟩]

/-- The payload of the second record with its first and fourth value bytes changed. -/
def payload : Bytes :=
  ((encodePayload ⟨2, 2, 1, OP_PUT, 0, 0, 8, [1, 2, 3, 4, 5]⟩).set 61 0).set 64 0

end CorruptionExample

open CorruptionExample in
/-- Two bytes of the second of three frames are changed: one frame is replayed. -/
theorem recover_altered_second :
    logOf ((records.take 1).flatMap encodeFrame ++
      frameWith ⟨2, 2, 1, OP_PUT, 0, 0, 8, [1, 2, 3, 4, 5]⟩ payload ++
      (records.drop 2).flatMap encodeFrame) = records.take 1 := by
  refine (recover_altered (p := 61) (by decide) ⟨?_, by decide, fun j hj => ?_⟩).2.1
  · rw [payload, List.length_set, List.length_set]
  · rw [payload, List.getElem?_set_ne (by omega), List.getElem?_set_ne (by omega)]

end GrainStore
