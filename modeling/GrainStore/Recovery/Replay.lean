import Mathlib
import GrainStore.Recovery

/-!
# Replaying arbitrary bytes

The log file is what a crash left of it, so its length words and checksums may be anything.  Here
the decoder and the replay loop are written out with the checks the source makes when it runs: a
slice that is out of range, an array of the wrong size and a sum that no `usize` of 64 bits holds
have no result, and neither has a loop that does not end in the passes it is given.

`decodeFrame?_eq` and `recoverLoop?_eq` say that there always is a result, the one of the model
without checks; a frame takes 69 bytes or more, so there are few of them.  `replay_safe` adds that
frames appended later come behind those that were there.
-/

namespace GrainStore

open FixedWidth

/-! ## Checked reads -/

/-- The bytes of `b` from position `i` up to position `j`, if it has these positions. -/
def slice? (b : Bytes) (i j : ℕ) : Option Bytes :=
  if i ≤ j ∧ j ≤ b.length then some (slice b i j) else none

/-- The integer of `w` bits that a slice denotes, if the slice has as many. -/
def readInt? {w : ℕ} (denotes : Bytes → BitVec w) (b : Bytes) (i j : ℕ) : Option (BitVec w) := do
  let bs ← slice? b i j
  if 8 * bs.length = w then some (denotes bs) else none

/-- A big-endian integer in a slice. -/
def readBe? (w : ℕ) : Bytes → ℕ → ℕ → Option (BitVec w) := readInt? (fromBeBytes w)

/-- A little-endian integer in a slice. -/
def readLe? (w : ℕ) : Bytes → ℕ → ℕ → Option (BitVec w) := readInt? (fromLeBytes w)

/-- The sum of two sizes, if a `usize` holds it. -/
def checkedAdd (m n : ℕ) : Option ℕ := if m + n < 2 ^ 64 then some (m + n) else none

/-- Decode a payload; the outer `none` is a read that fails. -/
def decodePayload? (b : Bytes) : Option (Option WalRecord) :=
  if b.length < REC_FIXED then some none
  else do
    let seq ← readBe? 64 b 0 8
    let sid ← readBe? 128 b 8 24
    let pred ← readBe? 32 b 24 28
    let op ← b[28]?
    let c ← readBe? 32 b 29 33
    let tValid ← readBe? 64 b 33 41
    let idemKey ← readBe? 128 b 41 57
    let vlen ← readBe? 32 b 57 61
    let fin ← checkedAdd REC_FIXED vlen.toNat
    if b.length < fin then some none
    else do
      let val ← slice? b REC_FIXED fin
      some (some { seq, sid, pred, op, c, tValid, idemKey, val })

/-- Decode the first frame in `input`; the outer `none` is a read that fails. -/
def decodeFrame? (input : Bytes) : Option (Option (WalRecord × ℕ)) :=
  if input.length < 8 then some none
  else do
    let len ← readLe? 32 input 0 4
    let crc ← readLe? 32 input 4 8
    match checkedAdd 8 len.toNat with
    -- here the source has no frame rather than a failure
    | none => some none
    | some fin =>
      if input.length < fin then some none
      else do
        let payload ← slice? input 8 fin
        if crc32 payload ≠ crc then some none
        else (decodePayload? payload).map fun r => r.map fun r => (r, fin)

/-- The replay loop in at most `passes` passes, the last of which finds no frame. -/
def recoverLoop? (bytes : Bytes) : ℕ → ℕ → MemKv × Recovered → Option (MemKv × Recovered)
  | 0, _, _ => none
  | passes + 1, off, acc =>
    (slice? bytes off bytes.length).bind fun input =>
      (decodeFrame? input).bind fun frame =>
        match frame with
        | none => some acc
        -- the next pass slices at `off + n`, so it is checked there against the length of the file
        | some (r, n) => recoverLoop? bytes passes (off + n) (replayFrame acc r)

/-! ## No read fails -/

variable {b bytes input : Bytes} {i j : ℕ}

lemma slice?_eq (hi : i ≤ j) (hj : j ≤ b.length) : slice? b i j = some (slice b i j) :=
  if_pos ⟨hi, hj⟩

lemma readInt?_eq {w : ℕ} (denotes : Bytes → BitVec w) (hw : 8 * (j - i) = w) (hi : i ≤ j)
    (hj : j ≤ b.length) : readInt? denotes b i j = some (denotes (slice b i j)) := by
  rw [readInt?, slice?_eq hi hj]
  refine if_pos ?_
  rw [length_slice hj, hw]

/-- A length word of 32 bits never takes a small sum past what a `usize` holds. -/
lemma checkedAdd_eq (len : U32) {m : ℕ} (hm : m ≤ 2 ^ 32) :
    checkedAdd m len.toNat = some (m + len.toNat) := by
  have hlen : len.toNat < 2 ^ 32 := len.isLt
  exact if_pos (by omega)

/-- Whatever the payload is, decoding it reads nothing outside it. -/
lemma decodePayload?_eq (b : Bytes) : decodePayload? b = some (decodePayload b) := by
  rw [decodePayload?, decodePayload]
  split
  · rfl
  · rename_i hfixed
    rw [REC_FIXED] at hfixed
    have hop : b[28]? = some ((b.drop 28).headD 0) := by
      rw [List.headD_eq_head?_getD, List.head?_drop, List.getElem?_eq_getElem (by omega)]
      rfl
    have hread : ∀ w i j, 8 * (j - i) = w → i ≤ j → j ≤ 61 →
        readBe? w b i j = some (fromBeBytes w (slice b i j)) :=
      fun w i j hw hi hj => readInt?_eq _ hw hi (by omega)
    rw [hread 64 0 8 rfl (by decide) (by decide), hread 128 8 24 rfl (by decide) (by decide),
      hread 32 24 28 rfl (by decide) (by decide), hop, hread 32 29 33 rfl (by decide) (by decide),
      hread 64 33 41 rfl (by decide) (by decide), hread 128 41 57 rfl (by decide) (by decide),
      hread 32 57 61 rfl (by decide) (by decide)]
    simp only [Option.bind_eq_bind, Option.bind_some]
    rw [checkedAdd_eq _ (by decide), Option.bind_some]
    split
    · rfl
    · rw [slice?_eq (Nat.le_add_right _ _) (by omega)]
      rfl

/-- Whatever the input is, decoding its first frame reads nothing outside it. -/
lemma decodeFrame?_eq (input : Bytes) : decodeFrame? input = some (decodeFrame input) := by
  rw [decodeFrame?, decodeFrame]
  split
  · rfl
  · rename_i hheader
    have hread : ∀ i j, 8 * (j - i) = 32 → i ≤ j → j ≤ 8 →
        readLe? 32 input i j = some (fromLeBytes 32 (slice input i j)) :=
      fun i j hw hi hj => readInt?_eq _ hw hi (by omega)
    rw [hread 0 4 rfl (by decide) (by decide), hread 4 8 rfl (by decide) (by decide)]
    simp only [Option.bind_eq_bind, Option.bind_some]
    rw [checkedAdd_eq _ (by decide)]
    dsimp only
    split
    · rfl
    · rw [slice?_eq (Nat.le_add_right _ _) (by omega), Option.bind_some]
      split
      · rfl
      · rw [decodePayload?_eq]
        rfl

/-! ## The loop ends -/

/-- The frames that scan off the front of a file: their records with the bytes each takes. -/
def framesOf (bytes : Bytes) : List (WalRecord × ℕ) := walCodec.toFrameDecoder.sized.frames bytes

lemma map_fst_framesOf (bytes : Bytes) : (framesOf bytes).map Prod.fst = logOf bytes :=
  walCodec.toFrameDecoder.map_fst_frames_sized bytes

/-- A frame takes its header and the fixed part of its payload at least, even if the header says
that the payload is empty. -/
lemma le_of_decodeFrame {r : WalRecord} {n : ℕ} (h : decodeFrame input = some (r, n)) :
    8 + REC_FIXED ≤ n := by
  obtain ⟨h8, hn, hle, -, hpay⟩ := decodeFrame_eq_some_iff.mp h
  have hlen : (slice input 8 n).length = n - 8 := length_slice hle
  rw [decodePayload] at hpay
  split at hpay
  · cases hpay
  · omega

lemma length_framesOf_le (bytes : Bytes) : (framesOf bytes).length ≤ bytes.length / 69 := by
  have hmul := walCodec.toFrameDecoder.mul_length_frames_le le_of_decodeFrame bytes
  rw [← List.length_map Prod.fst, map_fst_framesOf, logOf, Nat.le_div_iff_mul_le (by decide)]
  rw [REC_FIXED] at hmul
  omega

/-- With a pass for each frame and one more, the loop ends, and as the one without checks does. -/
lemma recoverLoop?_eq (passes off : ℕ) (acc : MemKv × Recovered) (hoff : off ≤ bytes.length)
    (hpasses : (logOf (bytes.drop off)).length < passes) :
    recoverLoop? bytes passes off acc = some (recoverLoop bytes off acc) := by
  induction passes generalizing off acc with
  | zero => exact absurd hpasses (Nat.not_lt_zero _)
  | succ passes ih =>
    have hinput : slice bytes off bytes.length = bytes.drop off := by
      rw [slice, List.take_of_length_le (by rw [List.length_drop])]
    rw [recoverLoop?, slice?_eq hoff le_rfl, hinput, Option.bind_some, decodeFrame?_eq,
      Option.bind_some, recoverLoop_eq_foldl]
    cases hframe : decodeFrame (bytes.drop off) with
    | none => rw [logOf_of_none hframe, List.foldl_nil]
    | some p =>
      obtain ⟨r, n⟩ := p
      have hle := walCodec.le hframe
      rw [List.length_drop] at hle
      rw [logOf_of_some hframe, List.length_cons, List.drop_drop] at hpasses
      dsimp only
      rw [ih (off + n) _ (by omega) (Nat.lt_of_succ_lt_succ hpasses), recoverLoop_eq_foldl,
        logOf_of_some hframe, List.foldl_cons, List.drop_drop]

/-- The frames applied are counted. -/
lemma frames_foldl (recs : List WalRecord) (acc : MemKv × Recovered) :
    (recs.foldl replayFrame acc).2.frames = acc.2.frames + recs.length := by
  induction recs generalizing acc with
  | nil => rfl
  | cons r recs ih =>
    rw [List.foldl_cons, ih, List.length_cons, replayFrame]
    dsimp only
    omega

/-- Whatever the bytes of a log file are, replaying them ends, no slice is out of range, and it
applies no more frames than 69 bytes each leave room for; and whatever is appended to the file, the
frames that were there come first. -/
theorem replay_safe (kv : MemKv) (a : Bytes) :
    let start : MemKv × Recovered := (kv, { highWatermark := 0, idem := ∅, frames := 0 })
    let done := ((framesOf a).map Prod.fst).foldl replayFrame start
    recoverLoop? a (a.length / 69 + 1) 0 start = some done ∧ recover kv (.ok a) = .ok done ∧
      done.2.frames = (framesOf a).length ∧ (framesOf a).length ≤ a.length / 69 ∧
      ∀ b, framesOf a <+: framesOf (a ++ b) := by
  intro start done
  have hle := length_framesOf_le a
  have hloop : recoverLoop a 0 start = done := by
    rw [recoverLoop_eq_foldl, List.drop_zero, ← map_fst_framesOf]
  have hlen : (logOf a).length = (framesOf a).length := by
    rw [← map_fst_framesOf, List.length_map]
  refine ⟨?_, congrArg Except.ok hloop, ?_, hle,
    fun b => walCodec.toFrameDecoder.sized.frames_prefix_append a b⟩
  · rw [← hloop]
    refine recoverLoop?_eq _ 0 start (Nat.zero_le _) ?_
    rw [List.drop_zero]
    omega
  · rw [frames_foldl, List.length_map]
    exact Nat.zero_add _

end GrainStore
