import Mathlib
import GrainStore.Log

/-!
# Crash recovery

The KV is volatile; opening a store replays every intact frame of the log into a fresh KV and
reconstructs the dedup map and the clock's high-watermark.

`recover_ok` says what recovery computes: the meaning, in the sense of `GrainStore.Log`, of
the records that scan off the front of the file.
-/

namespace GrainStore

/-- Result of replaying the log. -/
structure Recovered where
  /-- Highest commit timestamp seen. -/
  highWatermark : U64
  /-- `idem_key → commit seq`. -/
  idem : IdemMap
  /-- Number of intact frames applied. -/
  frames : ℕ

/-- Apply one decoded record: the KV, the first-wins dedup map, the high-watermark. -/
def replayFrame (acc : MemKv × Recovered) (r : WalRecord) : MemKv × Recovered :=
  (acc.1.putGrain (grainKey r.sid r.pred r.seq) (encodeValue r.op r.val r.c r.tValid),
    { frames := acc.2.frames + 1
      idem := acc.2.idem.insertIfNew r.idemKey r.seq
      highWatermark := max acc.2.highWatermark r.seq })

/-- The replay loop, at offset `off` of the file. -/
def recoverLoop (bytes : Bytes) (off : ℕ) (acc : MemKv × Recovered) : MemKv × Recovered :=
  match _h : decodeFrame (bytes.drop off) with
  | none => acc
  | some (r, n) => recoverLoop bytes (off + n) (replayFrame acc r)
termination_by bytes.length - off
decreasing_by
  have hpos := walCodec.pos _h
  have hle := walCodec.le _h
  rw [List.length_drop] at hle
  omega

/-- Replay a log into `kv`.  A missing file is treated as an empty log. -/
def recover (kv : MemKv) (read : Except IoError Bytes) : Except Error (MemKv × Recovered) :=
  let start : Recovered := { highWatermark := 0, idem := ∅, frames := 0 }
  match read with
  | .ok bytes => .ok (recoverLoop bytes 0 (kv, start))
  | .error e =>
    match e.kind with
    | .notFound => .ok (recoverLoop [] 0 (kv, start))
    | .other => .error (.io e)

/-- The records that scan off the front of a file. -/
def logOf (bytes : Bytes) : List WalRecord := walCodec.frames bytes

lemma logOf_of_none {bytes : Bytes} (h : decodeFrame bytes = none) : logOf bytes = [] :=
  walCodec.toFrameDecoder.frames_of_none h

lemma logOf_of_some {bytes : Bytes} {r : WalRecord} {n : ℕ}
    (h : decodeFrame bytes = some (r, n)) : logOf bytes = r :: logOf (bytes.drop n) :=
  walCodec.toFrameDecoder.frames_of_some h

/-- Frames scan back to their records, and then the scan goes on. -/
lemma logOf_flatMap_append {recs : List WalRecord} (h : ∀ r ∈ recs, r.Fits) (ys : Bytes) :
    logOf (recs.flatMap encodeFrame ++ ys) = recs ++ logOf ys :=
  walCodec.frames_flatMap_append h ys

lemma logOf_flatMap {recs : List WalRecord} (h : ∀ r ∈ recs, r.Fits) :
    logOf (recs.flatMap encodeFrame) = recs := by
  have happ := logOf_flatMap_append h []
  have hnil : logOf [] = [] := logOf_of_none rfl
  rwa [hnil, List.append_nil, List.append_nil] at happ

lemma logOf_encodeFrame {r : WalRecord} (h : r.Fits) : logOf (encodeFrame r) = [r] := by
  have hframes : logOf ([r].flatMap encodeFrame) = [r] :=
    logOf_flatMap fun r' hr' => List.mem_singleton.mp hr' ▸ h
  rwa [List.flatMap_singleton] at hframes

/-- The replay loop folds over the records that scan off the rest of the file. -/
lemma recoverLoop_eq_foldl (bytes : Bytes) (off : ℕ) (acc : MemKv × Recovered) :
    recoverLoop bytes off acc = (logOf (bytes.drop off)).foldl replayFrame acc := by
  induction hm : bytes.length - off using Nat.strong_induction_on generalizing off acc with
  | _ m ih =>
    rw [recoverLoop]
    split
    · rename_i hnone
      rw [logOf_of_none hnone, List.foldl_nil]
    · rename_i r n hsome
      have hpos := walCodec.pos hsome
      have hle := walCodec.le hsome
      rw [List.length_drop] at hle
      rw [ih _ (by omega) _ _ rfl, logOf_of_some hsome, List.foldl_cons, List.drop_drop]

/-- Folding the replay step over a log, from the empty store, computes what the log means. -/
lemma foldl_replayFrame (recs : List WalRecord) :
    recs.foldl replayFrame (MemKv.new, { highWatermark := 0, idem := ∅, frames := 0 }) =
      (⟨WalLog.grains recs, ∅⟩,
        { highWatermark := WalLog.clock recs, idem := WalLog.idem recs,
          frames := recs.length }) := by
  induction recs using List.reverseRecOn with
  | nil => rfl
  | append_singleton recs r ih =>
    rw [List.foldl_append, List.foldl_cons, List.foldl_nil, ih, replayFrame,
      WalLog.grains_concat, WalLog.clock_concat, WalLog.idem_concat, List.length_append]
    rfl

/-- Recovery computes the meaning of the records that scan off the front of the file. -/
theorem recover_ok (bytes : Bytes) :
    recover MemKv.new (.ok bytes) =
      .ok (⟨WalLog.grains (logOf bytes), ∅⟩,
        { highWatermark := WalLog.clock (logOf bytes), idem := WalLog.idem (logOf bytes),
          frames := (logOf bytes).length }) := by
  simp only [recover]
  rw [recoverLoop_eq_foldl, List.drop_zero, foldl_replayFrame]

end GrainStore
