import Mathlib
import GrainStore.Recovery

/-!
# The truth store

Opening a store recovers the KV from the log; every read resolves the version visible at a
snapshot with a single seek.

`getAt_eq_visible` is what a snapshot read returns over the KV of any log: the version of the
log that the snapshot sees, and never an error.
-/

namespace GrainStore

/-- Read consistency selected by the caller's intent. -/
inductive ReadMode where
  /-- Read the latest committed state. -/
  | strong
  /-- Read as of a specific snapshot timestamp. -/
  | snapshot (ts : Hlc)
  deriving DecidableEq, Repr

/-- Open the log for appending and start the committer on it. -/
def Wal.open (file : Bytes) (kv : MemKv) (hlc : HlcOracle) (idem : IdemMap)
    (cdc : CdcPublisher) : Committer :=
  { file, tail := [], kv, hlc, idem, healthy := true, cdc, sent := [] }

namespace TruthStore

/-- Open the store, recovering from what reading the log file gave. -/
def openStore (read : Except IoError Bytes) : Except Error Committer :=
  match recover MemKv.new read with
  | .error e => .error e
  | .ok (kv, recovered) =>
    let file := match read with
      | .ok bytes => bytes
      | .error _ => []
    .ok (Wal.open file kv (HlcOracle.resumeFrom recovered.highWatermark) recovered.idem
      CdcPublisher.new)

/-- The version of `(sid, pred)` visible at `snapshot`: the largest `t_tx` not above it, or
`none` if that version is a tombstone or absent. -/
def getAt (kv : MemKv) (sid : Sid) (pred : PredId) (snapshot : Hlc) :
    Except Error (Option Grain) :=
  let target := seekTarget sid pred snapshot
  let pfx := grainPrefix sid pred
  match kv.seekGe target with
  | some (key, value) =>
    if pfx.isPrefixOf key then
      match decodeValue value with
      | .error e => .error e
      | .ok (op, c, tValid, bytes) =>
        if op = 1 then .ok none
        else
          let tTx := (tTxFromKey key).getD 0
          .ok (some { sid, pred, val := .bytes bytes, c, tValid, tTx })
    else .ok none
  | none => .ok none

/-- Current clock high-watermark (a valid "read latest" snapshot). -/
def now (hlc : HlcOracle) : Hlc := hlc.now

/-- Total number of stored versions across all keys. -/
def totalVersions (kv : MemKv) : ℕ := kv.grainCount

/-- Number of versions for one `(sid, pred)`. -/
def versionCount (kv : MemKv) (sid : Sid) (pred : PredId) : ℕ :=
  kv.prefixCount (grainPrefix sid pred)

/-- Read `(sid, pred)` under a read mode. -/
def get (kv : MemKv) (hlc : HlcOracle) (sid : Sid) (pred : PredId) (mode : ReadMode) :
    Except Error (Option Grain) :=
  let snap := match mode with
    | .strong => hlc.now
    | .snapshot ts => ts
  getAt kv sid pred snap

/-! ## Opening -/

/-- The committer that opening a log file with the given content starts. -/
def openLog (disk : Bytes) : Committer :=
  Wal.open disk ⟨WalLog.grains (logOf disk), ∅⟩ ⟨WalLog.clock (logOf disk)⟩
    (WalLog.idem (logOf disk)) CdcPublisher.new

/-- A log without records starts the committer on empty maps and a fresh clock. -/
lemma openLog_of_logOf_nil {disk : Bytes} (h : logOf disk = []) :
    openLog disk = Wal.open disk MemKv.new HlcOracle.new ∅ CdcPublisher.new := by
  rw [openLog, h]
  rfl

lemma openLog_nil :
    openLog [] = Wal.open [] MemKv.new HlcOracle.new ∅ CdcPublisher.new :=
  openLog_of_logOf_nil (logOf_of_none rfl)

/-- Opening a readable log file always succeeds. -/
theorem openStore_ok (disk : Bytes) : openStore (.ok disk) = .ok (openLog disk) := by
  rw [openStore, recover_ok]
  rfl

/-- Opening a missing log file is opening an empty one. -/
theorem openStore_notFound {e : IoError} (h : e.kind = .notFound) :
    openStore (.error e) = .ok (openLog []) := by
  rw [← openStore_ok]
  simp [openStore, recover, h]

/-! ## Snapshot reads -/

/-- The target of a snapshot read is not after a version's key exactly when the version is one
the snapshot may see, or belongs to a later `(sid, pred)`. -/
lemma compare_seekTarget {r : WalRecord} {sid : Sid} {pred : PredId} {t : Hlc} :
    (compare (seekTarget sid pred t) r.key).isLE ↔
      (compare sid r.sid).then (compare pred r.pred) = .lt ∨ WalLog.IsVersion sid pred t r := by
  rw [seekTarget, WalRecord.key, compare_grainKey, WalLog.IsVersion]
  cases h : (compare sid r.sid).then (compare pred r.pred) with
  | lt => simp
  | gt =>
    simp only [Ordering.then, Ordering.isLE, reduceCtorEq, false_or, Bool.false_eq_true,
      false_iff]
    rintro ⟨rfl, rfl, -⟩
    simp at h
  | eq =>
    rw [Ordering.then_eq_eq, compare_eq_iff_eq, compare_eq_iff_eq] at h
    obtain ⟨rfl, rfl⟩ := h
    simp [Ordering.then, OrderedMap.isLE_compare]

/-- The seek of a snapshot read finds the visible version of the log. -/
lemma seekGe_of_visible {kv : MemKv} {recs : List WalRecord} (hkv : kv.grains = WalLog.grains recs)
    {sid : Sid} {pred : PredId} {t : Hlc} {r : WalRecord}
    (h : WalLog.visible recs sid pred t = some r) :
    kv.seekGe (seekTarget sid pred t) = some (r.key, r.value) := by
  obtain ⟨-, hv, hg⟩ := WalLog.grains_of_visible h
  rw [MemKv.seekGe, hkv, OrderedMap.seekGE?_eq_some_iff]
  refine ⟨hg, compare_seekTarget.mpr (Or.inr hv), ?_⟩
  intro k v hk hle
  obtain ⟨r', hr', rfl, -⟩ := WalLog.exists_of_grains hk
  obtain ⟨hs, hp, -⟩ := hv
  rw [WalRecord.key, WalRecord.key, compare_grainKey, hs, hp]
  rcases compare_seekTarget.mp hle with hlt | hv'
  · rw [hlt]
    rfl
  · -- a version under the same prefix is not newer than the visible one
    have hseq : r'.seq ≤ r.seq := WalLog.seq_le_of_visible h r' hr' hv'
    rw [hv'.1, hv'.2.1]
    simpa [Ordering.then, OrderedMap.isLE_compare] using hseq

/-- Over the KV of a log, a snapshot read returns the version of the log that the snapshot sees,
and never an error. -/
theorem getAt_eq_visible {kv : MemKv} {recs : List WalRecord}
    (hkv : kv.grains = WalLog.grains recs) (sid : Sid) (pred : PredId) (t : Hlc) :
    getAt kv sid pred t = .ok ((WalLog.visible recs sid pred t).bind WalLog.grainOf) := by
  cases h : WalLog.visible recs sid pred t with
  | some r =>
    obtain ⟨-, ⟨rfl, rfl, -⟩, -⟩ := WalLog.grains_of_visible h
    have hpre : (grainPrefix r.sid r.pred).isPrefixOf r.key = true :=
      List.isPrefixOf_iff_prefix.mpr (grainPrefix_prefix_grainKey.mpr ⟨rfl, rfl⟩)
    have hts : tTxFromKey r.key = some r.seq := tTxFromKey_grainKey _ _ _
    rw [getAt, seekGe_of_visible hkv h, Option.bind_some, WalLog.grainOf, OP_DELETE]
    simp only [hpre, hts, if_true, WalRecord.value, decodeValue_encodeValue, Option.getD_some]
    by_cases hop : r.op = 1
    · rw [if_pos hop, if_pos hop]
    · rw [if_neg hop, if_neg hop]
  | none =>
    -- whatever the seek finds belongs to another `(sid, pred)`
    rw [Option.bind_none, getAt]
    cases hseek : kv.seekGe (seekTarget sid pred t) with
    | none => simp only
    | some e =>
      obtain ⟨k, v⟩ := e
      rw [MemKv.seekGe, hkv, OrderedMap.seekGE?_eq_some_iff] at hseek
      obtain ⟨hk, hle, -⟩ := hseek
      obtain ⟨r, hr, rfl, -⟩ := WalLog.exists_of_grains hk
      have hnot := WalLog.visible_eq_none_iff.mp h r hr
      have hpre : ¬(grainPrefix sid pred).isPrefixOf r.key = true := by
        rw [List.isPrefixOf_iff_prefix, WalRecord.key, grainPrefix_prefix_grainKey]
        rintro ⟨hs, hp⟩
        rcases compare_seekTarget.mp hle with hlt | hv
        · simp [hs, hp] at hlt
        · exact hnot hv
      simp only [hpre]
      rfl

end TruthStore

end GrainStore
