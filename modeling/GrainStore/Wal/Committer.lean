import Mathlib
import GrainStore.Cdc
import GrainStore.Hlc
import GrainStore.Keys
import GrainStore.Kv
import GrainStore.Wal.Codec

/-!
# The group committer

A single committer owns the log file.  It drains the queued requests into one batch, answers
repeated idempotency keys, assigns commit timestamps, encodes all frames, performs one write
and one `fsync`, applies the batch to the KV, publishes it and acks.

`Committer.scanReq` is one iteration of the loop over the batch, `Committer.commitBatch` the
whole body when the write succeeds, and `Committer.runBatches` the run over a sequence of
batches.  `Committer.failBatch` is what a failing write leaves.  The same body cut into single
steps, with everything a crash or a reader can see in between, is in `Wal/Machine`.
-/

namespace GrainStore

open FixedWidth

/-- The dedup map of the committer. -/
abbrev IdemMap := Std.ExtTreeMap U128 U64

/-- A queued request with the channel its caller waits on. -/
structure Pending where
  ack : ℕ
  req : WriteReq
  deriving DecidableEq, Repr

/-- The record the committer appends for a request it gave the timestamp `seq`. -/
def WriteReq.record (req : WriteReq) (seq : U64) : WalRecord :=
  { seq, sid := req.sid, pred := req.pred, op := req.op, c := req.c, tValid := req.tValid,
    idemKey := req.idemKey, val := req.val }

/-- The change record of a committed record. -/
def WalRecord.cdc (r : WalRecord) : CdcRecord :=
  { sid := r.sid, pred := r.pred, seq := r.seq, op := r.op, val := r.val }

/-- The KV key of a record. -/
def WalRecord.key (r : WalRecord) : Bytes := grainKey r.sid r.pred r.seq

/-- The KV value of a record. -/
def WalRecord.value (r : WalRecord) : Bytes := encodeValue r.op r.val r.c r.tValid

/-- The records of the requests that were given a timestamp in a batch. -/
def recordsOf (acks : List (Pending × U64)) : List WalRecord :=
  acks.map fun a => a.1.req.record a.2

/-- The accumulators of one batch: the encode buffer, the KV puts, the pending acks, the change
records and the largest timestamp.  They are filled in step, one entry for each request that
was given a timestamp. -/
structure Batch where
  buf : Bytes
  puts : List (Bytes × Bytes)
  acks : List (Pending × U64)
  cdcRecs : List CdcRecord
  maxSeq : U64
  buf_eq : buf = (recordsOf acks).flatMap encodeFrame
  puts_eq : puts = (recordsOf acks).map fun r => (r.key, r.value)
  cdcRecs_eq : cdcRecs = (recordsOf acks).map WalRecord.cdc

namespace Batch

/-- The empty accumulators, at the clock's current time. -/
def start (now : U64) : Batch :=
  { buf := [], puts := [], acks := [], cdcRecs := [], maxSeq := now
    buf_eq := rfl, puts_eq := rfl, cdcRecs_eq := rfl }

/-- Add a request that was given the timestamp `seq`. -/
def push (b : Batch) (pw : Pending) (seq : U64) : Batch :=
  let r := pw.req.record seq
  { buf := b.buf ++ encodeFrame r
    puts := b.puts ++ [(grainKey r.sid r.pred seq,
      encodeValue pw.req.op pw.req.val pw.req.c pw.req.tValid)]
    acks := b.acks ++ [(pw, seq)]
    cdcRecs := b.cdcRecs ++
      [{ sid := pw.req.sid, pred := pw.req.pred, seq, op := pw.req.op, val := pw.req.val }]
    maxSeq := max b.maxSeq seq
    buf_eq := by simp [b.buf_eq, recordsOf, r]
    puts_eq := by simp [b.puts_eq, recordsOf, r, WalRecord.key, WalRecord.value, WriteReq.record]
    cdcRecs_eq := by simp [b.cdcRecs_eq, recordsOf, WalRecord.cdc, WriteReq.record] }

/-- The records of a batch. -/
def records (b : Batch) : List WalRecord := recordsOf b.acks

@[simp] lemma acks_start (now : U64) : (start now).acks = [] := rfl

@[simp] lemma acks_push (b : Batch) (pw : Pending) (seq : U64) :
    (b.push pw seq).acks = b.acks ++ [(pw, seq)] := rfl

@[simp] lemma maxSeq_push (b : Batch) (pw : Pending) (seq : U64) :
    (b.push pw seq).maxSeq = max b.maxSeq seq := rfl

@[simp] lemma records_push (b : Batch) (pw : Pending) (seq : U64) :
    (b.push pw seq).records = b.records ++ [pw.req.record seq] := by
  simp [records, recordsOf]

end Batch

/-- Everything the committer owns or shares: the synced bytes of the log file, the bytes a
failed write left behind them, the KV, the clock, the dedup map, the health flag, the change
publisher, and the acks sent so far with the request each one answers. -/
structure Committer where
  file : Bytes
  tail : Bytes
  kv : MemKv
  hlc : HlcOracle
  idem : IdemMap
  healthy : Bool
  cdc : CdcPublisher
  sent : List (Pending × Except Error U64)

namespace Committer

/-- One iteration of the loop over a batch: a repeated idempotency key is answered with the
original timestamp, a new one is given the next timestamp.  `none` is the overflow panic of
the clock. -/
def scanReq (s : Committer) (b : Batch) (pw : Pending) : Option (Committer × Batch) :=
  match s.idem[pw.req.idemKey]? with
  | some orig => some ({ s with sent := s.sent ++ [(pw, .ok orig)] }, b)
  | none =>
    match s.hlc.next with
    | none => none
    | some (seq, hlc) =>
      some ({ s with hlc := hlc, idem := s.idem.insert pw.req.idemKey seq }, b.push pw seq)

/-- The loop over a batch. -/
def scan (s : Committer) (b : Batch) : List Pending → Option (Committer × Batch)
  | [] => some (s, b)
  | pw :: rest =>
    match scanReq s b pw with
    | none => none
    | some (s', b') => scan s' b' rest

/-- The successful write and `fsync` of a batch. -/
def sync (s : Committer) (b : Batch) : Committer := { s with file := s.file ++ b.buf }

/-- Apply a batch to the KV and write the applied-sequence metadata. -/
def applyBatch (s : Committer) (b : Batch) : Committer :=
  let kv := b.puts.foldl (fun kv p => kv.putGrain p.1 p.2) s.kv
  { s with kv := kv.putMeta META_APPLIED_SEQ (toBeBytes b.maxSeq) }

/-- Publish a batch to the subscribers. -/
def publishBatch (s : Committer) (b : Batch) : Committer :=
  { s with cdc := b.cdcRecs.foldl CdcPublisher.publish s.cdc }

/-- Ack a batch. -/
def ackBatch (s : Committer) (b : Batch) : Committer :=
  { s with sent := s.sent ++ b.acks.map fun a => (a.1, .ok a.2) }

/-- The part of the loop body after the scan, when the write succeeds: durability, then the
KV, then the change stream, then the acks. -/
def finish (s : Committer) (b : Batch) : Committer :=
  (((s.sync b).applyBatch b).publishBatch b).ackBatch b

/-- The loop body on one batch, when the write succeeds. -/
def commitBatch (s : Committer) (batch : List Pending) : Option Committer :=
  (s.scan (Batch.start s.hlc.now) batch).map fun p => p.1.finish p.2

/-- The loop over a sequence of batches, when all writes succeed. -/
def runBatches (s : Committer) : List (List Pending) → Option Committer
  | [] => some s
  | batch :: rest =>
    match s.commitBatch batch with
    | none => none
    | some s' => s'.runBatches rest

/-- What a failing write of `written` bytes of the batch leaves: the committer is no longer
healthy, and every pending ack gets the error. -/
def failBatch (s : Committer) (b : Batch) (e : IoError) (written : ℕ) : Committer :=
  { s with
    tail := b.buf.take written
    healthy := false
    sent := s.sent ++ b.acks.map fun a => (a.1, .error (.io e)) }

/-! ## What one scanned request does -/

/-- A scanned request is either a repeat, answered with the timestamp on record, or new, and
then given the next timestamp and added to the batch. -/
lemma scanReq_cases {s s' : Committer} {b b' : Batch} {pw : Pending}
    (h : s.scanReq b pw = some (s', b')) :
    (∃ orig, s.idem[pw.req.idemKey]? = some orig ∧ b' = b ∧
      s' = { s with sent := s.sent ++ [(pw, .ok orig)] }) ∨
    (s.idem[pw.req.idemKey]? = none ∧ s.hlc.last.toNat + 1 < 2 ^ 64 ∧
      b' = b.push pw (s.hlc.last + 1) ∧
      s' = { s with
        hlc := ⟨s.hlc.last + 1⟩
        idem := s.idem.insert pw.req.idemKey (s.hlc.last + 1) }) := by
  unfold scanReq at h
  cases hidem : s.idem[pw.req.idemKey]? with
  | some orig =>
    rw [hidem] at h
    obtain ⟨rfl, rfl⟩ := Prod.mk.inj (Option.some.inj h)
    exact Or.inl ⟨orig, rfl, rfl, rfl⟩
  | none =>
    rw [hidem] at h
    cases hnext : s.hlc.next with
    | none => simp [hnext] at h
    | some p =>
      obtain ⟨hlt, rfl⟩ := HlcOracle.next_eq_some hnext
      rw [hnext] at h
      obtain ⟨rfl, rfl⟩ := Prod.mk.inj (Option.some.inj h)
      exact Or.inr ⟨rfl, hlt, rfl, rfl⟩

/-- A repeated idempotency key is answered with the timestamp on record. -/
lemma scanReq_of_some {s : Committer} {pw : Pending} {orig : U64}
    (h : s.idem[pw.req.idemKey]? = some orig) (b : Batch) :
    s.scanReq b pw = some ({ s with sent := s.sent ++ [(pw, .ok orig)] }, b) := by
  simp [scanReq, h]

/-- A new idempotency key is given the next timestamp while the clock has one. -/
lemma scanReq_of_none {s : Committer} {pw : Pending} (h : s.idem[pw.req.idemKey]? = none)
    (hlt : s.hlc.last.toNat + 1 < 2 ^ 64) (b : Batch) :
    s.scanReq b pw =
      some ({ s with
          hlc := ⟨s.hlc.last + 1⟩
          idem := s.idem.insert pw.req.idemKey (s.hlc.last + 1) },
        b.push pw (s.hlc.last + 1)) := by
  simp [scanReq, h, HlcOracle.next_of_lt hlt]

end Committer

end GrainStore
