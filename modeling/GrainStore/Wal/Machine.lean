import Mathlib
import GrainStore.Foundation.Trace
import GrainStore.Truth
import GrainStore.Wal.GroupCommit

/-!
# The committer in single steps

The body of the committer loop cut into the steps that readers, callers and crashes can see
apart: the scan of one request, the write, the `fsync`, each KV put, the metadata, each
published record, each ack.  The environment chooses the batches, whether a write fails and how
much of it reached the file, and when the channel closes.

`run_of_commitBatch` says that the batch at a time semantics of `Wal/Committer` is a run of this
machine.
-/

namespace GrainStore

open FixedWidth

/-- Where the committer is in its loop. -/
inductive Phase where
  /-- Waiting for a request. -/
  | idle
  /-- In the loop over the batch, with `rest` still to be scanned. -/
  | scanning (rest : List Pending) (b : Batch)
  /-- The batch is being written and is not yet synced. -/
  | writing (b : Batch)
  /-- The batch is synced, with `puts` still to be applied to the KV. -/
  | applying (puts : List (Bytes × Bytes)) (b : Batch)
  /-- The batch is applied, with `recs` still to be published. -/
  | publishing (recs : List CdcRecord) (b : Batch)
  /-- The batch is published, with `acks` still to be sent. -/
  | acking (acks : List (Pending × U64))
  /-- The write failed, with the errors for `acks` still to be sent. -/
  | failing (e : IoError) (acks : List (Pending × U64))
  /-- The committer has ended. -/
  | stopped

/-- The committer at a point of its loop. -/
structure Machine where
  st : Committer
  phase : Phase

/-- What the environment chooses at a step. -/
inductive Event where
  /-- A batch arrives: the first request and the ones queued behind it. -/
  | recv (first : Pending) (more : List Pending)
  /-- The committer goes on; a write and `fsync` under way succeed. -/
  | tick
  /-- The write or the `fsync` fails with `written` bytes of the batch in the file. -/
  | fail (e : IoError) (written : ℕ)
  /-- All senders are gone. -/
  | close

namespace Machine

/-- One step of the committer. -/
def next (m : Machine) (e : Event) : Option Machine :=
  match m.phase, e with
  | .idle, .recv first more =>
    some { m with phase := .scanning (first :: more) (Batch.start m.st.hlc.now) }
  | .idle, .close => some { m with phase := .stopped }
  | .scanning (pw :: rest) b, .tick =>
    match m.st.scanReq b pw with
    | some (s, b) => some ⟨s, .scanning rest b⟩
    | none => some { m with phase := .stopped }
  | .scanning [] b, .tick =>
    if b.buf = [] then some { m with phase := .applying b.puts b }
    else some { m with phase := .writing b }
  | .writing b, .tick => some ⟨m.st.sync b, .applying b.puts b⟩
  | .writing b, .fail e written =>
    some ⟨{ m.st with tail := b.buf.take written, healthy := false }, .failing e b.acks⟩
  | .applying ((k, v) :: puts) b, .tick =>
    some ⟨{ m.st with kv := m.st.kv.putGrain k v }, .applying puts b⟩
  | .applying [] b, .tick =>
    some ⟨{ m.st with kv := m.st.kv.putMeta META_APPLIED_SEQ (toBeBytes b.maxSeq) },
      .publishing b.cdcRecs b⟩
  | .publishing (r :: recs) b, .tick =>
    some ⟨{ m.st with cdc := m.st.cdc.publish r }, .publishing recs b⟩
  | .publishing [] b, .tick => some { m with phase := .acking b.acks }
  | .acking (a :: acks), .tick =>
    some ⟨{ m.st with sent := m.st.sent ++ [(a.1, .ok a.2)] }, .acking acks⟩
  | .acking [], .tick => some { m with phase := .idle }
  | .failing e (a :: acks), .tick =>
    some ⟨{ m.st with sent := m.st.sent ++ [(a.1, .error (.io e))] }, .failing e acks⟩
  | .failing _ [], .tick => some { m with phase := .stopped }
  | _, _ => none

/-- The steps of the committer, one constructor for each kind of step. -/
inductive Step : Machine → Event → Machine → Prop
  | recv (s : Committer) (first : Pending) (more : List Pending) :
    Step ⟨s, .idle⟩ (.recv first more) ⟨s, .scanning (first :: more) (Batch.start s.hlc.now)⟩
  | close (s : Committer) : Step ⟨s, .idle⟩ .close ⟨s, .stopped⟩
  | scan {s s' : Committer} {b b' : Batch} {pw : Pending} (rest : List Pending) :
    s.scanReq b pw = some (s', b') →
      Step ⟨s, .scanning (pw :: rest) b⟩ .tick ⟨s', .scanning rest b'⟩
  | panic {s : Committer} {b : Batch} {pw : Pending} (rest : List Pending) :
    s.scanReq b pw = none → Step ⟨s, .scanning (pw :: rest) b⟩ .tick ⟨s, .stopped⟩
  | skip (s : Committer) {b : Batch} :
    b.buf = [] → Step ⟨s, .scanning [] b⟩ .tick ⟨s, .applying b.puts b⟩
  | write (s : Committer) {b : Batch} :
    b.buf ≠ [] → Step ⟨s, .scanning [] b⟩ .tick ⟨s, .writing b⟩
  | sync (s : Committer) (b : Batch) :
    Step ⟨s, .writing b⟩ .tick ⟨s.sync b, .applying b.puts b⟩
  | fail (s : Committer) (b : Batch) (e : IoError) (written : ℕ) :
    Step ⟨s, .writing b⟩ (.fail e written)
      ⟨{ s with tail := b.buf.take written, healthy := false }, .failing e b.acks⟩
  | put (s : Committer) (k v : Bytes) (puts : List (Bytes × Bytes)) (b : Batch) :
    Step ⟨s, .applying ((k, v) :: puts) b⟩ .tick
      ⟨{ s with kv := s.kv.putGrain k v }, .applying puts b⟩
  | putMeta (s : Committer) (b : Batch) :
    Step ⟨s, .applying [] b⟩ .tick
      ⟨{ s with kv := s.kv.putMeta META_APPLIED_SEQ (toBeBytes b.maxSeq) },
        .publishing b.cdcRecs b⟩
  | publish (s : Committer) (r : CdcRecord) (recs : List CdcRecord) (b : Batch) :
    Step ⟨s, .publishing (r :: recs) b⟩ .tick
      ⟨{ s with cdc := s.cdc.publish r }, .publishing recs b⟩
  | published (s : Committer) (b : Batch) :
    Step ⟨s, .publishing [] b⟩ .tick ⟨s, .acking b.acks⟩
  | ack (s : Committer) (a : Pending × U64) (acks : List (Pending × U64)) :
    Step ⟨s, .acking (a :: acks)⟩ .tick
      ⟨{ s with sent := s.sent ++ [(a.1, .ok a.2)] }, .acking acks⟩
  | acked (s : Committer) : Step ⟨s, .acking []⟩ .tick ⟨s, .idle⟩
  | error (s : Committer) (e : IoError) (a : Pending × U64) (acks : List (Pending × U64)) :
    Step ⟨s, .failing e (a :: acks)⟩ .tick
      ⟨{ s with sent := s.sent ++ [(a.1, .error (.io e))] }, .failing e acks⟩
  | failed (s : Committer) (e : IoError) : Step ⟨s, .failing e []⟩ .tick ⟨s, .stopped⟩

/-- Every step is one of these kinds. -/
theorem step_of_next {m m' : Machine} {e : Event} (h : m.next e = some m') : Step m e m' := by
  obtain ⟨s, phase⟩ := m
  unfold next at h
  dsimp only at h
  split at h
  case h_3 =>
    split at h
    · obtain rfl := Option.some.inj h
      exact Step.scan _ ‹_›
    · obtain rfl := Option.some.inj h
      exact Step.panic _ ‹_›
  case h_4 =>
    split at h
    · obtain rfl := Option.some.inj h
      exact Step.skip _ ‹_›
    · obtain rfl := Option.some.inj h
      exact Step.write _ ‹_›
  case h_15 => simp at h
  all_goals
    obtain rfl := Option.some.inj h
    constructor

/-- The committer that opening a log file starts. -/
def start (disk : Bytes) : Machine := ⟨TruthStore.openLog disk, .idle⟩

/-- The bytes of the batch under way that are not synced. -/
def unsynced (m : Machine) : Bytes :=
  match m.phase with
  | .writing b => b.buf
  | _ => m.st.tail

/-- What a crash leaves in the file: the synced bytes and `n` bytes, at most, of the batch under
way. -/
def crash (m : Machine) (n : ℕ) : Bytes := m.st.file ++ m.unsynced.take n

/-- The runs of the committer from a log file. -/
abbrev RunFrom (disk : Bytes) : List (Machine × Event) → Machine → Prop :=
  Trace.Run next (start disk)

/-! ## A batch at a time -/

open Trace

variable {s s' : Committer} {b b' : Batch}

/-- The scan of a batch, request by request. -/
lemma reaches_of_scan {reqs : List Pending} (h : s.scan b reqs = some (s', b')) :
    Reaches next ⟨s, .scanning reqs b⟩ ⟨s', .scanning [] b'⟩ := by
  induction reqs generalizing s b with
  | nil =>
    obtain ⟨rfl, rfl⟩ := Prod.mk.inj (Option.some.inj h)
    exact Reaches.refl _
  | cons pw rest ih =>
    rw [Committer.scan] at h
    cases hreq : s.scanReq b pw with
    | none => simp [hreq] at h
    | some p =>
      rw [hreq] at h
      have hstep : next ⟨s, .scanning (pw :: rest) b⟩ .tick = some ⟨p.1, .scanning rest p.2⟩ := by
        simp [next, hreq]
      exact Reaches.head hstep (ih h)

/-- The KV puts of a batch, one by one. -/
lemma reaches_of_puts (puts : List (Bytes × Bytes)) (s : Committer) (b : Batch) :
    Reaches next ⟨s, .applying puts b⟩
      ⟨{ s with kv := puts.foldl (fun kv p => kv.putGrain p.1 p.2) s.kv }, .applying [] b⟩ := by
  induction puts generalizing s with
  | nil => exact Reaches.refl _
  | cons p puts ih =>
    have hstep : next ⟨s, .applying (p :: puts) b⟩ .tick =
        some ⟨{ s with kv := s.kv.putGrain p.1 p.2 }, .applying puts b⟩ := rfl
    exact Reaches.head hstep (ih _)

/-- The change records of a batch, one by one. -/
lemma reaches_of_publish (recs : List CdcRecord) (s : Committer) (b : Batch) :
    Reaches next ⟨s, .publishing recs b⟩
      ⟨{ s with cdc := recs.foldl CdcPublisher.publish s.cdc }, .publishing [] b⟩ := by
  induction recs generalizing s with
  | nil => exact Reaches.refl _
  | cons r recs ih =>
    have hstep : next ⟨s, .publishing (r :: recs) b⟩ .tick =
        some ⟨{ s with cdc := s.cdc.publish r }, .publishing recs b⟩ := rfl
    exact Reaches.head hstep (ih _)

/-- The acks of a batch, one by one. -/
lemma reaches_of_acks (acks : List (Pending × U64)) (s : Committer) :
    Reaches next ⟨s, .acking acks⟩
      ⟨{ s with sent := s.sent ++ acks.map fun a => (a.1, .ok a.2) }, .idle⟩ := by
  induction acks generalizing s with
  | nil =>
    have hstep : next ⟨s, .acking []⟩ .tick = some ⟨s, .idle⟩ := rfl
    rw [List.map_nil, List.append_nil]
    exact Reaches.head hstep (Reaches.refl _)
  | cons a acks ih =>
    have hstep : next ⟨s, .acking (a :: acks)⟩ .tick =
        some ⟨{ s with sent := s.sent ++ [(a.1, .ok a.2)] }, .acking acks⟩ := rfl
    rw [List.map_cons, List.append_cons]
    exact Reaches.head hstep (ih _)

/-- The errors of a failed batch, one by one. -/
lemma reaches_of_errors (e : IoError) (acks : List (Pending × U64)) (s : Committer) :
    Reaches next ⟨s, .failing e acks⟩
      ⟨{ s with sent := s.sent ++ acks.map fun a => (a.1, .error (.io e)) }, .stopped⟩ := by
  induction acks generalizing s with
  | nil =>
    have hstep : next ⟨s, .failing e []⟩ .tick = some ⟨s, .stopped⟩ := rfl
    rw [List.map_nil, List.append_nil]
    exact Reaches.head hstep (Reaches.refl _)
  | cons a acks ih =>
    have hstep : next ⟨s, .failing e (a :: acks)⟩ .tick =
        some ⟨{ s with sent := s.sent ++ [(a.1, .error (.io e))] }, .failing e acks⟩ := rfl
    rw [List.map_cons, List.append_cons]
    exact Reaches.head hstep (ih _)

/-- A batch that is scanned is synced next, when the write succeeds. -/
lemma reaches_of_sync (s : Committer) (b : Batch) :
    Reaches next ⟨s, .scanning [] b⟩ ⟨s.sync b, .applying b.puts b⟩ := by
  by_cases hbuf : b.buf = []
  · -- an empty buffer is not written, and syncing it would add nothing
    have hstep : next ⟨s, .scanning [] b⟩ .tick = some ⟨s.sync b, .applying b.puts b⟩ := by
      simp [next, hbuf, Committer.sync]
    exact Reaches.head hstep (Reaches.refl _)
  · have hwrite : next ⟨s, .scanning [] b⟩ .tick = some ⟨s, .writing b⟩ := by
      simp [next, hbuf]
    have hsync : next ⟨s, .writing b⟩ .tick = some ⟨s.sync b, .applying b.puts b⟩ := rfl
    exact Reaches.head hwrite (Reaches.head hsync (Reaches.refl _))

/-- The part of the loop body after the scan. -/
lemma reaches_of_finish (s : Committer) (b : Batch) :
    Reaches next ⟨s, .scanning [] b⟩ ⟨s.finish b, .idle⟩ := by
  have hmeta : next ⟨{ s.sync b with kv := b.puts.foldl (fun kv p => kv.putGrain p.1 p.2) s.kv },
      .applying [] b⟩ .tick = some ⟨(s.sync b).applyBatch b, .publishing b.cdcRecs b⟩ := rfl
  have hack : next ⟨((s.sync b).applyBatch b).publishBatch b, .publishing [] b⟩ .tick =
      some ⟨((s.sync b).applyBatch b).publishBatch b, .acking b.acks⟩ := rfl
  refine (reaches_of_sync s b).trans ((reaches_of_puts b.puts (s.sync b) b).trans ?_)
  refine Reaches.head hmeta ((reaches_of_publish b.cdcRecs ((s.sync b).applyBatch b) b).trans ?_)
  exact Reaches.head hack (reaches_of_acks b.acks (((s.sync b).applyBatch b).publishBatch b))

/-- Committing a batch is a run of the machine from idle to idle. -/
theorem reaches_of_commitBatch {first : Pending} {more : List Pending}
    (h : s.commitBatch (first :: more) = some s') : Reaches next ⟨s, .idle⟩ ⟨s', .idle⟩ := by
  obtain ⟨⟨s₁, b⟩, hscan, rfl⟩ := Option.map_eq_some_iff.mp h
  have hrecv : next ⟨s, .idle⟩ (.recv first more) =
      some ⟨s, .scanning (first :: more) (Batch.start s.hlc.now)⟩ := rfl
  exact Reaches.head hrecv ((reaches_of_scan hscan).trans (reaches_of_finish s₁ b))

/-- A batch whose write fails is a run of the machine that ends the committer. -/
theorem reaches_of_failBatch {first : Pending} {more : List Pending}
    (h : s.scan (Batch.start s.hlc.now) (first :: more) = some (s', b)) (hbuf : b.buf ≠ [])
    (e : IoError) (written : ℕ) :
    Reaches next ⟨s, .idle⟩ ⟨s'.failBatch b e written, .stopped⟩ := by
  have hrecv : next ⟨s, .idle⟩ (.recv first more) =
      some ⟨s, .scanning (first :: more) (Batch.start s.hlc.now)⟩ := rfl
  have hwrite : next ⟨s', .scanning [] b⟩ .tick = some ⟨s', .writing b⟩ := by
    simp [next, hbuf]
  have hfail : next ⟨s', .writing b⟩ (.fail e written) =
      some ⟨{ s' with tail := b.buf.take written, healthy := false }, .failing e b.acks⟩ := rfl
  refine Reaches.head hrecv ((reaches_of_scan h).trans (Reaches.head hwrite ?_))
  exact Reaches.head hfail (reaches_of_errors e b.acks _)

end Machine

end GrainStore
