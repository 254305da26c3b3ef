import Mathlib
import GrainStore.Query
import GrainStore.Wal.Machine

/-!
# The engine

`GrainEngine` bundles the truth store, a vector index and the selectivity catalog.  Its methods
are called one after the other here: a commit is a batch of one request, and the index is what
the materializer has made of the change stream so far.  What the committer and the materializer
do inside and beside a call is in `Wal/Machine` and `Engine/Sync`.
-/

namespace GrainStore

open FixedWidth

/-- The truth store behind calls made one after the other: its committer, and whether the
committer thread is still there. -/
structure TruthStore where
  committer : Committer
  running : Bool

namespace TruthStore

/-- The store that opening a log file gives. -/
def start (disk : Bytes) : TruthStore := ⟨openLog disk, true⟩

/-- Subscribe to the change stream. -/
def subscribe (t : TruthStore) : TruthStore :=
  { t with committer := { t.committer with cdc := t.committer.cdc.subscribe } }

/-- What the caller of the last request is told. -/
def answer (s : Committer) : Except Error U64 :=
  match s.sent.getLast? with
  | some a => a.2
  | none => .error .closed

/-- Durably commit one write.  `failure` is the error of the write or `fsync`, with the number of
bytes that reached the file. -/
def commit (t : TruthStore) (req : WriteReq) (failure : Option (IoError × ℕ)) :
    TruthStore × Except Error U64 :=
  if t.running then
    match t.committer.scan (Batch.start t.committer.hlc.now) [⟨t.committer.sent.length, req⟩] with
    | none => ({ t with running := false }, .error .closed)
    | some (s, b) =>
      match failure with
      | none => (⟨s.finish b, true⟩, answer (s.finish b))
      | some (e, written) =>
        -- nothing is written for a repeated key, so nothing can fail
        if b.buf = [] then (⟨s.finish b, true⟩, answer (s.finish b))
        else (⟨s.failBatch b e written, false⟩, answer (s.failBatch b e written))
  else (t, .error .closed)

/-- Read `(sid, pred)` in the latest committed state. -/
def read (t : TruthStore) (sid : Sid) (pred : PredId) : Except Error (Option Grain) :=
  get t.committer.kv t.committer.hlc sid pred .strong

/-- The committer between two calls: waiting, or gone. -/
def machine (t : TruthStore) : Machine := ⟨t.committer, if t.running then .idle else .stopped⟩

/-- A commit is a run of the committer. -/
theorem reaches_of_commit (t : TruthStore) (req : WriteReq) (failure : Option (IoError × ℕ)) :
    Trace.Reaches Machine.next t.machine (t.commit req failure).1.machine := by
  by_cases hrun : t.running
  · have hidle : t.machine = ⟨t.committer, .idle⟩ := by rw [machine, if_pos hrun]
    rw [hidle, commit, if_pos hrun]
    cases hscan : t.committer.scan (Batch.start t.committer.hlc.now)
        [⟨t.committer.sent.length, req⟩] with
    | none =>
      have hreq : t.committer.scanReq (Batch.start t.committer.hlc.now)
          ⟨t.committer.sent.length, req⟩ = none := by
        rw [Committer.scan] at hscan
        split at hscan
        · assumption
        · simp [Committer.scan] at hscan
      have hrecv : Machine.next ⟨t.committer, .idle⟩ (.recv ⟨t.committer.sent.length, req⟩ []) =
          some ⟨t.committer, .scanning [⟨t.committer.sent.length, req⟩]
            (Batch.start t.committer.hlc.now)⟩ := rfl
      have hpanic : Machine.next ⟨t.committer, .scanning [⟨t.committer.sent.length, req⟩]
          (Batch.start t.committer.hlc.now)⟩ .tick = some ⟨t.committer, .stopped⟩ := by
        simp [Machine.next, hreq]
      exact Trace.Reaches.head hrecv (Trace.Reaches.head hpanic (Trace.Reaches.refl _))
    | some p =>
      obtain ⟨s, b⟩ := p
      have hbatch : t.committer.commitBatch [⟨t.committer.sent.length, req⟩] =
          some (s.finish b) := by
        rw [Committer.commitBatch, hscan, Option.map_some]
      have hfinish : Trace.Reaches Machine.next ⟨t.committer, .idle⟩ ⟨s.finish b, .idle⟩ :=
        Machine.reaches_of_commitBatch hbatch
      cases failure with
      | none => exact hfinish
      | some f =>
        dsimp only
        by_cases hbuf : b.buf = []
        · rw [if_pos hbuf]
          exact hfinish
        · rw [if_neg hbuf]
          exact Machine.reaches_of_failBatch hscan hbuf f.1 f.2
  · rw [commit, if_neg hrun]
    exact Trace.Reaches.refl _

end TruthStore

/-- Per-write metadata. -/
structure WriteMeta where
  c : Confidence
  tValid : Hlc
  idemKey : U128
  deriving DecidableEq, Repr

/-- Encode a value as `[header bytes][vector]`. -/
def encodeValueWithHeader (header : Bytes) (vector : List F32) : Bytes :=
  header ++ vector.flatMap toLeBytes

/-- The embedder of the default engine: the value is `header` bytes and a vector of `dim` floats,
or it is not indexable. -/
def rawVectorEmbed (dim header : ℕ) (value : Bytes) : Option (List F32) :=
  if value.length ≠ header + dim * 4 then none
  else some ((List.range dim).map fun i =>
    fromLeBytes 32 ((value.drop (header + i * 4)).take 4))

/-- The engine: truth, vector plane and planner statistics, wired together. -/
structure GrainEngine (I : Type*) where
  truth : TruthStore
  index : I
  catalog : SelectivityCatalog

namespace GrainEngine

variable {I Q D : Type*}

/-- Open an engine on a log file, with an index: the materializer subscribes to the store. -/
def openWith (disk : Bytes) (index : I) : GrainEngine I :=
  { truth := (TruthStore.start disk).subscribe, index, catalog := SelectivityCatalog.new }

/-- The changes sent to the materializer since the open. -/
def stream (e : GrainEngine I) : List CdcRecord := e.truth.committer.cdc.received

/-- Write a `[header][vector]` grain; the header byte is counted before the commit. -/
def putVector (e : GrainEngine I) (sid : Sid) (pred : PredId) (header : Bytes)
    (vector : List F32) (wmeta : WriteMeta) (failure : Option (IoError × ℕ)) :
    GrainEngine I × Except Error Hlc :=
  let catalog := match header.head? with
    | some b0 => e.catalog.observe b0
    | none => e.catalog
  let value := encodeValueWithHeader header vector
  let committed := e.truth.commit
    (.put sid pred value wmeta.c wmeta.tValid wmeta.idemKey) failure
  ({ e with truth := committed.1, catalog }, committed.2)

/-- Write an arbitrary value. -/
def putRaw (e : GrainEngine I) (sid : Sid) (pred : PredId) (value : Bytes) (wmeta : WriteMeta)
    (failure : Option (IoError × ℕ)) : GrainEngine I × Except Error Hlc :=
  let committed := e.truth.commit
    (.put sid pred value wmeta.c wmeta.tValid wmeta.idemKey) failure
  ({ e with truth := committed.1 }, committed.2)

/-- Tombstone a grain. -/
def delete (e : GrainEngine I) (sid : Sid) (pred : PredId) (wmeta : WriteMeta)
    (failure : Option (IoError × ℕ)) : GrainEngine I × Except Error Hlc :=
  let committed := e.truth.commit (.delete sid pred wmeta.c wmeta.tValid wmeta.idemKey) failure
  ({ e with truth := committed.1 }, committed.2)

/-- The selectivity of a filter, from the catalog where the filter supports it. -/
def selectivity (e : GrainEngine I) : Filter → ℚ
  | .any => 1
  | .headerByteEq 0 value => (e.catalog.selectivity value).getD (1 / 2)
  | .headerByteEq _ _ => 1 / 2

/-- Run a mixed query with explicit parameters. -/
def query [LE D] [DecidableLE D] (vectors : VectorIndex I Q D) (e : GrainEngine I)
    (q : MixedQuery Q) (predicate : Grain → Bool) : Except Error (List (Ranked D)) :=
  nearJoinSelect e.truth.read vectors e.index q predicate

/-- Run a mixed query with the parameters the planner chooses. -/
def queryPlanned [LE D] [DecidableLE D] (vectors : VectorIndex I Q D) (e : GrainEngine I)
    (pred : PredId) (query : Q) (filter : Filter) (k : ℕ) (targetRecall : F64) :
    Except Error (List (Ranked D) × Plan) :=
  let plan := Planner.plan (e.selectivity filter) k targetRecall
  let mq : MixedQuery Q := { pred, query, k, ef := plan.ef, overFetch := plan.overFetch }
  match nearJoinSelect e.truth.read vectors e.index mq filter.eval with
  | .error err => .error err
  | .ok results => .ok (results, plan)

end GrainEngine

end GrainStore
