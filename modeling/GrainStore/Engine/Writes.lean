import Mathlib
import GrainStore.Engine.History
import GrainStore.Engine.LogStore

/-!
# Write histories

An engine behind a history of write calls of all kinds, failing ones included: its truth store
shows the log of the history (`GrainEngine.shows_writeAll`), and its index is what the materializer
makes of the change stream.
-/

namespace GrainStore

/-- A write call of the engine. -/
inductive EngineWrite where
  | putVector (p : VectorPut)
  | putRaw (sid : Sid) (pred : PredId) (value : Bytes) (wmeta : WriteMeta)
  | delete (sid : Sid) (pred : PredId) (wmeta : WriteMeta)
  deriving DecidableEq, Repr

namespace EngineWrite

/-- The request a write call commits. -/
def req : EngineWrite → WriteReq
  | .putVector p => p.write
  | .putRaw sid pred value wmeta => .put sid pred value wmeta.c wmeta.tValid wmeta.idemKey
  | .delete sid pred wmeta => .delete sid pred wmeta.c wmeta.tValid wmeta.idemKey

/-- The header byte a write call counts. -/
def headerByte : EngineWrite → Option FixedWidth.Byte
  | .putVector p => p.header.head?
  | _ => none

end EngineWrite

/-- Write calls made one after the other, each with the failure its commit meets. -/
abbrev WriteHistory := List (EngineWrite × Option (IoError × ℕ))

/-- The log that a history leaves on an open file. -/
def WriteHistory.store (disk : Bytes) (hist : WriteHistory) : LogStore :=
  (LogStore.opened disk).commitAll (hist.map fun w => (w.1.req, w.2))

lemma WriteHistory.store_concat (disk : Bytes) (hist : WriteHistory)
    (w : EngineWrite × Option (IoError × ℕ)) :
    WriteHistory.store disk (hist ++ [w]) =
      ((WriteHistory.store disk hist).commit w.1.req w.2).1 := by
  simp [WriteHistory.store, LogStore.commitAll]

namespace GrainEngine

variable {I V : Type*}

/-- Carry out a write call. -/
def write (e : GrainEngine I) (w : EngineWrite) (failure : Option (IoError × ℕ)) :
    GrainEngine I × Except Error Hlc :=
  match w with
  | .putVector p => e.putVector p.sid p.pred p.header p.vector p.wmeta failure
  | .putRaw sid pred value wmeta => e.putRaw sid pred value wmeta failure
  | .delete sid pred wmeta => e.delete sid pred wmeta failure

/-- Carry out the calls of a history. -/
def writeAll (e : GrainEngine I) (hist : WriteHistory) : GrainEngine I :=
  hist.foldl (fun e w => (e.write w.1 w.2).1) e

/-- The engine when its materializer has applied the whole change stream to its index. -/
def materializedBy (writer : IndexWriter I V) (embed : Bytes → Option V) (e : GrainEngine I) :
    GrainEngine I :=
  { e with index := e.stream.foldl (writer.apply embed) e.index }

/-- The engine behind a history on a log file, opened with an index and fully materialized. -/
def behind (writer : IndexWriter I V) (embed : Bytes → Option V) (disk : Bytes) (index : I)
    (hist : WriteHistory) : GrainEngine I :=
  ((openWith disk index).writeAll hist).materializedBy writer embed

variable (e : GrainEngine I)

/-- A write call commits its request. -/
lemma truth_write (w : EngineWrite) (failure : Option (IoError × ℕ)) :
    (e.write w failure).1.truth = (e.truth.commit w.req failure).1 := by
  cases w <;> rfl

/-- A write call leaves the index to the materializer. -/
lemma index_write (w : EngineWrite) (failure : Option (IoError × ℕ)) :
    (e.write w failure).1.index = e.index := by
  cases w <;> rfl

/-- A write call counts its header byte. -/
lemma catalog_write (w : EngineWrite) (failure : Option (IoError × ℕ)) :
    (e.write w failure).1.catalog =
      w.headerByte.elim e.catalog fun b => e.catalog.observe b := by
  cases w with
  | putVector p =>
    cases hhead : p.header.head? with
    | none => simp [write, putVector, EngineWrite.headerByte, hhead]
    | some b => simp [write, putVector, EngineWrite.headerByte, hhead]
  | putRaw sid pred value wmeta => rfl
  | delete sid pred wmeta => rfl

lemma writeAll_concat (hist : WriteHistory) (w : EngineWrite × Option (IoError × ℕ)) :
    e.writeAll (hist ++ [w]) = ((e.writeAll hist).write w.1 w.2).1 := by
  simp [writeAll]

/-- The truth store of an engine shows the log of its history. -/
theorem shows_writeAll (disk : Bytes) (index : I) (hist : WriteHistory) :
    ((openWith disk index).writeAll hist).truth.Shows disk (WriteHistory.store disk hist) := by
  induction hist using List.reverseRecOn with
  | nil => exact TruthStore.shows_start disk
  | append_singleton hist w ih =>
    rw [writeAll_concat, truth_write, WriteHistory.store_concat]
    exact (ih.commit w.1.req w.2).1

lemma index_writeAll (hist : WriteHistory) : (e.writeAll hist).index = e.index := by
  induction hist using List.reverseRecOn with
  | nil => rfl
  | append_singleton hist w ih => rw [writeAll_concat, index_write, ih]

/-- The change stream of an engine is the log of its history. -/
lemma stream_writeAll (disk : Bytes) (index : I) (hist : WriteHistory) :
    ((openWith disk index).writeAll hist).stream =
      (WriteHistory.store disk hist).added.map WalRecord.cdc :=
  (shows_writeAll disk index hist).received

variable (writer : IndexWriter I V) (embed : Bytes → Option V) (disk : Bytes) (index : I)
  (hist : WriteHistory)

lemma shows_behind :
    (behind writer embed disk index hist).truth.Shows disk (WriteHistory.store disk hist) :=
  shows_writeAll disk index hist

/-- The index behind a history is what the records of the history make of it. -/
lemma index_behind : (behind writer embed disk index hist).index =
    (WriteHistory.store disk hist).added.foldl (fun i r => writer.apply embed i r.cdc) index := by
  rw [behind, materializedBy, stream_writeAll, index_writeAll, List.foldl_map]
  rfl

end GrainEngine

end GrainStore
