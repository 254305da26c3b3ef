import Mathlib
import GrainStore.Engine
import GrainStore.Recovery.Represents

/-!
# What a commit does

`TruthStore.CommitStep` lists the outcomes of a commit, one constructor for each: the store has
ended, the key is a repeat, the clock is at its end, the record is committed, the write fails.
-/

namespace GrainStore

open FixedWidth

namespace TruthStore

/-- The ways a commit can go, with the store it leaves and what its caller is told. -/
inductive CommitStep (t : TruthStore) (req : WriteReq) :
    Option (IoError × ℕ) → TruthStore → Except Error U64 → Prop
  | closed (failure : Option (IoError × ℕ)) :
    t.running = false → CommitStep t req failure t (.error .closed)
  | repeated (failure : Option (IoError × ℕ)) {orig : U64} (kv : MemKv)
    (sent : List (Pending × Except Error U64)) :
    t.running = true → t.committer.idem[req.idemKey]? = some orig →
    kv.grains = t.committer.kv.grains →
      CommitStep t req failure ⟨{ t.committer with kv, sent }, true⟩ (.ok orig)
  | panicked (failure : Option (IoError × ℕ)) :
    t.running = true → t.committer.idem[req.idemKey]? = none →
    ¬t.committer.hlc.last.toNat + 1 < 2 ^ 64 →
      CommitStep t req failure { t with running := false } (.error .closed)
  | committed (kv : MemKv) (sent : List (Pending × Except Error U64)) :
    t.running = true → t.committer.idem[req.idemKey]? = none →
    t.committer.hlc.last.toNat + 1 < 2 ^ 64 →
    kv.grains = t.committer.kv.grains.insert (req.record (t.committer.hlc.last + 1)).key
      (req.record (t.committer.hlc.last + 1)).value →
      CommitStep t req none
        ⟨{ t.committer with
            file := t.committer.file ++ encodeFrame (req.record (t.committer.hlc.last + 1))
            kv
            hlc := ⟨t.committer.hlc.last + 1⟩
            idem := t.committer.idem.insert req.idemKey (t.committer.hlc.last + 1)
            cdc := t.committer.cdc.publish (req.record (t.committer.hlc.last + 1)).cdc
            sent }, true⟩
        (.ok (t.committer.hlc.last + 1))
  | failed (e : IoError) (written : ℕ) (sent : List (Pending × Except Error U64)) :
    t.running = true → t.committer.idem[req.idemKey]? = none →
    t.committer.hlc.last.toNat + 1 < 2 ^ 64 →
      CommitStep t req (some (e, written))
        ⟨{ t.committer with
            tail := (encodeFrame (req.record (t.committer.hlc.last + 1))).take written
            hlc := ⟨t.committer.hlc.last + 1⟩
            idem := t.committer.idem.insert req.idemKey (t.committer.hlc.last + 1)
            healthy := false
            sent }, false⟩
        (.error (.io e))

variable {t : TruthStore}

/-- A commit of a repeated key writes nothing, so no write can fail. -/
lemma commit_of_some {orig : U64} {req : WriteReq} (hrun : t.running = true)
    (hkey : t.committer.idem[req.idemKey]? = some orig) (failure : Option (IoError × ℕ)) :
    CommitStep t req failure (t.commit req failure).1 (t.commit req failure).2 := by
  have hscan : t.committer.scan (Batch.start t.committer.hlc.now)
      [⟨t.committer.sent.length, req⟩] =
        some ({ t.committer with
          sent := t.committer.sent ++ [(⟨t.committer.sent.length, req⟩, .ok orig)] },
          Batch.start t.committer.hlc.now) := by
    rw [Committer.scan, Committer.scanReq_of_some hkey]
    rfl
  have hcommit : t.commit req failure =
      (⟨{ t.committer with
          kv := t.committer.kv.putMeta META_APPLIED_SEQ (toBeBytes t.committer.hlc.now)
          sent := t.committer.sent ++ [(⟨t.committer.sent.length, req⟩, .ok orig)] }, true⟩,
        .ok orig) := by
    rw [commit, if_pos hrun, hscan]
    cases failure with
    | none => simp [Committer.finish, Committer.sync, Committer.applyBatch,
        Committer.publishBatch, Committer.ackBatch, Batch.start, answer]
    | some f => simp [Committer.finish, Committer.sync, Committer.applyBatch,
        Committer.publishBatch, Committer.ackBatch, Batch.start, answer]
  rw [hcommit]
  exact CommitStep.repeated failure _ _ hrun hkey rfl

/-- A commit of a new key is given the next timestamp; its record is written or the write
fails. -/
lemma commit_of_none {req : WriteReq} (hrun : t.running = true)
    (hkey : t.committer.idem[req.idemKey]? = none)
    (hlt : t.committer.hlc.last.toNat + 1 < 2 ^ 64) (failure : Option (IoError × ℕ)) :
    CommitStep t req failure (t.commit req failure).1 (t.commit req failure).2 := by
  set seq := t.committer.hlc.last + 1 with hseq
  set pw : Pending := ⟨t.committer.sent.length, req⟩ with hpw
  have hscan : t.committer.scan (Batch.start t.committer.hlc.now) [pw] =
        some ({ t.committer with
            hlc := ⟨seq⟩
            idem := t.committer.idem.insert req.idemKey seq },
          (Batch.start t.committer.hlc.now).push pw seq) := by
    rw [Committer.scan, Committer.scanReq_of_none hkey hlt]
    rfl
  have hbuf : ((Batch.start t.committer.hlc.now).push pw seq).buf = encodeFrame (req.record seq) :=
    List.nil_append _
  cases failure with
  | none =>
    have hcommit : t.commit req none =
        (⟨{ t.committer with
            file := t.committer.file ++ encodeFrame (req.record seq)
            kv := (t.committer.kv.putGrain (req.record seq).key (req.record seq).value).putMeta
              META_APPLIED_SEQ (toBeBytes (max t.committer.hlc.now seq))
            hlc := ⟨seq⟩
            idem := t.committer.idem.insert req.idemKey seq
            cdc := t.committer.cdc.publish (req.record seq).cdc
            sent := t.committer.sent ++ [(pw, .ok seq)] }, true⟩, .ok seq) := by
      rw [commit, if_pos hrun, hscan]
      dsimp only
      simp only [Committer.finish, Committer.sync, Committer.applyBatch, Committer.publishBatch,
        Committer.ackBatch, hbuf, answer]
      simp only [Batch.start, Batch.push, WalRecord.key, WalRecord.value, WalRecord.cdc,
        WriteReq.record, hpw]
      simp
    rw [hcommit]
    exact CommitStep.committed _ _ hrun hkey hlt rfl
  | some f =>
    obtain ⟨e, written⟩ := f
    have hne : ((Batch.start t.committer.hlc.now).push pw seq).buf ≠ [] := by
      rw [hbuf]
      exact List.ne_nil_of_length_pos (by rw [length_encodeFrame]; omega)
    have hcommit : t.commit req (some (e, written)) =
        (⟨{ t.committer with
            tail := (encodeFrame (req.record seq)).take written
            hlc := ⟨seq⟩
            idem := t.committer.idem.insert req.idemKey seq
            healthy := false
            sent := t.committer.sent ++ [(pw, .error (.io e))] }, false⟩, .error (.io e)) := by
      rw [commit, if_pos hrun, hscan]
      dsimp only
      rw [if_neg hne]
      simp [Committer.failBatch, hbuf, answer]
    rw [hcommit]
    exact CommitStep.failed e written _ hrun hkey hlt

/-- At its end the clock ends the store. -/
lemma commit_of_full {req : WriteReq} (hrun : t.running = true)
    (hkey : t.committer.idem[req.idemKey]? = none)
    (hfull : ¬t.committer.hlc.last.toNat + 1 < 2 ^ 64) (failure : Option (IoError × ℕ)) :
    t.commit req failure = ({ t with running := false }, .error .closed) := by
  have hnext : t.committer.hlc.next = none := if_neg hfull
  rw [commit, if_pos hrun]
  simp only [Committer.scan, Committer.scanReq, hkey, hnext]

/-- Every commit goes one of the ways listed. -/
theorem commitStep (t : TruthStore) (req : WriteReq) (failure : Option (IoError × ℕ)) :
    CommitStep t req failure (t.commit req failure).1 (t.commit req failure).2 := by
  by_cases hrun : t.running
  · cases hkey : t.committer.idem[req.idemKey]? with
    | some orig => exact commit_of_some hrun hkey failure
    | none =>
      by_cases hlt : t.committer.hlc.last.toNat + 1 < 2 ^ 64
      · exact commit_of_none hrun hkey hlt failure
      · rw [commit_of_full hrun hkey hlt]
        exact CommitStep.panicked failure hrun hkey hlt
  · have hcommit : t.commit req failure = (t, .error .closed) := by rw [commit, if_neg hrun]
    rw [hcommit]
    exact CommitStep.closed failure (by simpa using hrun)

/-- A commit that meets no failing write leaves nothing behind the synced frames. -/
lemma tail_commit (t : TruthStore) (req : WriteReq) :
    (t.commit req none).1.committer.tail = t.committer.tail := by
  have hstep := t.commitStep req none
  generalize (t.commit req none).1 = t' at hstep ⊢
  generalize (t.commit req none).2 = answer at hstep
  cases hstep with
  | closed _ _ => rfl
  | repeated _ _ _ _ _ => rfl
  | panicked _ _ _ _ => rfl
  | committed _ _ _ _ _ _ => rfl

end TruthStore

end GrainStore
