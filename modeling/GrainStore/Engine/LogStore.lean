import Mathlib
import GrainStore.Engine.Commit

/-!
# The store as a log

`LogStore` is what a truth store is to its callers: the log it was opened on, the records committed
since, and whether it still takes writes.  `TruthStore.Shows` connects the two: file, KV, change
stream, dedup map and clock are those of the log.

`Shows.commit` says that a commit of the store is a commit of the log, with the same answer, and
`Shows.read` that a read never fails and returns the newest version of the log.
-/

namespace GrainStore

open FixedWidth

/-- A log that takes writes. -/
structure LogStore where
  base : List WalRecord
  added : List WalRecord
  running : Bool

namespace LogStore

/-- The log of a file that was just opened. -/
def opened (disk : Bytes) : LogStore := ⟨logOf disk, [], true⟩

/-- All records, oldest first. -/
def log (s : LogStore) : List WalRecord := s.base ++ s.added

/-- Whether a request has a new key and the clock a timestamp for it. -/
def Takes (s : LogStore) (req : WriteReq) : Prop :=
  s.running ∧ (WalLog.idem s.log)[req.idemKey]? = none ∧ (WalLog.clock s.log).toNat + 1 < 2 ^ 64

instance (s : LogStore) (req : WriteReq) : Decidable (s.Takes req) :=
  inferInstanceAs (Decidable (_ ∧ _ ∧ _))

/-- The record a request is committed as. -/
def next (s : LogStore) (req : WriteReq) : WalRecord := req.record (WalLog.clock s.log + 1)

/-- Commit one write: a repeated key is answered from the log; a failing write and the end of the
clock end the store. -/
def commit (s : LogStore) (req : WriteReq) (failure : Option (IoError × ℕ)) :
    LogStore × Except Error U64 :=
  if s.Takes req then
    match failure with
    | none => ({ s with added := s.added ++ [s.next req] }, .ok (s.next req).seq)
    | some (e, _) => ({ s with running := false }, .error (.io e))
  else if s.running then
    match (WalLog.idem s.log)[req.idemKey]? with
    | some orig => (s, .ok orig)
    | none => ({ s with running := false }, .error .closed)
  else (s, .error .closed)

/-- The newest version of `(sid, pred)`, unless it is a tombstone. -/
def read (s : LogStore) (sid : Sid) (pred : PredId) : Option Grain :=
  (WalLog.newest s.log sid pred).bind WalLog.grainOf

variable {s : LogStore} {req : WriteReq} {failure : Option (IoError × ℕ)}

/-- A commit adds the record of its request or nothing, and never changes the log opened on. -/
lemma commit_log (s : LogStore) (req : WriteReq) (failure : Option (IoError × ℕ)) :
    (s.commit req failure).1.base = s.base ∧
      (s.commit req failure).1.added =
        if s.Takes req ∧ failure = none then s.added ++ [s.next req] else s.added := by
  unfold commit
  by_cases htakes : s.Takes req
  · rw [if_pos htakes]
    cases failure with
    | none => exact ⟨rfl, (if_pos ⟨htakes, rfl⟩).symm⟩
    | some f => exact ⟨rfl, (if_neg fun h => absurd h.2 (by simp)).symm⟩
  · have hnot : ¬(s.Takes req ∧ failure = none) := fun h => htakes h.1
    rw [if_neg htakes, if_neg hnot]
    split
    · split
      · exact ⟨rfl, rfl⟩
      · exact ⟨rfl, rfl⟩
    · exact ⟨rfl, rfl⟩

/-- What a commit that is answered `Ok` has done. -/
lemma commit_of_ok {seq : U64} (h : (s.commit req failure).2 = .ok seq) :
    s.Takes req ∧ failure = none ∧
        (s.commit req failure).1 = { s with added := s.added ++ [s.next req] } ∨
      (WalLog.idem s.log)[req.idemKey]? = some seq ∧ (s.commit req failure).1 = s := by
  unfold commit at h ⊢
  by_cases htakes : s.Takes req
  · rw [if_pos htakes] at h ⊢
    cases failure with
    | none => exact Or.inl ⟨htakes, rfl, rfl⟩
    | some f => simp at h
  · rw [if_neg htakes] at h ⊢
    split at h
    · split at h
      · rename_i hrun _ orig hkey
        obtain rfl := Except.ok.inj h
        rw [if_pos hrun, hkey]
        exact Or.inr ⟨rfl, rfl⟩
      · simp at h
    · simp at h

/-- A store that has ended takes nothing any more. -/
lemma running_of_commit (h : (s.commit req failure).1.running = true) : s.running = true := by
  by_contra hrun
  have htakes : ¬s.Takes req := fun ht => hrun ht.1
  unfold commit at h
  rw [if_neg htakes, if_neg hrun] at h
  exact hrun h

/-- A read returns a grain under the key it was asked for. -/
lemma key_of_read {sid : Sid} {pred : PredId} {g : Grain} (h : s.read sid pred = some g) :
    g.sid = sid ∧ g.pred = pred := by
  obtain ⟨r, hr, hg⟩ := Option.bind_eq_some_iff.mp h
  obtain ⟨-, hsid, hpred⟩ := WalLog.mem_of_newest hr
  rw [← hsid, ← hpred]
  exact WalLog.key_of_grainOf hg

/-- What a read returns after a commit: the version just committed, or what it returned before. -/
lemma read_commit (s : LogStore) (req : WriteReq) (failure : Option (IoError × ℕ)) (sid : Sid)
    (pred : PredId) : (s.commit req failure).1.read sid pred =
      if (s.Takes req ∧ failure = none) ∧ req.sid = sid ∧ req.pred = pred then
        WalLog.grainOf (s.next req)
      else s.read sid pred := by
  obtain ⟨hbase, hadded⟩ := s.commit_log req failure
  rw [read, log, hbase, hadded]
  by_cases hnew : s.Takes req ∧ failure = none
  · have hlt : WalLog.clock s.log < (s.next req).seq := by
      rw [BitVec.lt_def]
      exact (toNat_add_one hnew.1.2.2).symm ▸ Nat.lt_succ_self _
    rw [if_pos hnew, ← List.append_assoc]
    change (WalLog.newest (s.log ++ [s.next req]) sid pred).bind WalLog.grainOf = _
    rw [WalLog.newest_concat hlt]
    by_cases hkey : req.sid = sid ∧ req.pred = pred
    · have hkey' : (s.next req).sid = sid ∧ (s.next req).pred = pred := hkey
      rw [if_pos hkey', if_pos (And.intro hnew hkey)]
      rfl
    · have hkey' : ¬((s.next req).sid = sid ∧ (s.next req).pred = pred) := hkey
      have hnot : ¬((s.Takes req ∧ failure = none) ∧ req.sid = sid ∧ req.pred = pred) :=
        fun h => hkey h.2
      rw [if_neg hkey', if_neg hnot]
      rfl
  · have hnot : ¬((s.Takes req ∧ failure = none) ∧ req.sid = sid ∧ req.pred = pred) :=
      fun h => hnew h.1
    rw [if_neg hnew, if_neg hnot]
    rfl

/-- Commit a sequence of writes. -/
def commitAll (s : LogStore) (writes : List (WriteReq × Option (IoError × ℕ))) : LogStore :=
  writes.foldl (fun s w => (s.commit w.1 w.2).1) s

end LogStore

/-! ## The store shows its log -/

namespace TruthStore

/-- A store with one subscriber, opened on a file, that shows a log. -/
structure Shows (disk : Bytes) (t : TruthStore) (s : LogStore) : Prop where
  base : s.base = logOf disk
  running : t.running = s.running
  /-- The frames of the new records are in the file. -/
  file : t.committer.file = disk ++ s.added.flatMap encodeFrame
  /-- While the store runs nothing stands behind them. -/
  tail : s.running = true → t.committer.tail = []
  grains : t.committer.kv.grains = WalLog.grains s.log
  /-- The subscriber was sent the new records. -/
  cdc : t.committer.cdc = ⟨[⟨true, s.added.map WalRecord.cdc⟩]⟩
  grown : WalLog.Extends s.base s.added
  /-- A failed write may have used up a timestamp. -/
  clock_le : WalLog.clock s.log ≤ t.committer.hlc.last
  idem : s.running = true → t.committer.idem = WalLog.idem s.log
  clock : s.running = true → t.committer.hlc.last = WalLog.clock s.log

variable {disk : Bytes} {t : TruthStore} {s : LogStore}

/-- A store that was just opened shows the records recovered. -/
lemma shows_start (disk : Bytes) : (start disk).subscribe.Shows disk (LogStore.opened disk) := by
  have hlog : (LogStore.opened disk).log = logOf disk := List.append_nil _
  refine ⟨rfl, rfl, ?_, fun _ => rfl, ?_, rfl, WalLog.Extends.nil, ?_, fun _ => ?_, fun _ => ?_⟩
  · exact (List.append_nil _).symm
  all_goals rw [hlog]
  · rfl
  · exact le_rfl
  · rfl
  · rfl

/-- A commit of the store is a commit of its log. -/
theorem Shows.commit (h : t.Shows disk s) (req : WriteReq) (failure : Option (IoError × ℕ)) :
    (t.commit req failure).1.Shows disk (s.commit req failure).1 ∧
      (t.commit req failure).2 = (s.commit req failure).2 := by
  have hstep := commitStep t req failure
  generalize (t.commit req failure).1 = t' at hstep ⊢
  generalize (t.commit req failure).2 = answer at hstep ⊢
  unfold LogStore.commit
  cases hstep with
  | closed _ hrun =>
    rw [h.running] at hrun
    have htakes : ¬s.Takes req := fun ht => absurd ht.1 (by simp [hrun])
    rw [if_neg htakes, if_neg (by simp [hrun])]
    exact ⟨h, rfl⟩
  | @repeated _ orig kv sent hrun hkey hkv =>
    rw [h.running] at hrun
    rw [h.idem hrun] at hkey
    have htakes : ¬s.Takes req := fun ht => by simp [ht.2.1] at hkey
    rw [if_neg htakes, if_pos hrun, hkey]
    exact ⟨⟨h.base, hrun.symm, h.file, h.tail, hkv.trans h.grains, h.cdc, h.grown, h.clock_le,
      h.idem, h.clock⟩, rfl⟩
  | panicked _ hrun hkey hroom =>
    rw [h.running] at hrun
    rw [h.idem hrun] at hkey
    rw [h.clock hrun] at hroom
    have htakes : ¬s.Takes req := fun ht => hroom ht.2.2
    rw [if_neg htakes, if_pos hrun, hkey]
    exact ⟨⟨h.base, rfl, h.file, nofun, h.grains, h.cdc, h.grown, h.clock_le, nofun, nofun⟩, rfl⟩
  | committed kv sent hrun hkey hroom hkv =>
    rw [h.running] at hrun
    rw [h.idem hrun] at hkey
    rw [h.clock hrun] at hroom
    have htakes : s.Takes req := ⟨hrun, hkey, hroom⟩
    have hnext : req.record (t.committer.hlc.last + 1) = s.next req := by
      rw [LogStore.next, h.clock hrun]
    have hseq : (s.next req).seq.toNat = (WalLog.clock s.log).toNat + 1 := toNat_add_one hroom
    have hclock : WalLog.clock (s.base ++ (s.added ++ [s.next req])) = (s.next req).seq :=
      WalLog.Extends.clock_concat_eq hseq
    have hlast : t.committer.hlc.last + 1 = (s.next req).seq := by
      rw [h.clock hrun]
      rfl
    rw [if_pos htakes]
    dsimp only
    rw [hnext] at hkv ⊢
    refine ⟨⟨h.base, hrun.symm, ?_, h.tail, ?_, ?_, h.grown.concat hkey hseq, ?_, fun _ => ?_,
      fun _ => ?_⟩, by rw [hlast]⟩
    · rw [h.file, List.flatMap_append, List.flatMap_singleton, List.append_assoc]
    · dsimp only
      rw [hkv, h.grains, LogStore.log, LogStore.log, ← List.append_assoc, WalLog.grains_concat]
    · dsimp only
      rw [h.cdc, List.map_append, List.map_singleton]
      rfl
    · exact (hclock.trans hlast.symm).le
    · dsimp only
      rw [h.idem hrun, hlast, LogStore.log, LogStore.log, ← List.append_assoc, WalLog.idem_concat]
      exact (OrderedMap.insertIfNew_of_none hkey _).symm
    · exact hlast.trans hclock.symm
  | failed e written sent hrun hkey hroom =>
    rw [h.running] at hrun
    rw [h.idem hrun] at hkey
    have hclock := h.clock hrun
    rw [hclock] at hroom
    rw [if_pos ⟨hrun, hkey, hroom⟩]
    refine ⟨⟨h.base, rfl, h.file, nofun, h.grains, h.cdc, h.grown, ?_, nofun, nofun⟩, rfl⟩
    have hlast : (t.committer.hlc.last + 1).toNat = (WalLog.clock s.log).toNat + 1 := by
      rw [hclock, toNat_add_one hroom]
    have hle : WalLog.clock s.log ≤ t.committer.hlc.last + 1 := BitVec.le_def.mpr (by omega)
    exact hle

/-- A strong read never fails, and returns what the log has. -/
theorem Shows.read (h : t.Shows disk s) (sid : Sid) (pred : PredId) :
    t.read sid pred = .ok (s.read sid pred) := by
  rw [TruthStore.read, get, HlcOracle.now, LogStore.read, WalLog.newest,
    ← WalLog.visible_of_le h.clock_le]
  exact getAt_eq_visible h.grains sid pred _

/-- The change stream is that of the new records. -/
lemma Shows.received (h : t.Shows disk s) :
    t.committer.cdc.received = s.added.map WalRecord.cdc := by
  rw [h.cdc]
  rfl

end TruthStore

end GrainStore
