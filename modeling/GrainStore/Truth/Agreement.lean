import Mathlib
import GrainStore.Truth.Scan
import GrainStore.Wal.Invariant

/-!
# The scan and the point reads

Two ways to find the newest version of a `(sid, pred)`: the scan walks all entries and keeps the
first of each group, a strong read seeks behind the clock.  In every state of the committer both
find the same (`scanLive_iff_get`).
-/

namespace GrainStore

/-- More records do not turn the clock back. -/
lemma WalLog.clock_le_append (recs more : List WalRecord) :
    WalLog.clock recs ≤ WalLog.clock (recs ++ more) := by
  induction more using List.reverseRecOn with
  | nil => rw [List.append_nil]
  | append_singleton more r ih =>
    rw [← List.append_assoc, WalLog.clock_concat]
    exact ih.trans (le_max_left _ _)

namespace Machine

variable {disk : Bytes} {m : Machine} {g : History}

/-- The clock covers the applied records. -/
lemma Inv.clock_applied_le (h : Inv disk m g) :
    WalLog.clock (logOf disk ++ g.applied) ≤ m.st.hlc.last := by
  rw [h.clock, History.full, History.log, List.append_assoc, ← List.append_assoc]
  exact WalLog.clock_le_append _ _

/-- A strong read returns the newest of the applied records. -/
lemma Inv.get_strong (h : Inv disk m g) (sid : Sid) (pred : PredId) :
    TruthStore.get m.st.kv m.st.hlc sid pred .strong =
      .ok ((WalLog.newest (logOf disk ++ g.applied) sid pred).bind WalLog.grainOf) := by
  rw [TruthStore.get, HlcOracle.now, WalLog.newest, ← WalLog.visible_of_le h.clock_applied_le]
  exact TruthStore.getAt_eq_visible h.grains sid pred _

/-- The scan and the point reads agree.  In every state that the committer reaches, whatever it was
started on, whichever requests arrived in which batches, and whichever writes failed, the scan
returns, ascending and without repetition, exactly the grains that a strong read of their
`(sid, pred)` returns. -/
theorem scanLive_iff_get {hist : List (Machine × Event)} (h : RunFrom disk hist m) :
    ∃ live, TruthStore.scanLive m.st.kv = .ok live ∧
      (live.Pairwise fun a b => toLex (a.sid, a.pred) < toLex (b.sid, b.pred)) ∧
      ∀ g, g ∈ live ↔
        TruthStore.get m.st.kv m.st.hlc g.sid g.pred .strong = .ok (some g) := by
  have hinv := inv_of_run h
  obtain ⟨live, hscan, hmem, hsorted⟩ := TruthStore.scanLive_ok hinv.grains
  refine ⟨live, hscan, hsorted, ?_⟩
  intro g
  rw [hmem, hinv.get_strong]
  exact ⟨congrArg Except.ok, Except.ok.inj⟩

/-- Behind a put, a delete of another grain and a second put the scan and the reads return the
second put. -/
theorem scanLive_iff_get_puts :
    ∃ hist m, RunFrom [] hist m ∧
      TruthStore.scanLive m.st.kv = .ok [⟨1, 1, .bytes [12], 0, 0, 3⟩] ∧
      ∃ live, TruthStore.scanLive m.st.kv = .ok live ∧
        (live.Pairwise fun a b => toLex (a.sid, a.pred) < toLex (b.sid, b.pred)) ∧
        ∀ g, g ∈ live ↔
          TruthStore.get m.st.kv m.st.hlc g.sid g.pred .strong = .ok (some g) := by
  have hexec : (Trace.exec next (start [])
      ([.recv ⟨0, .put 1 1 [10] 0 0 7⟩ [⟨1, .delete 2 1 0 0 8⟩, ⟨2, .put 1 1 [12] 0 0 9⟩]] ++
        List.replicate 15 .tick)).map (fun p => TruthStore.scanLive p.2.st.kv) =
      some (.ok [⟨1, 1, .bytes [12], 0, 0, 3⟩]) := by
    rw [start, TruthStore.openLog_nil]
    rfl
  obtain ⟨⟨hist, m⟩, hrun, hscan⟩ := Option.map_eq_some_iff.mp hexec
  have hrun' : RunFrom [] hist m := Trace.run_of_exec hrun
  exact ⟨hist, m, hrun', hscan, scanLive_iff_get hrun'⟩

end Machine

end GrainStore
