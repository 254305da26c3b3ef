import Mathlib
import GrainStore.Truth
import GrainStore.Wal.GroupCommit

/-!
# The committer's state as the meaning of its log

A committer represents a log when its KV, its dedup map and its clock are what the log means.
Opening a file starts a committer that represents the records recovered from it
(`represents_openLog`), and committing requests extends the log by the records of the fresh ones
(`Represents.committed`).
-/

namespace GrainStore

open FixedWidth

/-- The ledger that a log means. -/
def Ledger.ofLog (recs : List WalRecord) : Ledger := ⟨WalLog.idem recs, WalLog.clock recs⟩

namespace Ledger

/-- Assigning a timestamp to a new key is appending its record to the log. -/
lemma assign_ofLog {recs : List WalRecord} {req : WriteReq}
    (hnew : (WalLog.idem recs)[req.idemKey]? = none)
    (hlt : (WalLog.clock recs).toNat + 1 < 2 ^ 64) :
    (ofLog recs).assign req.idemKey = ofLog (recs ++ [req.record (WalLog.clock recs + 1)]) := by
  have hle : WalLog.clock recs ≤ WalLog.clock recs + 1 := by
    rw [BitVec.le_def, toNat_add_one hlt]
    exact Nat.le_succ _
  have hidem := OrderedMap.insertIfNew_of_none hnew (WalLog.clock recs + 1)
  have hrec : ofLog (recs ++ [req.record (WalLog.clock recs + 1)]) =
      ⟨(WalLog.idem recs).insert req.idemKey (WalLog.clock recs + 1), WalLog.clock recs + 1⟩ := by
    rw [ofLog, WalLog.idem_concat, WalLog.clock_concat, WriteReq.record]
    dsimp only
    rw [hidem, max_eq_right hle]
  rw [hrec]
  exact assign_of_none hnew

/-- The clock of a log one new record longer. -/
lemma clock_concat_record (recs : List WalRecord) (req : WriteReq)
    (hlt : (WalLog.clock recs).toNat + 1 < 2 ^ 64) :
    (WalLog.clock (recs ++ [req.record (WalLog.clock recs + 1)])).toNat =
      (WalLog.clock recs).toNat + 1 := by
  have hseq : (req.record (WalLog.clock recs + 1)).seq.toNat = (WalLog.clock recs).toNat + 1 :=
    toNat_add_one hlt
  rw [WalLog.clock_concat, max_eq_right, hseq]
  rw [BitVec.le_def, hseq]
  exact Nat.le_succ _

/-- The ledger after a sequence of requests is the ledger of the log with their records
appended. -/
lemma after_ofLog {recs : List WalRecord} {reqs : List Pending}
    (hlt : (WalLog.clock recs).toNat + ((ofLog recs).newKeys reqs).length < 2 ^ 64) :
    (ofLog recs).after reqs = ofLog (recs ++ (ofLog recs).records reqs) := by
  rw [← length_fresh] at hlt
  induction reqs generalizing recs with
  | nil => simp [records, recordsOf]
  | cons pw rest ih =>
    rw [after_cons, records]
    cases h : (WalLog.idem recs)[pw.req.idemKey]? with
    | some orig =>
      rw [fresh_cons_of_some h] at hlt ⊢
      rw [assign_of_some h, ih hlt, records]
    | none =>
      rw [fresh_cons_of_none h, List.length_cons] at hlt
      have hassign := assign_ofLog h (by omega)
      rw [hassign] at hlt
      have hclock := clock_concat_record recs pw.req (by omega)
      rw [hassign, ih (by rw [hclock]; omega), fresh_cons_of_none h, hassign, List.append_assoc]
      rfl

/-- The records of a sequence of requests extend the log, and every request is answered with the
timestamp of a record under its key. -/
lemma records_ofLog {recs : List WalRecord} {reqs : List Pending}
    (hlt : (WalLog.clock recs).toNat + ((ofLog recs).newKeys reqs).length < 2 ^ 64) :
    WalLog.Extends recs ((ofLog recs).records reqs) ∧
      ∀ a ∈ (ofLog recs).answers reqs, ∃ r ∈ recs ++ (ofLog recs).records reqs,
        r.idemKey = a.1.req.idemKey ∧ r.seq = a.2 := by
  rw [← length_fresh] at hlt
  induction reqs generalizing recs with
  | nil => exact ⟨WalLog.Extends.nil, by simp⟩
  | cons pw rest ih =>
    cases h : (WalLog.idem recs)[pw.req.idemKey]? with
    | some orig =>
      rw [fresh_cons_of_some h] at hlt
      obtain ⟨hext, hanswers⟩ := ih hlt
      rw [records, fresh_cons_of_some h, ← records, answers, assign_of_some h]
      refine ⟨hext, ?_⟩
      intro a ha
      rcases List.mem_cons.mp ha with rfl | ha
      · obtain ⟨r, hr, hkey, hseq⟩ := WalLog.exists_of_idem h
        have hanswer : (ofLog recs).idem[pw.req.idemKey]? = some orig := h
        exact ⟨r, List.mem_append_left _ hr, hkey, by rw [hanswer]; exact hseq⟩
      · exact hanswers a ha
    | none =>
      rw [fresh_cons_of_none h, List.length_cons] at hlt
      have hassign := assign_ofLog h (by omega)
      have hclock := clock_concat_record recs pw.req (by omega)
      rw [hassign] at hlt
      set r := pw.req.record (WalLog.clock recs + 1) with hr
      have hrest : (WalLog.clock (recs ++ [r])).toNat + ((ofLog (recs ++ [r])).fresh rest).length <
          2 ^ 64 := by
        rw [hclock]
        omega
      obtain ⟨hext, hanswers⟩ := ih hrest
      have hrecords : (ofLog recs).records (pw :: rest) =
          [r] ++ (ofLog (recs ++ [r])).records rest := by
        rw [records, fresh_cons_of_none h, hassign]
        rfl
      rw [hrecords, ← List.append_assoc, answers, hassign]
      refine ⟨WalLog.Extends.append ?_ hext, fun a ha => ?_⟩
      · have hnew : (WalLog.idem (recs ++ []))[r.idemKey]? = none := by rwa [List.append_nil]
        refine WalLog.Extends.nil.concat hnew ?_
        rw [List.append_nil]
        exact toNat_add_one (by omega)
      · rcases List.mem_cons.mp ha with rfl | ha
        · refine ⟨r, List.mem_append_left _ (List.mem_append_right _ List.mem_cons_self), rfl, ?_⟩
          have hanswer : (ofLog recs).idem[pw.req.idemKey]? = none := h
          rw [hanswer]
          rfl
        · exact hanswers a ha

end Ledger

namespace Committer

/-- A committer represents a log when its KV and its ledger are what the log means. -/
structure Represents (s : Committer) (recs : List WalRecord) : Prop where
  ledger : s.ledger = Ledger.ofLog recs
  grains : s.kv.grains = WalLog.grains recs

variable {s s' : Committer} {recs : List WalRecord} {reqs : List Pending}

lemma Represents.idem (h : s.Represents recs) : s.idem = WalLog.idem recs :=
  congrArg Ledger.idem h.ledger

lemma Represents.clock (h : s.Represents recs) : s.hlc.last = WalLog.clock recs :=
  congrArg Ledger.clock h.ledger

/-- Opening a file starts a committer that represents the records recovered from it. -/
theorem represents_openLog (disk : Bytes) : (TruthStore.openLog disk).Represents (logOf disk) :=
  ⟨rfl, rfl⟩

/-- Committing requests appends the records of the fresh ones to the log represented. -/
theorem Represents.committed (h : s.Represents recs) (hc : Committed s reqs s')
    (hlt : s.hlc.last.toNat + (s.ledger.newKeys reqs).length < 2 ^ 64) :
    s'.Represents (recs ++ s.ledger.records reqs) where
  ledger := by
    rw [h.clock, h.ledger] at hlt
    rw [hc.ledger, h.ledger, Ledger.after_ofLog hlt]
  grains := by
    rw [hc.kv, h.grains, WalLog.grains, WalLog.grains, List.foldl_append]

end Committer

end GrainStore
