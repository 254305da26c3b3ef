import Mathlib
import GrainStore.Recovery.Represents

/-!
# Recovery from a truncated log

A crash may cut the log anywhere.  `recover_take` says that what is recovered from a cut file is
the state the committer held after the last commit whose frame lies wholly before the cut.
-/

namespace GrainStore

open TruthStore Committer

/-- What recovery yields from a file, when that is the KV grains, the dedup map and the
high-watermark of a committer. -/
def RecoversTo (bytes : Bytes) (s : Committer) : Prop :=
  ∃ frames, recover MemKv.new (.ok bytes) =
    .ok (⟨s.kv.grains, ∅⟩, { highWatermark := s.hlc.last, idem := s.idem, frames })

/-- A file recovers to any committer that represents the records that scan off its front. -/
lemma recoversTo_of_represents {bytes : Bytes} {s : Committer} {recs : List WalRecord}
    (h : s.Represents recs) (hlog : logOf bytes = recs) : RecoversTo bytes s := by
  refine ⟨recs.length, ?_⟩
  rw [recover_ok, hlog, h.grains, h.clock, h.idem]

/-! ## Runs from an empty log -/

namespace Ledger

variable {l : Ledger}

/-- Every cut of the records of a sequence of requests is the records of some first requests. -/
lemma exists_records_eq_take (reqs : List Pending) {k : ℕ} (hk : k ≤ (l.records reqs).length) :
    ∃ ps, ps <+: reqs ∧ l.records ps = (l.records reqs).take k := by
  induction reqs generalizing l k with
  | nil => exact ⟨[], List.prefix_rfl, by simp [records, recordsOf]⟩
  | cons pw rest ih =>
    rw [records] at hk ⊢
    cases h : l.idem[pw.req.idemKey]? with
    | some orig =>
      rw [fresh_cons_of_some h] at hk ⊢
      obtain ⟨ps, hps, hrecs⟩ := ih hk
      refine ⟨pw :: ps, List.cons_prefix_cons.mpr ⟨rfl, hps⟩, ?_⟩
      rw [records, fresh_cons_of_some h]
      exact hrecs
    | none =>
      rw [fresh_cons_of_none h] at hk ⊢
      cases k with
      | zero => exact ⟨[], List.nil_prefix, rfl⟩
      | succ k =>
        obtain ⟨ps, hps, hrecs⟩ := ih (Nat.le_of_succ_le_succ hk)
        refine ⟨pw :: ps, List.cons_prefix_cons.mpr ⟨rfl, hps⟩, ?_⟩
        rw [records, fresh_cons_of_none h]
        exact congrArg (_ :: ·) hrecs

/-- The records of some first requests are the first records. -/
lemma records_prefix {ps reqs : List Pending} (h : ps <+: reqs) :
    l.records ps <+: l.records reqs := by
  obtain ⟨qs, rfl⟩ := h
  rw [records_append]
  exact List.prefix_append _ _

/-- The records of requests whose values fit the format fit the format. -/
lemma fits_of_mem_records {reqs : List Pending}
    (hfit : ∀ pw ∈ reqs, REC_FIXED + pw.req.val.length < 2 ^ 32) :
    ∀ r ∈ l.records reqs, r.Fits := by
  intro r hr
  obtain ⟨a, ha, rfl⟩ := List.mem_map.mp hr
  exact hfit a.1 (fst_mem_of_mem_fresh ha)

end Ledger

/-- A run from an empty log writes the frames of its records and represents them. -/
lemma file_of_runBatches {batches : List (List Pending)} {s : Committer}
    (hne : ∀ batch ∈ batches, batch ≠ []) (h : (openLog []).runBatches batches = some s) :
    s.file = ((openLog []).ledger.records batches.flatten).flatMap encodeFrame ∧
      s.Represents ((openLog []).ledger.records batches.flatten) := by
  have hempty : logOf [] = [] := logOf_of_none rfl
  have hrep := represents_openLog []
  rw [hempty] at hrep
  have hc := committed_of_runBatches hne h
  exact ⟨hc.file, hrep.committed hc (lt_of_runBatches hne h)⟩

/-- The first requests of a run that goes through can be committed one at a time. -/
lemma exists_runBatches_of_prefix {batches : List (List Pending)} {s s' : Committer}
    (hne : ∀ batch ∈ batches, batch ≠ []) (h : s.runBatches batches = some s')
    {ps : List Pending} (hps : ps <+: batches.flatten) :
    ∃ t, s.runBatches (singly ps) = some t := by
  have hlt := lt_of_runBatches hne h
  refine exists_runBatches (singly_ne_nil ps) (lt_of_le_of_lt ?_ hlt)
  obtain ⟨qs, hqs⟩ := hps
  rw [flatten_singly, ← Ledger.length_fresh, ← Ledger.length_fresh, ← hqs, Ledger.fresh_append,
    List.length_append]
  omega

/-! ## The cut -/

/-- Recovery is exact on every truncation.  Take any batching of any requests, run from an empty
log to `s`, and cut the file anywhere.  There are first requests `ps`, committed one at a time to
`t`, with all their frames before the cut, and no first requests with more frames before it; the
cut file recovers to `t`, to `s` when nothing is cut off, and to `t` again when the cut is at the
end of a frame and zero bytes follow it. -/
theorem recover_take (batches : List (List Pending)) (s : Committer)
    (hne : ∀ batch ∈ batches, batch ≠ [])
    (hfit : ∀ pw ∈ batches.flatten, REC_FIXED + pw.req.val.length < 2 ^ 32)
    (h : (openLog []).runBatches batches = some s) (n : ℕ) :
    (∃ ps t, ps <+: batches.flatten ∧ (openLog []).runBatches (singly ps) = some t ∧
      t.file.length ≤ n ∧
      (∀ ps' t', ps' <+: batches.flatten → (openLog []).runBatches (singly ps') = some t' →
        t'.file.length ≤ n → t'.file <+: t.file) ∧
      RecoversTo (s.file.take n) t ∧
      (s.file.take n = t.file → ∀ m, RecoversTo (s.file.take n ++ List.replicate m 0) t)) ∧
    (s.file.length ≤ n → RecoversTo (s.file.take n) s) := by
  obtain ⟨hfile, hrep⟩ := file_of_runBatches hne h
  set recs := (openLog []).ledger.records batches.flatten with hrecs
  have hfits : ∀ r ∈ recs, walCodec.Fits r := Ledger.fits_of_mem_records hfit
  obtain ⟨k, hk, hle, hmax⟩ := walCodec.exists_whole_prefix recs n
  obtain ⟨ps, hps, htake⟩ := Ledger.exists_records_eq_take batches.flatten hk
  obtain ⟨t, ht⟩ := exists_runBatches_of_prefix hne h hps
  obtain ⟨htfile, htrep⟩ := file_of_runBatches (singly_ne_nil ps) ht
  rw [flatten_singly, htake] at htfile htrep
  have hlog : logOf (s.file.take n) = recs.take k := by
    rw [hfile]
    exact walCodec.frames_take_flatMap hfits hle hmax
  refine ⟨⟨ps, t, hps, ht, ?_, ?_, recoversTo_of_represents htrep hlog, ?_⟩, fun hn => ?_⟩
  · rwa [htfile]
  · -- first requests with a frame more do not fit before the cut
    intro ps' t' hps' ht' hle'
    obtain ⟨htfile', -⟩ := file_of_runBatches (singly_ne_nil ps') ht'
    have hpre := List.prefix_iff_eq_take.mp (Ledger.records_prefix (l := (openLog []).ledger) hps')
    rw [flatten_singly, hpre] at htfile'
    rw [htfile'] at hle'
    rw [htfile', htfile]
    exact (walCodec.take_prefix_of_length_le hmax hle').flatMap encodeFrame
  · -- zero bytes after whole frames scan to nothing
    intro hcut m
    refine recoversTo_of_represents htrep ?_
    have htfits : ∀ r ∈ recs.take k, r.Fits := fun r hr => hfits r (List.mem_of_mem_take hr)
    rw [hcut, htfile, logOf_flatMap_append htfits,
      logOf_of_none (decodeFrame_replicate_zero m), List.append_nil]
  · refine recoversTo_of_represents hrep ?_
    rw [List.take_of_length_le hn, hfile, logOf_flatMap hfits]

/-- A commit, its retry and another commit, cut five bytes into the second frame. -/
theorem recover_take_second_frame :
    ∃ s, (openLog []).runBatches
        [[⟨0, .put 1 1 [10] 0 0 7⟩, ⟨1, .put 1 1 [10] 0 0 7⟩], [⟨2, .delete 1 1 0 0 8⟩]] = some s ∧
      ∃ ps t, ps <+: [⟨0, .put 1 1 [10] 0 0 7⟩, ⟨1, .put 1 1 [10] 0 0 7⟩, ⟨2, .delete 1 1 0 0 8⟩] ∧
        (openLog []).runBatches (singly ps) = some t ∧ t.file.length ≤ 75 ∧
        RecoversTo (s.file.take 75) t := by
  have hruns : ∃ s, (openLog []).runBatches
      [[⟨0, .put 1 1 [10] 0 0 7⟩, ⟨1, .put 1 1 [10] 0 0 7⟩], [⟨2, .delete 1 1 0 0 8⟩]] = some s :=
    exists_runBatches (by decide) (by rw [openLog_nil]; decide)
  obtain ⟨s, hs⟩ := hruns
  obtain ⟨⟨ps, t, hps, ht, hle, -, hrec, -⟩, -⟩ :=
    recover_take _ s (by decide) (by decide) hs 75
  exact ⟨s, hs, ps, t, hps, ht, hle, hrec⟩

end GrainStore
