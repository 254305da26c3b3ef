import Mathlib
import GrainStore.Wal.Durability

/-!
# Values that are too long

Both length fields of a frame are casts to `u32`, and no layer limits the length of a value.  The
frame of a record decodes to the record exactly when the record fits the format
(`decodeFrame_encodeFrame_iff`), so what a run of the committer appends to the log can be read back
exactly when the values that it appends fit (`readable_iff_fits`).
-/

namespace GrainStore

open FixedWidth WalLog TruthStore

/-- The frame of a record decodes to the record, all of it consumed, exactly when the payload's
length fits the `u32` length field. -/
lemma decodeFrame_encodeFrame_iff {r : WalRecord} :
    decodeFrame (encodeFrame r) = some (r, (encodeFrame r).length) ↔ r.Fits := by
  refine ⟨?_, decodeFrame_encodeFrame⟩
  intro h
  obtain ⟨-, hn, -⟩ := decodeFrame_eq_some_iff.mp h
  have hhead : slice (encodeFrame r) 0 4 =
      toLeBytes (BitVec.ofNat 32 (encodePayload r).length) := by
    rw [encodeFrame, List.append_assoc, slice_append_left (by simp)]
  rw [hhead, fromLeBytes_toLeBytes (by decide), length_encodeFrame, Nat.add_assoc] at hn
  rw [WalRecord.Fits, Nat.add_left_cancel hn]
  exact BitVec.isLt _

namespace Machine

variable {disk : Bytes} {m m' : Machine} {g : History} {hist : List (Machine × Event)}

/-- What a run from the log file `disk` appended to the log can be read back. -/
structure Readable (disk : Bytes) (hist : List (Machine × Event)) (m : Machine) : Prop where
  /-- Every frame written decodes to the record it was written for, and ends where it ends. -/
  decode : ∀ r ∈ (historyOf hist).log,
    decodeFrame (encodeFrame r) = some (r, (encodeFrame r).length)
  /-- Behind a whole log, all records written are recovered. -/
  log : walCodec.rest disk = [] → logOf m.st.file = logOf disk ++ (historyOf hist).log
  /-- Between two batches, so is every write that was acknowledged. -/
  acked : walCodec.rest disk = [] → m.phase = .idle → ∀ pw seq, (pw, .ok seq) ∈ m.st.sent →
    ∃ r ∈ logOf m.st.file, r.idemKey = pw.req.idemKey ∧ r.seq = seq

/-! ## Answers -/

/-- All answers sent so far are about records that were given a timestamp. -/
def Answered (disk : Bytes) (m : Machine) (g : History) : Prop :=
  ∀ pw seq, (pw, .ok seq) ∈ m.st.sent →
    ∃ r ∈ logOf disk ++ g.full, r.idemKey = pw.req.idemKey ∧ r.seq = seq

lemma Answered.step {e : Event} {g' : History} (h : Answered disk m g) (hinv : Inv disk m g)
    (hon : GoesOn g g') (hstep : m.next e = some m') : Answered disk m' g' := by
  have hfull : ∀ r ∈ logOf disk ++ g.full, r ∈ logOf disk ++ g'.full := fun r hr =>
    (List.mem_append.mp hr).elim (List.mem_append_left _)
      fun hr => List.mem_append_right _ (hon.full.subset hr)
  intro pw seq hsent
  rcases (step_of_next hstep).mem_sent hsent with hold | ⟨rest, b, -, hidem⟩ | ⟨acks, hacking⟩
  · obtain ⟨r, hr, hrest⟩ := h pw seq hold
    exact ⟨r, hfull r hr, hrest⟩
  · rw [hinv.idem] at hidem
    obtain ⟨r, hr, hrest⟩ := exists_of_idem hidem
    exact ⟨r, hfull r hr, hrest⟩
  · have hphase := hinv.phase
    rw [InPhase, hacking] at hphase
    have hr := hphase.2.2.2 (pw.req.record seq) (List.mem_map_of_mem List.mem_cons_self)
    exact ⟨_, hfull _ (List.mem_append_right _ (List.mem_append_left _ hr)), rfl, rfl⟩

lemma answered_of_run (h : RunFrom disk hist m) : Answered disk m (historyOf hist) := by
  induction h with
  | start =>
    intro pw seq hsent
    simp [start, TruthStore.openLog, Wal.open] at hsent
  | step hrun hstep ih =>
    rw [historyOf_concat]
    have hinv := inv_of_run hrun
    exact ih.step hinv (hinv.follow hstep).2.toGoesOn hstep

/-! ## The exact condition -/

/-- What a run appends to the log can be read back exactly when every value that it appends fits
the format. -/
theorem readable_iff_fits (h : RunFrom disk hist m) :
    Readable disk hist m ↔ ∀ r ∈ (historyOf hist).log, r.Fits := by
  have hinv := inv_of_run h
  constructor
  · intro hread r hr
    exact decodeFrame_encodeFrame_iff.mp (hread.decode r hr)
  · intro hfits
    have hlog : walCodec.rest disk = [] →
        logOf m.st.file = logOf disk ++ (historyOf hist).log := by
      intro hwhole
      rw [hinv.file]
      calc logOf (disk ++ (historyOf hist).log.flatMap encodeFrame)
          = logOf disk ++ logOf (walCodec.rest disk ++ (historyOf hist).log.flatMap encodeFrame) :=
            walCodec.toFrameDecoder.frames_append _ _
        _ = logOf disk ++ (historyOf hist).log := by
            rw [hwhole, List.nil_append, logOf_flatMap hfits]
    refine ⟨fun r hr => decodeFrame_encodeFrame (hfits r hr), hlog, ?_⟩
    intro hwhole hidle pw seq hsent
    obtain ⟨r, hr, hrest⟩ := answered_of_run h pw seq hsent
    have hphase := hinv.phase
    rw [InPhase, hidle] at hphase
    rw [History.full, hphase.2.1, List.append_nil, ← hlog hwhole] at hr
    exact ⟨r, hr, hrest⟩

/-- Two puts, the first of a value of `2^32 - 61` bytes: both are acknowledged, and the log is
read as empty. -/
theorem not_readable :
    ∃ hist m, RunFrom [] hist m ∧ m.phase = .idle ∧
      m.st.sent.map Prod.snd = [.ok 1, .ok 2] ∧ logOf m.st.file = [] ∧ ¬Readable [] hist m := by
  obtain ⟨val, hval⟩ : ∃ val : Bytes, val.length = 2 ^ 32 - 61 :=
    ⟨List.replicate _ 0, List.length_replicate⟩
  set long : Pending := ⟨0, .put 1 1 val 0 0 7⟩ with hlong
  set short : Pending := ⟨1, .put 2 1 [10] 0 0 8⟩ with hshort
  obtain ⟨s', hcommit, hsent⟩ : ∃ s', (openLog []).commitBatch [long, short] = some s' ∧
      s'.sent.map Prod.snd = [.ok 1, .ok 2] := by
    rw [openLog_nil]
    exact ⟨_, rfl, rfl⟩
  have hdone := Committer.committed_of_commitBatch (List.cons_ne_nil _ _) hcommit
  have hrecs : (openLog []).ledger.records [long, short] =
      [long.req.record 1, short.req.record 2] := by
    rw [openLog_nil]
    rfl
  have hfile : s'.file = encodeFrame (long.req.record 1) ++ encodeFrame (short.req.record 2) := by
    rw [hdone.file, hrecs, List.flatMap_cons, List.flatMap_singleton, openLog_nil]
    rfl
  have hwrapped : (REC_FIXED + (long.req.record 1).val.length) % 2 ^ 32 < REC_FIXED := by
    have hlen : (long.req.record 1).val.length = 2 ^ 32 - 61 := hval
    rw [hlen, REC_FIXED]
    decide
  have hnil : logOf s'.file = [] := by
    rw [hfile, logOf_of_none (decodeFrame_of_wrapped hwrapped _)]
  obtain ⟨hist, hrun⟩ := reaches_of_commitBatch hcommit
  refine ⟨hist, ⟨s', .idle⟩, hrun, rfl, hsent, hnil, ?_⟩
  intro hread
  have hok : .ok 1 ∈ s'.sent.map Prod.snd := hsent ▸ List.mem_cons_self
  obtain ⟨⟨pw, _⟩, hmem, rfl⟩ := List.mem_map.mp hok
  have hwhole : walCodec.rest [] = [] := walCodec.toFrameDecoder.rest_of_none rfl
  obtain ⟨r, hr, -⟩ := hread.acked hwhole rfl pw 1 hmem
  dsimp only at hr
  rw [hnil] at hr
  simp at hr

/-- A put of one byte, and what it appended is read back. -/
theorem readable_iff_fits_put :
    ∃ hist m, RunFrom [] hist m ∧ (historyOf hist).log.length = 1 ∧ Readable [] hist m := by
  have hexec : (Trace.exec next (start []) ([.recv ⟨0, .put 1 1 [10] 0 0 7⟩ []] ++
      List.replicate 9 .tick)).map
        (fun p => ((historyOf p.1).log.length, (historyOf p.1).log.all fun r => decide r.Fits)) =
      some (1, true) := by
    rw [start, openLog_nil]
    rfl
  obtain ⟨⟨hist, m⟩, hrun, heq⟩ := Option.map_eq_some_iff.mp hexec
  obtain ⟨hlen, hfit⟩ := Prod.mk.inj heq
  have hrun' : RunFrom [] hist m := Trace.run_of_exec hrun
  refine ⟨hist, m, hrun', hlen, (readable_iff_fits hrun').mpr fun r hr => ?_⟩
  simpa using List.all_eq_true.mp hfit r hr

end Machine

end GrainStore
