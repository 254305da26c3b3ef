import Mathlib
import GrainStore.Wal.Acks

/-!
# Nothing runs ahead of the log

What a run of the committer has ever shown to readers or sent to subscribers: whether it is in the
synced file, whether a crash at any point leaves it, and what of a failed batch is ever seen.
`NeverAhead` is the property, `neverAhead_of_fits` says that it holds throughout a run in which
every value that is given a timestamp fits the format.
-/

namespace GrainStore

open FixedWidth WalLog TruthStore

/-- A whole frame of a record is in the file. -/
def InFile (file : Bytes) (r : WalRecord) : Prop :=
  ∃ pre frame post, file = pre ++ frame ++ post ∧ decodeFrame frame = some (r, frame.length)

namespace InFile

variable {file : Bytes} {r : WalRecord}

/-- A frame stays in a file that grows. -/
lemma append (h : InFile file r) (ys : Bytes) : InFile (file ++ ys) r := by
  obtain ⟨pre, frame, post, rfl, hdecode⟩ := h
  exact ⟨pre, frame, post ++ ys, by simp, hdecode⟩

lemma prepend (h : InFile file r) (xs : Bytes) : InFile (xs ++ file) r := by
  obtain ⟨pre, frame, post, rfl, hdecode⟩ := h
  exact ⟨xs ++ pre, frame, post, by simp, hdecode⟩

/-- The frame of every record that scans off the front of a file is in the file. -/
lemma of_logOf (h : r ∈ logOf file) : InFile file r := by
  induction file using walCodec.toFrameDecoder.scan_induction with
  | none file hnone =>
    rw [logOf_of_none hnone] at h
    simp at h
  | some file r' n hsome ih =>
    rw [logOf_of_some hsome] at h
    have hsplit : file.take n ++ file.drop n = file := List.take_append_drop n file
    have hfront : InFile (file.take n) r' := by
      refine ⟨[], file.take n, [], by simp, ?_⟩
      rw [List.length_take, min_eq_left (walCodec.le hsome)]
      exact decodeFrame_take hsome
    rw [← hsplit]
    rcases List.mem_cons.mp h with rfl | h
    · exact hfront.append _
    · exact (ih h).prepend _

/-- The frames of records that fit the format are in the file they were appended to. -/
lemma of_mem {recs : List WalRecord} (hfit : ∀ r ∈ recs, r.Fits) (h : r ∈ recs) (file : Bytes) :
    InFile (file ++ recs.flatMap encodeFrame) r := by
  obtain ⟨before, after, rfl⟩ := List.append_of_mem h
  rw [List.flatMap_append, List.flatMap_cons, ← List.append_assoc, ← List.append_assoc]
  exact ⟨_, encodeFrame r, _, rfl, decodeFrame_encodeFrame (hfit r h)⟩

end InFile

namespace Machine

/-- The change record that a step publishes, if it does. -/
def publication : Machine × Event → Option CdcRecord
  | (⟨_, .publishing (r :: _) _⟩, .tick) => some r
  | _ => none

/-- The change records published in a run, in order. -/
def published (hist : List (Machine × Event)) : List CdcRecord := hist.filterMap publication

/-- What readers and subscribers have seen in a run from the log file `disk` is never ahead of the
synced file. -/
structure NeverAhead (disk : Bytes) (hist : List (Machine × Event)) (m : Machine) : Prop where
  /-- The records are issued in the order of their timestamps, on from the recovered clock. -/
  order : (issued hist).Pairwise (fun a b => a.seq < b.seq) ∧
    ∀ r ∈ issued hist, clock (logOf disk) < r.seq
  /-- Every version in the KV has its frame in the synced file. -/
  readable : ∀ x ∈ Trace.states hist m, ∀ key value : Bytes, x.st.kv.grains[key]? = some value →
    ∃ r ∈ logOf disk ++ issued hist, r.key = key ∧ r.value = value ∧ InFile x.st.file r
  /-- Subscribers are sent the records published. -/
  sent : m.st.cdc = (published hist).foldl CdcPublisher.publish CdcPublisher.new
  /-- Every record published has its frame in the synced file. -/
  published : ∀ c ∈ published hist, ∃ r ∈ issued hist, r.cdc = c ∧ InFile m.st.file r
  /-- A crash leaves the log recovered and the first records issued, among them all versions that
  were ever in the KV and all records that were published. -/
  crash : ∀ n, ∃ k, let l := logOf disk ++ (issued hist).take k
    recover MemKv.new (.ok (m.crash n)) = .ok (⟨grains l, ∅⟩,
        { highWatermark := clock l, idem := idem l, frames := l.length }) ∧
      (∀ x ∈ Trace.states hist m, ∀ key value : Bytes, x.st.kv.grains[key]? = some value →
        (grains l)[key]? = some value) ∧
      ∀ c ∈ Machine.published hist, ∃ r ∈ l, r.cdc = c
  /-- Nothing of a batch that failed is ever in the KV or published. -/
  failure : ∀ y e written b, (y, .fail e written) ∈ hist → y.phase = .writing b →
    (∀ x ∈ Trace.states hist m, (∀ r ∈ b.records, x.st.kv.grains[r.key]? = none) ∧
      x.st.kv.getMeta META_APPLIED_SEQ ≠ some (toBeBytes b.maxSeq)) ∧
    ∀ r ∈ b.records, ∀ c ∈ Machine.published hist, c.seq ≠ r.seq

variable {disk : Bytes} {m m' : Machine} {g : History} {hist : List (Machine × Event)}

/-! ## The batch under way -/

/-- What a batch under way says about the clock and the change records still to be published. -/
def InBatch (m : Machine) : Prop :=
  match m.phase with
  | .scanning _ b | .applying _ b => b.maxSeq = m.st.hlc.last
  | .writing b => b.maxSeq = m.st.hlc.last ∧ b.buf ≠ []
  | .publishing recs b => recs <:+ b.cdcRecs
  | _ => True

lemma InBatch.step {e : Event} (h : InBatch m) (hstep : m.next e = some m') : InBatch m' := by
  cases step_of_next hstep with
  | recv s first more => exact rfl
  | @scan s s' b b' pw rest hscan =>
    have hmax : b.maxSeq = s.hlc.last := h
    rcases Committer.scanReq_cases hscan with ⟨orig, _, rfl, rfl⟩ | ⟨_, hlt, rfl, rfl⟩
    · exact hmax
    · -- the next timestamp is the largest
      have hle : s.hlc.last ≤ s.hlc.last + 1 := by
        rw [BitVec.le_def, toNat_add_one hlt]
        exact Nat.le_succ _
      change max b.maxSeq (s.hlc.last + 1) = s.hlc.last + 1
      rw [hmax, max_eq_right hle]
  | skip s hbuf => exact h
  | write s hbuf => exact ⟨h, hbuf⟩
  | sync s b => exact h.1
  | put s k v puts b => exact h
  | putMeta s b => exact List.suffix_rfl
  | publish s r recs b => exact (List.suffix_cons r recs).trans h
  | _ => trivial

/-! ## What was seen -/

/-- What a run has published and written as metadata, in terms of its history. -/
structure Seen (disk : Bytes) (hist : List (Machine × Event)) (m : Machine) (g : History) :
    Prop where
  inv : Inv disk m g
  batch : InBatch m
  sent : m.st.cdc = (Machine.published hist).foldl CdcPublisher.publish CdcPublisher.new
  published : ∀ c ∈ Machine.published hist, ∃ r ∈ g.applied, r.cdc = c
  metadata : ∀ v, m.st.kv.getMeta META_APPLIED_SEQ = some v →
    ∃ seq, v = toBeBytes seq ∧ seq ≤ clock (logOf disk ++ g.applied)

lemma Seen.start (disk : Bytes) : Seen disk [] (start disk) ⟨[], [], []⟩ where
  inv := Inv.start disk
  batch := trivial
  sent := rfl
  published := by simp [Machine.published]
  metadata := by
    intro v hv
    simp [Machine.start, openLog, Wal.open, MemKv.getMeta] at hv

/-- The records of a longer run. -/
lemma published_concat (hist : List (Machine × Event)) (s : Machine × Event) :
    Machine.published (hist ++ [s]) = Machine.published hist ++ (publication s).toList := by
  rw [Machine.published, List.filterMap_append]
  cases hpub : publication s with
  | none => simp [hpub, Machine.published]
  | some c => simp [hpub, Machine.published]

/-- A step sends subscribers the record it publishes. -/
lemma Step.cdc {e : Event} (h : Step m e m') :
    m'.st.cdc = (publication (m, e)).toList.foldl CdcPublisher.publish m.st.cdc := by
  cases h with
  | @scan s s' b b' pw rest hscan =>
    rcases Committer.scanReq_cases hscan with ⟨orig, _, rfl, rfl⟩ | ⟨_, _, rfl, rfl⟩
    · rfl
    · rfl
  | _ => rfl

/-- What a step publishes is an applied record. -/
lemma Seen.publication {e : Event} (h : Seen disk hist m g) (hstep : Step m e m') {c : CdcRecord}
    (hc : publication (m, e) = some c) : ∃ r ∈ g.applied, r.cdc = c := by
  cases hstep with
  | publish s r recs b =>
    obtain rfl := Option.some.inj hc
    obtain ⟨htodo, -, -, hmem⟩ := h.inv.phase
    have hsuffix : r :: recs <:+ b.cdcRecs := h.batch
    have hr := hsuffix.subset List.mem_cons_self
    rw [b.cdcRecs_eq] at hr
    obtain ⟨r', hr', rfl⟩ := List.mem_map.mp hr
    have hlog := hmem r' hr'
    rw [History.log, htodo, List.append_nil] at hlog
    exact ⟨r', hlog, rfl⟩
  | _ => simp [Machine.publication] at hc

/-- A step changes the metadata only once a batch is applied, to its largest timestamp. -/
lemma Step.metadata {e : Event} (h : Step m e m') :
    m'.st.kv.metadata = m.st.kv.metadata ∨ ∃ b, m.phase = .applying [] b ∧
      m'.st.kv.metadata = m.st.kv.metadata.insert META_APPLIED_SEQ (toBeBytes b.maxSeq) := by
  cases h with
  | @scan s s' b b' pw rest hscan =>
    rcases Committer.scanReq_cases hscan with ⟨orig, _, rfl, rfl⟩ | ⟨_, _, rfl, rfl⟩
    · exact Or.inl rfl
    · exact Or.inl rfl
  | putMeta s b => exact Or.inr ⟨b, rfl, rfl⟩
  | _ => exact Or.inl rfl

/-- A longer log has a later clock. -/
lemma clock_le_of_longer (base : List WalRecord) {l l' : List WalRecord} (h : l <+: l') :
    clock (base ++ l) ≤ clock (base ++ l') := by
  obtain ⟨more, rfl⟩ := h
  induction more using List.reverseRecOn with
  | nil => rw [List.append_nil]
  | append_singleton more r ih =>
    rw [← List.append_assoc, ← List.append_assoc, clock_concat, List.append_assoc]
    exact ih.trans (le_max_left _ _)

lemma Seen.step {e : Event} (h : Seen disk hist m g) (hstep : m.next e = some m') :
    Seen disk (hist ++ [(m, e)]) m' (follow g (m, e)) := by
  obtain ⟨hinv', hon⟩ := h.inv.follow hstep
  have hkind := step_of_next hstep
  refine ⟨hinv', h.batch.step hstep, ?_, ?_, ?_⟩
  · rw [published_concat, List.foldl_append, ← h.sent]
    exact hkind.cdc
  · intro c hc
    rw [published_concat] at hc
    have hold : ∃ r ∈ g.applied, r.cdc = c := by
      rcases List.mem_append.mp hc with hc | hc
      · exact h.published c hc
      · exact h.publication hkind (Option.mem_toList.mp hc)
    obtain ⟨r, hr, hrec⟩ := hold
    exact ⟨r, hon.applied.subset hr, hrec⟩
  · intro v hv
    have hlater := clock_le_of_longer (logOf disk) hon.applied
    rcases hkind.metadata with hsame | ⟨b, hphase, hnew⟩
    · rw [MemKv.getMeta, hsame] at hv
      obtain ⟨seq, hseq, hle⟩ := h.metadata v hv
      exact ⟨seq, hseq, hle.trans hlater⟩
    · rw [MemKv.getMeta, hnew, OrderedMap.getElem?_insert_eq, if_pos rfl] at hv
      refine ⟨b.maxSeq, (Option.some.inj hv).symm, le_trans ?_ hlater⟩
      -- the batch is applied, so the clock covers applied records only
      have hbatch := h.batch
      have hp := h.inv.phase
      unfold InBatch at hbatch
      unfold InPhase at hp
      rw [hphase] at hbatch hp
      obtain ⟨hputs, hpend, -⟩ := hp
      have htodo : g.todo = [] := List.map_eq_nil_iff.mp hputs.symm
      have hclock := h.inv.clock
      rw [History.full, History.log, htodo, hpend, List.append_nil, List.append_nil] at hclock
      rw [hbatch, hclock]

/-- What every run has published and written as metadata. -/
lemma seen_of_run (h : RunFrom disk hist m) : Seen disk hist m (historyOf hist) := by
  induction h with
  | start => exact Seen.start disk
  | step _ hstep ih =>
    rw [historyOf_concat]
    exact ih.step hstep

/-! ## After a failure -/

/-- The committer has met a failure, or has ended. -/
def Ended (m : Machine) : Prop :=
  match m.phase with
  | .failing _ _ | .stopped => True
  | _ => False

/-- Once it has ended, the committer changes nothing a reader or subscriber sees. -/
lemma Ended.step {e : Event} (h : Ended m) (hstep : m.next e = some m') :
    Ended m' ∧ m'.st.kv = m.st.kv ∧ publication (m, e) = none := by
  cases step_of_next hstep with
  | error s e a acks => exact ⟨trivial, rfl, rfl⟩
  | failed s e => exact ⟨trivial, rfl, rfl⟩
  | _ => exact h.elim

lemma Ended.run (h : Ended m) (hrun : Trace.Run next m hist m') :
    Ended m' ∧ (∀ x ∈ Trace.states hist m', x.st.kv = m.st.kv) ∧ Machine.published hist = [] := by
  induction hrun with
  | start => exact ⟨h, by simp [Trace.states], rfl⟩
  | @step hist y z e hrun hstep ih =>
    obtain ⟨hended, hkv, hpub⟩ := ih
    obtain ⟨hended', hkv', hpub'⟩ := hended.step hstep
    refine ⟨hended', ?_, ?_⟩
    · intro x hx
      rw [Trace.states_concat] at hx
      rcases List.mem_append.mp hx with hx | hx
      · exact hkv x hx
      · rw [List.mem_singleton.mp hx, hkv', hkv y Trace.mem_states_self]
    · rw [published_concat, hpub, hpub']
      rfl

/-- The history of a state that a run goes through. -/
lemma seen_of_mem_states (h : RunFrom disk hist m) {x : Machine} (hx : x ∈ Trace.states hist m) :
    ∃ before after, hist = before ++ after ∧ Seen disk before x (historyOf before) ∧
      GoesOn (historyOf before) (historyOf hist) := by
  obtain ⟨before, after, rfl, hbefore, hafter⟩ := h.exists_split hx
  exact ⟨before, after, rfl, seen_of_run hbefore, goesOn_historyOf hbefore hafter⟩

/-- A version in the KV at some time is a recovered or an applied one. -/
lemma mem_of_stored (h : RunFrom disk hist m) {x : Machine} (hx : x ∈ Trace.states hist m)
    {key value : Bytes} (hkey : x.st.kv.grains[key]? = some value) :
    ∃ r ∈ logOf disk ++ (historyOf hist).applied, r.key = key := by
  obtain ⟨before, after, rfl, hseen, hon⟩ := seen_of_mem_states h hx
  rw [hseen.inv.grains] at hkey
  obtain ⟨r, hr, hrkey, -⟩ := exists_of_grains hkey
  exact ⟨r, ((List.prefix_append_right_inj _).mpr hon.applied).subset hr, hrkey⟩

/-- What was seen before a write fails has nothing of the batch. -/
lemma unseen_of_writing (h : RunFrom disk hist m) {b : Batch} (hphase : m.phase = .writing b) :
    (∀ x ∈ Trace.states hist m, (∀ r ∈ b.records, x.st.kv.grains[r.key]? = none) ∧
        x.st.kv.getMeta META_APPLIED_SEQ ≠ some (toBeBytes b.maxSeq)) ∧
      ∀ r ∈ b.records, ∀ c ∈ Machine.published hist, c.seq ≠ r.seq := by
  have hseen := seen_of_run h
  set g := historyOf hist with hg
  have hp := hseen.inv.phase
  have hbatch := hseen.batch
  unfold InPhase at hp
  unfold InBatch at hbatch
  rw [hphase] at hp hbatch
  obtain ⟨htodo, hpend, -⟩ := hp
  obtain ⟨hmax, hbuf⟩ := hbatch
  have hlog : g.log = g.applied := by rw [History.log, htodo, List.append_nil]
  have hext : Extends (logOf disk) (g.applied ++ b.records) := by
    rw [← hlog, ← hpend]
    exact hseen.inv.ext
  refine ⟨fun x hx => ⟨fun r hr => ?_, fun hmeta => ?_⟩, fun r hr c hc => ?_⟩
  · cases hkey : x.st.kv.grains[r.key]? with
    | none => rfl
    | some v =>
      obtain ⟨r', hr', hkey'⟩ := mem_of_stored h hx hkey
      exact absurd (grainKey_inj.mp hkey').2.2 (hext.seq_ne hr' hr)
  · obtain ⟨before, after, -, hseen', hon⟩ := seen_of_mem_states h hx
    obtain ⟨seq, hseq, hle⟩ := hseen'.metadata _ hmeta
    -- the batch has a record, whose timestamp is above all that are applied
    obtain ⟨r, hr⟩ : ∃ r, r ∈ b.records := by
      refine List.exists_mem_of_ne_nil _ fun hnil => hbuf ?_
      rw [b.buf_eq]
      exact congrArg (List.flatMap encodeFrame) hnil
    have hlt : clock (logOf disk ++ g.applied) < r.seq := hext.shift.clock_lt_seq hr
    have hlast : r.seq ≤ b.maxSeq := by
      rw [hmax, hseen.inv.clock, History.full, hlog, hpend]
      exact seq_le_clock (List.mem_append_right _ (List.mem_append_right _ hr))
    have hbelow : seq ≤ clock (logOf disk ++ g.applied) :=
      hle.trans (clock_le_of_longer _ hon.applied)
    have hsame := congrArg (fromBeBytes 64) hseq
    rw [fromBeBytes_toBeBytes (by decide), fromBeBytes_toBeBytes (by decide)] at hsame
    rw [hsame] at hlast
    exact absurd (hlt.trans_le hlast) (not_lt.mpr hbelow)
  · obtain ⟨r', hr', rfl⟩ := hseen.published c hc
    exact hext.seq_ne (List.mem_append_right _ hr') hr

/-- Nothing of a batch that failed is ever seen. -/
lemma unseen_of_fail (h : RunFrom disk hist m) {y : Machine} {e : IoError} {written : ℕ} {b : Batch}
    (hfail : (y, Event.fail e written) ∈ hist) (hphase : y.phase = .writing b) :
    (∀ x ∈ Trace.states hist m, (∀ r ∈ b.records, x.st.kv.grains[r.key]? = none) ∧
        x.st.kv.getMeta META_APPLIED_SEQ ≠ some (toBeBytes b.maxSeq)) ∧
      ∀ r ∈ b.records, ∀ c ∈ Machine.published hist, c.seq ≠ r.seq := by
  obtain ⟨before, after, rfl⟩ := List.append_of_mem hfail
  obtain ⟨z, hbefore, hstep, hafter⟩ := h.of_append_cons
  obtain ⟨hkv, hpub⟩ := unseen_of_writing hbefore hphase
  -- the failure ends the committer
  have hz : Ended z ∧ z.st.kv = y.st.kv ∧ publication (y, .fail e written) = none := by
    obtain ⟨s, phase⟩ := y
    obtain rfl : phase = .writing b := hphase
    obtain rfl := Option.some.inj hstep
    exact ⟨trivial, rfl, rfl⟩
  obtain ⟨hended, hzkv, hnone⟩ := hz
  obtain ⟨-, hsame, hquiet⟩ := hended.run hafter
  refine ⟨?_, ?_⟩
  · intro x hx
    have hx' : x ∈ Trace.states before y ∨ x ∈ Trace.states after m := by
      simp only [Trace.states, List.map_append, List.map_cons, List.mem_append, List.mem_cons,
        List.not_mem_nil, or_false] at hx ⊢
      tauto
    rcases hx' with hx' | hx'
    · exact hkv x hx'
    · rw [hsame x hx', hzkv]
      exact hkv y Trace.mem_states_self
  · intro r hr c hc
    have hall : Machine.published (before ++ (y, Event.fail e written) :: after) =
        Machine.published before := by
      rw [Machine.published, List.filterMap_append, List.filterMap_cons_none hnone]
      rw [Machine.published] at hquiet
      rw [hquiet, List.append_nil]
      rfl
    rw [hall] at hc
    exact hpub r hr c hc

/-! ## Runs -/

/-- Reads and change records never run ahead of durability.  In every run from a log file without a
torn tail in which every value that is given a timestamp fits the format, whatever the batches,
the failures and the point it has come to: every version ever in the KV and every record ever
published has its frame in the synced file, a crash leaves the log of the first commits with all of
these among them, and nothing of a failed batch is ever seen. -/
theorem neverAhead_of_fits (h : RunFrom disk hist m) (hwhole : walCodec.rest disk = [])
    (hfit : ∀ s ∈ hist, ∀ r, issue s = some r → r.Fits) : NeverAhead disk hist m := by
  have hseen := seen_of_run h
  have hfull := full_historyOf hist
  have hfits : ∀ r ∈ issued hist, r.Fits := by
    intro r hr
    obtain ⟨s, hs, hissue⟩ := List.mem_filterMap.mp hr
    exact hfit s hs r hissue
  have hext := hseen.inv.ext
  rw [hfull] at hext
  have happlied : ∀ r ∈ (historyOf hist).applied, r ∈ issued hist := by
    intro r hr
    rw [← hfull]
    exact List.mem_append_left _ (List.mem_append_left _ hr)
  refine ⟨⟨hext.pairwise_seq, fun r hr => hext.clock_lt_seq hr⟩, ?_, hseen.sent, ?_, ?_, ?_⟩
  · intro x hx key value hkey
    obtain ⟨before, after, hsplit, hseen', hon⟩ := seen_of_mem_states h hx
    rw [hseen'.inv.grains] at hkey
    obtain ⟨r, hr, hrkey, hrvalue⟩ := exists_of_grains hkey
    rcases List.mem_append.mp hr with hr | hr
    · refine ⟨r, List.mem_append_left _ hr, hrkey, hrvalue, ?_⟩
      rw [hseen'.inv.file]
      exact (InFile.of_logOf hr).append _
    · have hlater := happlied r (hon.applied.subset hr)
      refine ⟨r, List.mem_append_right _ hlater, hrkey, hrvalue, ?_⟩
      have hlog : ∀ r ∈ (historyOf before).log, r.Fits := by
        intro r hr
        have hmem := hon.full.subset (List.mem_append_left _ hr)
        rw [hfull] at hmem
        exact hfits r hmem
      rw [hseen'.inv.file]
      exact InFile.of_mem hlog (List.mem_append_left _ hr) disk
  · intro c hc
    obtain ⟨r, hr, hrec⟩ := hseen.published c hc
    refine ⟨r, happlied r hr, hrec, ?_⟩
    have hlog : ∀ r ∈ (historyOf hist).log, r.Fits := by
      intro r hr
      have hmem := List.mem_append_left (historyOf hist).pend hr
      rw [← History.full, hfull] at hmem
      exact hfits r hmem
    rw [hseen.inv.file]
    exact InFile.of_mem hlog (List.mem_append_left _ hr) disk
  · intro n
    obtain ⟨k, hlog⟩ := hseen.inv.logOf_crash hwhole (by rwa [hfull]) n
    refine ⟨(historyOf hist).log.length + k, ?_⟩
    have htake : (issued hist).take ((historyOf hist).log.length + k) =
        (historyOf hist).log ++ (historyOf hist).pend.take k := by
      rw [← hfull, History.full, List.take_append, List.take_of_length_le (Nat.le_add_right _ _),
        Nat.add_sub_cancel_left]
    have hkept : Extends (logOf disk) ((historyOf hist).applied ++
        ((historyOf hist).todo ++ (historyOf hist).pend.take k)) := by
      rw [← List.append_assoc, ← History.log, ← htake]
      rw [← List.take_append_drop ((historyOf hist).log.length + k) (issued hist)] at hext
      exact hext.of_append
    rw [htake]
    refine ⟨by rw [recover_ok, hlog], ?_, ?_⟩
    · intro x hx key value hkey
      obtain ⟨before, after, -, hseen', hon⟩ := seen_of_mem_states h hx
      rw [hseen'.inv.grains] at hkey
      obtain ⟨more, hmore⟩ := hon.applied
      rw [History.log, List.append_assoc, ← hmore, List.append_assoc]
      refine Extends.grains_append_of_some ?_ hkey
      rwa [← List.append_assoc, hmore]
    · intro c hc
      obtain ⟨r, hr, hrec⟩ := hseen.published c hc
      refine ⟨r, List.mem_append_right _ (List.mem_append_left _ ?_), hrec⟩
      exact List.mem_append_left _ hr
  · intro y e written b hfail hphase
    exact unseen_of_fail h hfail hphase

/-! ## A value that does not fit -/

/-- A frame whose length field has wrapped to less than a record is not readable, whatever follows
it. -/
lemma decodeFrame_of_wrapped {r : WalRecord} (h : (REC_FIXED + r.val.length) % 2 ^ 32 < REC_FIXED)
    (rest : Bytes) : decodeFrame (encodeFrame r ++ rest) = none := by
  cases hdecode : decodeFrame (encodeFrame r ++ rest) with
  | none => rfl
  | some p =>
    obtain ⟨r', n⟩ := p
    obtain ⟨-, hn, -, -, hpay⟩ := decodeFrame_eq_some_iff.mp hdecode
    have hhead : slice (encodeFrame r ++ rest) 0 4 =
        toLeBytes (BitVec.ofNat 32 (encodePayload r).length) := by
      rw [encodeFrame, List.append_assoc, List.append_assoc, slice_append_left (by simp)]
    rw [hhead, fromLeBytes_toLeBytes (by decide), BitVec.toNat_ofNat, length_encodePayload] at hn
    have hshort : (slice (encodeFrame r ++ rest) 8 n).length < REC_FIXED := by
      rw [slice, List.length_take, hn, Nat.add_sub_cancel_left]
      exact (min_le_left _ _).trans_lt h
    rw [decodePayload, if_pos hshort] at hpay
    simp at hpay

/-- One put of a value of `2^32 - 61` bytes: its version is readable, and recovery finds nothing. -/
theorem not_neverAhead :
    ∃ hist m, RunFrom [] hist m ∧ walCodec.rest [] = [] ∧ ¬NeverAhead [] hist m := by
  obtain ⟨val, hval⟩ : ∃ val : Bytes, val.length = 2 ^ 32 - 61 :=
    ⟨List.replicate _ 0, List.length_replicate⟩
  set pw : Pending := ⟨0, .put 1 1 val 0 0 7⟩ with hpw
  set r : WalRecord := pw.req.record 1 with hr
  obtain ⟨s', hcommit⟩ : ∃ s', (openLog []).commitBatch [pw] = some s' := by
    rw [openLog_nil]
    exact ⟨_, rfl⟩
  have hdone := Committer.committed_of_commitBatch (List.cons_ne_nil _ _) hcommit
  have hrecs : (openLog []).ledger.records [pw] = [r] := by
    rw [openLog_nil]
    rfl
  have hfile : s'.file = encodeFrame r := by
    rw [hdone.file, hrecs, List.flatMap_singleton, openLog_nil]
    rfl
  have hgrains : s'.kv.grains[r.key]? = some r.value := by
    rw [hdone.kv, hrecs, List.foldl_cons, List.foldl_nil, OrderedMap.getElem?_insert_eq, if_pos rfl]
  obtain ⟨hist, hrun⟩ := reaches_of_commitBatch hcommit
  refine ⟨hist, ⟨s', .idle⟩, hrun, ?_, ?_⟩
  · exact walCodec.toFrameDecoder.rest_of_none rfl
  · intro hahead
    obtain ⟨k, hrecover, hkept, -⟩ := hahead.crash 0
    have hwrapped : (REC_FIXED + r.val.length) % 2 ^ 32 < REC_FIXED := by
      have hlen : r.val.length = 2 ^ 32 - 61 := hval
      rw [hlen, REC_FIXED]
      decide
    have hcrash : (⟨s', .idle⟩ : Machine).crash 0 = encodeFrame r ++ [] := by
      rw [crash, List.take_zero, hfile]
    have hnil : logOf ((⟨s', .idle⟩ : Machine).crash 0) = [] := by
      rw [hcrash, logOf_of_none (decodeFrame_of_wrapped hwrapped [])]
    have hgrain := hkept _ Trace.mem_states_self r.key r.value hgrains
    rw [recover_ok, hnil, Except.ok.injEq, Prod.mk.injEq, MemKv.mk.injEq] at hrecover
    rw [← hrecover.1.1] at hgrain
    simp at hgrain

/-- A put, and a second one whose write fails after five bytes: the second never shows, and a crash
leaves the first. -/
theorem neverAhead_of_fits_failed :
    ∃ hist m, RunFrom [] hist m ∧ m.phase = .stopped ∧ m.st.tail.length = 5 ∧
      (published hist).length = 1 ∧ NeverAhead [] hist m := by
  have hexec : (Trace.exec next (start []) ([.recv ⟨0, .put 1 1 [10] 0 0 7⟩ []] ++
      List.replicate 9 .tick ++ [.recv ⟨1, .put 1 1 [20] 0 0 8⟩ [], .tick, .tick,
        .fail ⟨.other, "disk full"⟩ 5, .tick, .tick])).map
        (fun p => (p.2.st.tail.length, (published p.1).length, p.2.phase matches .stopped,
          p.1.all fun s => (issue s).all fun r => decide r.Fits)) =
      some (5, 1, true, true) := by
    rw [start, openLog_nil]
    rfl
  obtain ⟨⟨hist, m⟩, hrun, heq⟩ := Option.map_eq_some_iff.mp hexec
  simp only [Prod.mk.injEq] at heq
  obtain ⟨htail, hpub, hstopped, hfit⟩ := heq
  have hphase : m.phase = .stopped := by
    split at hstopped
    · assumption
    · simp at hstopped
  refine ⟨hist, m, Trace.run_of_exec hrun, hphase, htail, hpub,
    neverAhead_of_fits (Trace.run_of_exec hrun) (walCodec.toFrameDecoder.rest_of_none rfl) ?_⟩
  intro s hs r hissue
  have hall := List.all_eq_true.mp hfit s hs
  rw [hissue] at hall
  simpa using hall

end Machine

end GrainStore
