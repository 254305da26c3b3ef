import Mathlib
import GrainStore.Recovery.Represents
import GrainStore.Wal.Machine

/-!
# The invariant of the committer

What holds in every state of a run of the committer, from any log file: the file is the file
opened and the frames synced since, the KV is what the recovered log and the records applied
since mean, and the ledger is what they, the records synced and the records still to be synced
mean.

A `History` names these records and `follow` is what a step makes of them.  `Inv.follow` says that
a step keeps the invariant and only adds to the history.
-/

namespace GrainStore

open WalLog

/-- The records a committer has made since it was started, by how far they got. -/
structure History where
  /-- The records in the KV. -/
  applied : List WalRecord
  /-- The records synced, but not in the KV yet. -/
  todo : List WalRecord
  /-- The records that have a timestamp, but are not synced. -/
  pend : List WalRecord

namespace History

/-- The records synced. -/
def log (g : History) : List WalRecord := g.applied ++ g.todo

/-- All records. -/
def full (g : History) : List WalRecord := g.log ++ g.pend

/-- One more record gets a timestamp. -/
def push (g : History) (r : WalRecord) : History := { g with pend := g.pend ++ [r] }

/-- All records are synced. -/
def sync (g : History) : History := ⟨g.applied, g.todo ++ g.pend, []⟩

/-- The oldest record synced and not applied is applied. -/
def apply : History → History
  | ⟨applied, r :: todo, pend⟩ => ⟨applied ++ [r], todo, pend⟩
  | g => g

@[simp] lemma full_push (g : History) (r : WalRecord) : (g.push r).full = g.full ++ [r] := by
  simp [full, push, log]

@[simp] lemma full_sync (g : History) : g.sync.full = g.full := by
  simp [full, sync, log]

@[simp] lemma full_apply (g : History) : g.apply.full = g.full := by
  obtain ⟨applied, todo, pend⟩ := g
  cases todo with
  | nil => rfl
  | cons r todo => simp [full, apply, log]

@[simp] lemma log_sync (g : History) : g.sync.log = g.full := by
  simp [full, sync, log]

end History

namespace Machine

/-- The record that a step gives a timestamp, if it does. -/
def issue : Machine × Event → Option WalRecord
  | (⟨s, .scanning (pw :: _) _⟩, .tick) =>
    if s.idem[pw.req.idemKey]? = none then s.hlc.next.map fun p => pw.req.record p.1 else none
  | _ => none

/-- The history after a step. -/
def follow (g : History) (s : Machine × Event) : History :=
  match s.1.phase, s.2 with
  | .scanning (_ :: _) _, .tick => (issue s).elim g g.push
  | .scanning [] b, .tick => if b.buf = [] then g.sync else g
  | .writing _, .tick => g.sync
  | .applying (_ :: _) _, .tick => g.apply
  | _, _ => g

/-- What the phase of the committer says about its records and its file. -/
def InPhase (m : Machine) (g : History) : Prop :=
  match m.phase with
  | .idle => g.todo = [] ∧ g.pend = [] ∧ m.st.tail = []
  | .scanning _ b => g.todo = [] ∧ g.pend = b.records ∧ m.st.tail = []
  | .writing b => g.todo = [] ∧ g.pend = b.records ∧ m.st.tail = []
  | .applying puts b => puts = g.todo.map (fun r => (r.key, r.value)) ∧ g.pend = [] ∧
      m.st.tail = [] ∧ (∃ done, b.records = done ++ g.todo) ∧ ∀ r ∈ b.records, r ∈ g.log
  | .publishing _ b => g.todo = [] ∧ g.pend = [] ∧ m.st.tail = [] ∧ ∀ r ∈ b.records, r ∈ g.log
  | .acking acks => g.todo = [] ∧ g.pend = [] ∧ m.st.tail = [] ∧ ∀ r ∈ recordsOf acks, r ∈ g.log
  | .failing _ _ => g.todo = [] ∧ m.st.tail <+: g.pend.flatMap encodeFrame
  | .stopped => g.todo = [] ∧ m.st.tail <+: g.pend.flatMap encodeFrame

/-- The invariant of the committer, started on the log file `disk`. -/
structure Inv (disk : Bytes) (m : Machine) (g : History) : Prop where
  /-- The synced file. -/
  file : m.st.file = disk ++ g.log.flatMap encodeFrame
  /-- The clock and the dedup map cover all records, synced or not. -/
  ledger : m.st.ledger = Ledger.ofLog (logOf disk ++ g.full)
  /-- The KV covers the applied ones. -/
  grains : m.st.kv.grains = WalLog.grains (logOf disk ++ g.applied)
  /-- All records extend the recovered log. -/
  ext : Extends (logOf disk) g.full
  phase : InPhase m g

/-- A history goes on from another when it has more records, and none of them less far. -/
structure GoesOn (g g' : History) : Prop where
  applied : g.applied <+: g'.applied
  log : g.log <+: g'.log
  full : g.full <+: g'.full

lemma GoesOn.refl (g : History) : GoesOn g g :=
  ⟨List.prefix_rfl, List.prefix_rfl, List.prefix_rfl⟩

lemma GoesOn.trans {g₁ g₂ g₃ : History} (h : GoesOn g₁ g₂) (h' : GoesOn g₂ g₃) : GoesOn g₁ g₃ :=
  ⟨h.applied.trans h'.applied, h.log.trans h'.log, h.full.trans h'.full⟩

/-- How one step of the committer adds to the history: the only record it may add is that of
the request it scans. -/
structure StepsOn (m : Machine) (g g' : History) : Prop extends GoesOn g g' where
  new : g'.full = g.full ∨ ∃ pw rest b, m.phase = .scanning (pw :: rest) b ∧
    m.st.scanReq b pw ≠ none ∧ g'.full = g.full ++ [pw.req.record (m.st.hlc.last + 1)]

lemma StepsOn.refl (m : Machine) (g : History) : StepsOn m g g :=
  ⟨GoesOn.refl g, Or.inl rfl⟩

lemma StepsOn.sync (m : Machine) (g : History) : StepsOn m g g.sync := by
  refine ⟨⟨List.prefix_rfl, ?_, ?_⟩, Or.inl g.full_sync⟩
  · rw [History.log_sync]
    exact List.prefix_append _ _
  · rw [History.full_sync]

/-- A scan that runs into the end of the clock issues nothing. -/
lemma issue_of_panic {s : Committer} {b : Batch} {pw : Pending} {rest : List Pending}
    (h : s.scanReq b pw = none) : issue (⟨s, .scanning (pw :: rest) b⟩, .tick) = none := by
  unfold Committer.scanReq at h
  rw [issue]
  cases hidem : s.idem[pw.req.idemKey]? with
  | some orig => simp
  | none =>
    cases hnext : s.hlc.next with
    | none => simp
    | some p => simp [hidem, hnext] at h

variable {disk : Bytes} {m m' : Machine} {g : History}

namespace Inv

lemma idem (h : Inv disk m g) : m.st.idem = WalLog.idem (logOf disk ++ g.full) :=
  congrArg Ledger.idem h.ledger

lemma clock (h : Inv disk m g) : m.st.hlc.last = WalLog.clock (logOf disk ++ g.full) :=
  congrArg Ledger.clock h.ledger

/-- The invariant holds when the committer starts. -/
theorem start (disk : Bytes) : Inv disk (start disk) ⟨[], [], []⟩ where
  file := (List.append_nil disk).symm
  ledger := by
    show _ = Ledger.ofLog (logOf disk ++ [])
    rw [List.append_nil]
    exact (Committer.represents_openLog disk).ledger
  grains := by
    rw [List.append_nil]
    exact (Committer.represents_openLog disk).grains
  ext := Extends.nil
  phase := ⟨rfl, rfl, rfl⟩

/-- Scanning a request keeps the invariant: a repeat changes nothing, a new request is one
more record that is not synced. -/
lemma scan {pw : Pending} {rest : List Pending} {s s' : Committer} {b b' : Batch}
    (h : Inv disk ⟨s, .scanning (pw :: rest) b⟩ g) (hscan : s.scanReq b pw = some (s', b')) :
    let g' := follow g (⟨s, .scanning (pw :: rest) b⟩, .tick)
    Inv disk ⟨s', .scanning rest b'⟩ g' ∧ StepsOn ⟨s, .scanning (pw :: rest) b⟩ g g' := by
  intro g'
  obtain ⟨htodo, hpend, htail⟩ := h.phase
  rcases Committer.scanReq_cases hscan with ⟨orig, hidem, rfl, rfl⟩ | ⟨hidem, hlt, rfl, rfl⟩
  · have hg' : g' = g := by simp [g', follow, issue, hidem]
    rw [hg']
    exact ⟨⟨h.file, h.ledger, h.grains, h.ext, htodo, hpend, htail⟩, StepsOn.refl _ g⟩
  · -- the new record extends the log
    have hg' : g' = g.push (pw.req.record (s.hlc.last + 1)) := by
      simp [g', follow, issue, hidem, HlcOracle.next_of_lt hlt]
    rw [hg']
    have hclock : s.hlc.last = WalLog.clock (logOf disk ++ g.full) := h.clock
    have hnone : (WalLog.idem (logOf disk ++ g.full))[pw.req.idemKey]? = none := by
      rwa [← h.idem]
    have hledger := Committer.ledger_of_new hidem
    have hold : s.ledger = Ledger.ofLog (logOf disk ++ g.full) := h.ledger
    rw [hold, Ledger.assign_ofLog hnone (by rwa [← hclock]), ← hclock] at hledger
    refine ⟨⟨h.file, ?_, h.grains, ?_, htodo, ?_, htail⟩,
      ⟨List.prefix_rfl, List.prefix_rfl, ?_⟩, Or.inr ⟨pw, rest, b, rfl, by simp [hscan], by simp⟩⟩
    · rw [History.full_push, ← List.append_assoc]
      exact hledger.symm
    · rw [History.full_push]
      refine Extends.concat h.ext hnone ?_
      rw [← hclock]
      exact FixedWidth.toNat_add_one hlt
    · rw [Batch.records_push, ← hpend]
      rfl
    · rw [History.full_push]
      exact List.prefix_append _ _

/-- Syncing a batch keeps the invariant: its records are in the file now, and still to be
applied. -/
lemma sync {b : Batch} (h : Inv disk m g) (htodo : g.todo = []) (hpend : g.pend = b.records)
    (htail : m.st.tail = []) : Inv disk ⟨m.st.sync b, .applying b.puts b⟩ g.sync where
  file := by
    rw [History.log_sync, History.full, List.flatMap_append, ← List.append_assoc, ← h.file,
      hpend]
    exact congrArg (m.st.file ++ ·) b.buf_eq
  ledger := by
    rw [History.full_sync]
    exact h.ledger
  grains := h.grains
  ext := by
    rw [History.full_sync]
    exact h.ext
  phase := by
    have htodo' : g.sync.todo = b.records := by
      rw [History.sync, htodo, hpend, List.nil_append]
    refine ⟨?_, rfl, htail, ⟨[], htodo'.symm⟩, ?_⟩
    · rw [htodo']
      exact b.puts_eq
    · intro r hr
      rw [History.log_sync, History.full, hpend]
      exact List.mem_append_right _ hr

/-- Applying a put keeps the invariant: one record more is in the KV. -/
lemma apply {s : Committer} {k v : Bytes} {puts : List (Bytes × Bytes)} {b : Batch}
    (h : Inv disk ⟨s, .applying ((k, v) :: puts) b⟩ g) :
    Inv disk ⟨{ s with kv := s.kv.putGrain k v }, .applying puts b⟩ g.apply ∧
      StepsOn ⟨s, .applying ((k, v) :: puts) b⟩ g g.apply := by
  obtain ⟨hputs, hpend, htail, ⟨done, hdone⟩, hmem⟩ := h.phase
  obtain ⟨applied, todo, pend⟩ := g
  cases todo with
  | nil => simp at hputs
  | cons r todo =>
    obtain ⟨hkv, hrest⟩ := List.cons_eq_cons.mp hputs
    obtain ⟨rfl, rfl⟩ := Prod.mk.inj hkv
    have hlog : History.log ⟨applied ++ [r], todo, pend⟩ = History.log ⟨applied, r :: todo, pend⟩ := by
      simp [History.log]
    have hfull :
        History.full ⟨applied ++ [r], todo, pend⟩ = History.full ⟨applied, r :: todo, pend⟩ := by
      rw [History.full, History.full, hlog]
    rw [History.apply]
    refine ⟨⟨?_, ?_, ?_, ?_, hrest, hpend, htail, ⟨done ++ [r], ?_⟩, ?_⟩,
      ⟨List.prefix_append _ _, ?_, ?_⟩, Or.inl hfull⟩
    · rw [hlog]
      exact h.file
    · rw [hfull]
      exact h.ledger
    · have hgrains : s.kv.grains = WalLog.grains (logOf disk ++ applied) := h.grains
      rw [← List.append_assoc, grains_concat, ← hgrains]
      rfl
    · rw [hfull]
      exact h.ext
    · rw [hdone, List.append_assoc]
      rfl
    · rwa [hlog]
    · rw [hlog]
    · rw [hfull]

/-- Steps that change neither the file, the KV nor the ledger keep the invariant as far as the
phase goes. -/
lemma congr (h : Inv disk m g) (hfile : m'.st.file = m.st.file)
    (hkv : m'.st.kv.grains = m.st.kv.grains) (hledger : m'.st.ledger = m.st.ledger)
    (hphase : InPhase m' g) : Inv disk m' g :=
  ⟨by rw [hfile, h.file], by rw [hledger, h.ledger], by rw [hkv, h.grains], h.ext, hphase⟩

/-- A step keeps the invariant, and the history goes on. -/
theorem follow {e : Event} (h : Inv disk m g) (hstep : m.next e = some m') :
    Inv disk m' (Machine.follow g (m, e)) ∧ StepsOn m g (Machine.follow g (m, e)) := by
  cases step_of_next hstep with
  | recv s first more =>
    obtain ⟨htodo, hpend, htail⟩ := h.phase
    exact ⟨h.congr rfl rfl rfl ⟨htodo, hpend, htail⟩, StepsOn.refl _ g⟩
  | close s =>
    obtain ⟨htodo, -, htail⟩ := h.phase
    have htail' : s.tail <+: g.pend.flatMap encodeFrame := htail ▸ List.nil_prefix
    exact ⟨h.congr rfl rfl rfl ⟨htodo, htail'⟩, StepsOn.refl _ g⟩
  | scan rest hscan => exact h.scan hscan
  | @panic s b pw rest hscan =>
    obtain ⟨htodo, -, htail⟩ := h.phase
    have htail' : s.tail <+: g.pend.flatMap encodeFrame := htail ▸ List.nil_prefix
    have hg : Machine.follow g (⟨s, .scanning (pw :: rest) b⟩, .tick) = g := by
      rw [Machine.follow, issue_of_panic hscan]
      rfl
    rw [hg]
    exact ⟨h.congr rfl rfl rfl ⟨htodo, htail'⟩, StepsOn.refl _ g⟩
  | @skip s b hbuf =>
    -- nothing was given a timestamp, so syncing the empty buffer would change nothing
    obtain ⟨htodo, hpend, htail⟩ := h.phase
    have hsync : s.sync b = s := by
      rw [Committer.sync, hbuf, List.append_nil]
    have hg : Machine.follow g (⟨s, .scanning [] b⟩, .tick) = g.sync := if_pos hbuf
    have hinv := h.sync htodo hpend htail
    rw [hsync] at hinv
    rw [hg]
    exact ⟨hinv, StepsOn.sync _ g⟩
  | @write s b hbuf =>
    obtain ⟨htodo, hpend, htail⟩ := h.phase
    have hg : Machine.follow g (⟨s, .scanning [] b⟩, .tick) = g := if_neg hbuf
    rw [hg]
    exact ⟨h.congr rfl rfl rfl ⟨htodo, hpend, htail⟩, StepsOn.refl _ g⟩
  | sync s b =>
    obtain ⟨htodo, hpend, htail⟩ := h.phase
    exact ⟨h.sync htodo hpend htail, StepsOn.sync _ g⟩
  | fail s b e written =>
    obtain ⟨htodo, hpend, -⟩ := h.phase
    have htail : b.buf.take written <+: g.pend.flatMap encodeFrame := by
      rw [b.buf_eq, hpend]
      exact List.take_prefix _ _
    exact ⟨h.congr rfl rfl rfl ⟨htodo, htail⟩, StepsOn.refl _ g⟩
  | put s k v puts b => exact h.apply
  | putMeta s b =>
    obtain ⟨hputs, hpend, htail, -, hmem⟩ := h.phase
    have htodo : g.todo = [] := List.map_eq_nil_iff.mp hputs.symm
    exact ⟨h.congr rfl rfl rfl ⟨htodo, hpend, htail, hmem⟩, StepsOn.refl _ g⟩
  | publish s r recs b => exact ⟨h.congr rfl rfl rfl h.phase, StepsOn.refl _ g⟩
  | published s b => exact ⟨h.congr rfl rfl rfl h.phase, StepsOn.refl _ g⟩
  | ack s a acks =>
    obtain ⟨htodo, hpend, htail, hmem⟩ := h.phase
    refine ⟨h.congr rfl rfl rfl ⟨htodo, hpend, htail, ?_⟩, StepsOn.refl _ g⟩
    exact fun r hr => hmem r (List.mem_cons_of_mem _ hr)
  | acked s =>
    obtain ⟨htodo, hpend, htail, -⟩ := h.phase
    exact ⟨h.congr rfl rfl rfl ⟨htodo, hpend, htail⟩, StepsOn.refl _ g⟩
  | error s e a acks => exact ⟨h.congr rfl rfl rfl h.phase, StepsOn.refl _ g⟩
  | failed s e => exact ⟨h.congr rfl rfl rfl h.phase, StepsOn.refl _ g⟩

/-- A step keeps the invariant for some history that goes on. -/
theorem step {e : Event} (h : Inv disk m g) (hstep : m.next e = some m') :
    ∃ g', Inv disk m' g' ∧ StepsOn m g g' :=
  ⟨_, h.follow hstep⟩

end Inv

/-- The records given a timestamp in a run, in order. -/
def issued (hist : List (Machine × Event)) : List WalRecord := hist.filterMap issue

/-- The history of a run. -/
def historyOf (hist : List (Machine × Event)) : History := hist.foldl follow ⟨[], [], []⟩

lemma historyOf_concat (hist : List (Machine × Event)) (s : Machine × Event) :
    historyOf (hist ++ [s]) = follow (historyOf hist) s := by
  simp [historyOf]

/-- A step adds the record it issues. -/
lemma full_follow (g : History) (s : Machine × Event) :
    (follow g s).full = g.full ++ (issue s).toList := by
  obtain ⟨⟨st, phase⟩, e⟩ := s
  unfold follow
  dsimp only
  split
  · cases issue _ with
    | none => exact (List.append_nil _).symm
    | some r => exact g.full_push r
  · split
    · rw [History.full_sync]
      exact (List.append_nil _).symm
    · exact (List.append_nil _).symm
  · rw [History.full_sync]
    exact (List.append_nil _).symm
  · rw [History.full_apply]
    exact (List.append_nil _).symm
  · rename_i hscan _ _ _
    have hissue : issue (⟨st, phase⟩, e) = none := by
      unfold issue
      split
      · rename_i heq
        obtain ⟨hm, rfl⟩ := Prod.mk.inj heq
        obtain ⟨-, rfl⟩ := Machine.mk.inj hm
        exact (hscan _ _ _ rfl rfl).elim
      · rfl
    rw [hissue]
    exact (List.append_nil _).symm

/-- The records of the history of a run are the records issued. -/
lemma full_historyOf (hist : List (Machine × Event)) : (historyOf hist).full = issued hist := by
  induction hist using List.reverseRecOn with
  | nil => rfl
  | append_singleton hist s ih =>
    rw [historyOf_concat, full_follow, ih, issued, issued, List.filterMap_append]
    cases hissue : issue s with
    | none => simp [hissue]
    | some r => simp [hissue]

/-- The invariant holds in every state of a run, for the history of the run. -/
theorem inv_of_run {hist : List (Machine × Event)} (h : RunFrom disk hist m) :
    Inv disk m (historyOf hist) := by
  induction h with
  | start => exact Inv.start disk
  | step _ hstep ih =>
    rw [historyOf_concat]
    exact (ih.follow hstep).1

/-- The history of a longer run goes on from the one of its first part. -/
lemma goesOn_historyOf {hist hist' : List (Machine × Event)} (h : RunFrom disk hist m)
    (h' : Trace.Run next m hist' m') : GoesOn (historyOf hist) (historyOf (hist ++ hist')) := by
  induction h' with
  | start =>
    rw [List.append_nil]
    exact GoesOn.refl _
  | @step hist' y z e hrun hstep ih =>
    have hon := ((inv_of_run (h.trans hrun)).follow hstep).2.toGoesOn
    rw [← List.append_assoc, historyOf_concat]
    exact ih.trans hon

/-- In every state a run reaches the invariant holds. -/
theorem exists_inv {hist : List (Machine × Event)} (h : RunFrom disk hist m) :
    ∃ g, Inv disk m g :=
  ⟨_, inv_of_run h⟩

/-- Along a run the history goes on. -/
theorem Inv.run {hist : List (Machine × Event)} (hinv : Inv disk m g)
    (h : Trace.Run next m hist m') : ∃ g', Inv disk m' g' ∧ GoesOn g g' := by
  induction h with
  | start => exact ⟨g, hinv, GoesOn.refl g⟩
  | step _ hstep ih =>
    obtain ⟨g₁, hg₁, hon₁⟩ := ih
    obtain ⟨g₂, hg₂, hon₂⟩ := hg₁.step hstep
    exact ⟨g₂, hg₂, hon₁.trans hon₂.toGoesOn⟩

end Machine

end GrainStore
