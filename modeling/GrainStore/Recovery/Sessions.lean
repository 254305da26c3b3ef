import Mathlib
import GrainStore.Wal.Acks

/-!
# Sessions

A log file lives through sessions: each opens the file, runs the committer on it and ends, by
closing or by a crash.  `present_of_sessions` says what an acked commit can count on over any
number of sessions, provided that no session writes behind a torn tail, that the values fit the
format and that a batch from which a repeat is answered early gets synced.

The first proviso is not a matter of course.  Recovery stops at a torn tail and leaves it in the
file, and the next session appends behind it; `acked_lost` is a commit that is lost so.
-/

namespace GrainStore

open WalLog TruthStore Machine

namespace Machine

/-- In these steps the request `pw` was acked with the timestamp `seq` as a new commit. -/
def CommitAcked (hist : List (Machine × Event)) (pw : Pending) (seq : U64) : Prop :=
  ∃ y acks, (y, Event.tick) ∈ hist ∧ y.phase = .acking ((pw, seq) :: acks)

/-- In these steps a request repeated a key that its own batch was the first to bring, and nothing
was synced since. -/
def AnsweredEarly (hist : List (Machine × Event)) : Prop :=
  ∃ before y e after, hist = before ++ (y, e) :: after ∧ RepeatsInBatch y ∧
    ∀ z b, (z, Event.tick) ∈ after → z.phase ≠ .writing b

/-- What a run says about its records: every new commit that was acked is one of the synced ones,
and so is every record a request was answered with, unless it was answered early. -/
structure Records (disk : Bytes) (hist : List (Machine × Event)) (m : Machine) (g : History) :
    Prop where
  inv : Inv disk m g
  answered : ∀ pw seq, (pw, .ok seq) ∈ m.st.sent →
    ∃ r ∈ logOf disk ++ g.full, r.idemKey = pw.req.idemKey ∧ r.seq = seq ∧
      (r ∈ logOf disk ++ g.log ∨ AnsweredEarly hist)
  committed : ∀ pw seq, CommitAcked hist pw seq → pw.req.record seq ∈ g.log

variable {disk : Bytes} {m m' : Machine} {g g' : History} {hist : List (Machine × Event)}

/-- A step other than a sync makes up for nothing. -/
lemma AnsweredEarly.concat {e : Event} (h : AnsweredEarly hist)
    (hsync : ∀ b, e = .tick → m.phase ≠ .writing b) : AnsweredEarly (hist ++ [(m, e)]) := by
  obtain ⟨before, y, e', after, rfl, hrepeats, hafter⟩ := h
  refine ⟨before, y, e', after ++ [(m, e)], by simp, hrepeats, ?_⟩
  intro z b hz
  rcases List.mem_append.mp hz with hz | hz
  · exact hafter z b hz
  · obtain ⟨rfl, he⟩ := Prod.mk.inj (List.mem_singleton.mp hz)
    exact hsync b he.symm

/-- A sync leaves no record that is not synced. -/
lemma Inv.pend_of_sync (hinv' : Inv disk m' g') {b : Batch} (hphase : m.phase = .writing b)
    (hstep : m.next .tick = some m') : g'.pend = [] := by
  obtain ⟨s, phase⟩ := m
  obtain rfl : phase = .writing b := hphase
  obtain rfl := Option.some.inj hstep
  exact hinv'.phase.2.1

/-- The answers of a run, a step later. -/
lemma Records.answered_step {e : Event} (h : Records disk hist m g) (hstep : m.next e = some m')
    (hinv' : Inv disk m' g') (hon : StepsOn m g g') {pw : Pending} {seq : U64}
    (hsent : (pw, .ok seq) ∈ m'.st.sent) :
    ∃ r ∈ logOf disk ++ g'.full, r.idemKey = pw.req.idemKey ∧ r.seq = seq ∧
      (r ∈ logOf disk ++ g'.log ∨ AnsweredEarly (hist ++ [(m, e)])) := by
  have hfull : ∀ r ∈ logOf disk ++ g.full, r ∈ logOf disk ++ g'.full := by
    intro r hr
    exact ((List.prefix_append_right_inj _).mpr hon.full).subset hr
  have hlog : ∀ r ∈ logOf disk ++ g.log, r ∈ logOf disk ++ g'.log := by
    intro r hr
    exact ((List.prefix_append_right_inj _).mpr hon.log).subset hr
  rcases (step_of_next hstep).mem_sent hsent with
    hsent | ⟨rest, b, hphase, hidem⟩ | ⟨acks, hphase⟩
  · obtain ⟨r, hr, hkey, hseq, hsynced | hearly⟩ := h.answered pw seq hsent
    · exact ⟨r, hfull r hr, hkey, hseq, Or.inl (hlog r hsynced)⟩
    · refine ⟨r, hfull r hr, hkey, hseq, ?_⟩
      by_cases hsync : e = .tick ∧ ∃ b, m.phase = .writing b
      · obtain ⟨rfl, b, hphase⟩ := hsync
        have hr' := hfull r hr
        rw [History.full, hinv'.pend_of_sync hphase hstep, List.append_nil] at hr'
        exact Or.inl hr'
      · exact Or.inr (hearly.concat fun b he hphase => hsync ⟨he, b, hphase⟩)
  · -- a repeat is answered from the dedup map
    rw [h.inv.idem] at hidem
    obtain ⟨r, hr, hkey, hseq⟩ := exists_of_idem hidem
    refine ⟨r, hfull r hr, hkey, hseq, ?_⟩
    rw [History.full, ← List.append_assoc] at hr
    rcases List.mem_append.mp hr with hr | hr
    · exact Or.inl (hlog r hr)
    · exact Or.inr ⟨hist, m, e, [], rfl, h.inv.repeatsInBatch hphase hr hkey, by simp⟩
  · -- an acked batch is synced
    have hp := h.inv.phase
    unfold InPhase at hp
    rw [hphase] at hp
    obtain ⟨-, -, -, hmem⟩ := hp
    have hr := hlog _ (List.mem_append_right _ (hmem _ List.mem_cons_self))
    refine ⟨_, ?_, rfl, rfl, Or.inl hr⟩
    rw [History.full, ← List.append_assoc]
    exact List.mem_append_left _ hr

/-- What a run says about its records, a step later. -/
lemma Records.step {e : Event} (h : Records disk hist m g) (hstep : m.next e = some m')
    (hinv' : Inv disk m' g') (hon : StepsOn m g g') :
    Records disk (hist ++ [(m, e)]) m' g' where
  inv := hinv'
  answered := fun _ _ hsent => h.answered_step hstep hinv' hon hsent
  committed := by
    rintro pw seq ⟨y, acks, hy, hphase⟩
    refine hon.log.subset ?_
    rcases List.mem_append.mp hy with hy | hy
    · exact h.committed pw seq ⟨y, acks, hy, hphase⟩
    · obtain ⟨rfl, -⟩ := Prod.mk.inj (List.mem_singleton.mp hy)
      have hp := h.inv.phase
      unfold InPhase at hp
      rw [hphase] at hp
      obtain ⟨-, -, -, hmem⟩ := hp
      exact hmem _ List.mem_cons_self

/-- What a run says about its records. -/
theorem records_of_run {R : WriteReq → Prop} (h : RunFrom disk hist m)
    (hR : ∀ p ∈ hist, Brings R p.2) : ∃ g, Records disk hist m g ∧ Received R m g := by
  induction h with
  | start =>
    refine ⟨_, ⟨Inv.start disk, ?_, ?_⟩, Received.start R disk⟩
    · intro pw seq hsent
      simp [start, openLog, Wal.open] at hsent
    · rintro pw seq ⟨y, acks, hy, -⟩
      simp at hy
  | @step hist y z e hrun hstep ih =>
    obtain ⟨g, hrec, hreceived⟩ := ih fun p hp => hR p (List.mem_append_left _ hp)
    obtain ⟨g', hinv', hon⟩ := hrec.inv.step hstep
    exact ⟨g', hrec.step hstep hinv' hon,
      hreceived.step hon hstep (hR _ (List.mem_append_right _ List.mem_cons_self))⟩

/-- A run in which nothing is written leaves the file alone. -/
lemma file_of_not_writing (h : RunFrom disk hist m)
    (hwrite : ∀ x ∈ Trace.states hist m, ∀ b, x.phase ≠ .writing b) :
    m.st.file = disk ∧ m.unsynced = [] := by
  have hst : m.st.file = disk ∧ m.st.tail = [] := by
    induction h with
    | start => exact ⟨rfl, rfl⟩
    | @step hist y z e hrun hstep ih =>
      rw [Trace.states_concat] at hwrite
      obtain ⟨hfile, htail⟩ := ih fun x hx => hwrite x (List.mem_append_left _ hx)
      have hy := hwrite y (List.mem_append_left _ Trace.mem_states_self)
      cases step_of_next hstep with
      | @scan s s' b b' pw rest hscan =>
        rcases Committer.scanReq_cases hscan with ⟨orig, _, _, rfl⟩ | ⟨_, _, _, rfl⟩
        · exact ⟨hfile, htail⟩
        · exact ⟨hfile, htail⟩
      | sync s b => exact absurd rfl (hy b)
      | fail s b e written => exact absurd rfl (hy b)
      | _ => exact ⟨hfile, htail⟩
  refine ⟨hst.1, ?_⟩
  have hm := hwrite m Trace.mem_states_self
  unfold unsynced
  split
  · exact absurd ‹_› (hm _)
  · exact hst.2

end Machine

/-! ## Sessions -/

/-- A session: the steps the committer took, the state it ended in, and how many bytes the end
left of the batch being written. -/
structure Session where
  hist : List (Machine × Event)
  last : Machine
  kept : ℕ

/-- The log file a session leaves. -/
def Session.disk (s : Session) : Bytes := s.last.crash s.kept

/-- The log file after some sessions; there is none at first. -/
def diskAfter (past : List Session) : Bytes := (past.getLast?.map Session.disk).getD []

/-- The sequences of sessions of one log file, each of which meets the condition `C` on the file
it opens. -/
inductive Sessions (C : Bytes → Session → Prop) : List Session → Prop
  | nil : Sessions C []
  | session {past : List Session} {s : Session} : Sessions C past →
    RunFrom (diskAfter past) s.hist s.last → C (diskAfter past) s → Sessions C (past ++ [s])

/-- What a session must keep to, when opened on the log file `disk`. -/
structure Keeps (disk : Bytes) (s : Session) : Prop where
  /-- Nothing is written behind a torn tail. -/
  torn : walCodec.rest disk ≠ [] → ∀ x ∈ Trace.states s.hist s.last, ∀ b, x.phase ≠ .writing b
  /-- The values fit the format. -/
  fits : ∀ p ∈ s.hist, Brings FitsFormat p.2
  /-- A batch in which a request repeats a key that the batch was the first to bring gets
  synced. -/
  early : ¬AnsweredEarly s.hist

/-- What an acked commit can count on when the log file `disk` is opened, by way of its record
`r`. -/
structure Present (disk : Bytes) (r : WalRecord) : Prop where
  /-- The rebuilt KV holds its version with its value. -/
  stored : (openLog disk).kv.grains[r.key]? = some r.value
  /-- Whatever the committer goes on to do, a retry returns its timestamp and creates nothing. -/
  retry : ∀ hist y, RunFrom disk hist y → y.st.idem[r.idemKey]? = some r.seq ∧
    ∀ b pw, pw.req.idemKey = r.idemKey →
      y.st.scanReq b pw = some ({ y.st with sent := y.st.sent ++ [(pw, .ok r.seq)] }, b)
  /-- Nor is its timestamp given to another key. -/
  unique : ∀ hist y, RunFrom disk hist y → ∀ k, y.st.idem[k]? = some r.seq → k = r.idemKey

variable {disk : Bytes} {s : Session} {past later : List Session} {C : Bytes → Session → Prop}

@[simp] lemma diskAfter_nil : diskAfter [] = [] := rfl

@[simp] lemma diskAfter_concat (past : List Session) (s : Session) :
    diskAfter (past ++ [s]) = s.disk := by
  simp [diskAfter]

/-- The last session of a sequence. -/
lemma Sessions.of_concat (h : Sessions C (past ++ [s])) :
    Sessions C past ∧ RunFrom (diskAfter past) s.hist s.last ∧ C (diskAfter past) s := by
  generalize hx : past ++ [s] = x at h
  cases h with
  | nil => simp at hx
  | session hpast hrun hC =>
    obtain ⟨rfl, hs⟩ := List.append_inj' hx rfl
    obtain rfl := List.singleton_inj.mp hs
    exact ⟨hpast, hrun, hC⟩

lemma Sessions.of_append (h : Sessions C (past ++ later)) : Sessions C past := by
  induction later using List.reverseRecOn with
  | nil => rwa [List.append_nil] at h
  | append_singleton later s ih =>
    rw [← List.append_assoc] at h
    exact ih h.of_concat.1

/-- The log that a session leaves: the records it opened, the ones it synced and the first ones
of those it did not. -/
lemma Keeps.logOf_disk {g : History} (h : Keeps disk s) (hrun : RunFrom disk s.hist s.last)
    (hrec : Records disk s.hist s.last g) (hfits : Received FitsFormat s.last g) :
    ∃ k, logOf s.disk = logOf disk ++ (g.log ++ g.pend.take k) := by
  by_cases htorn : walCodec.rest disk = []
  · exact hrec.inv.logOf_crash htorn hfits.fits s.kept
  · -- behind a torn tail nothing is written
    obtain ⟨hfile, hunsynced⟩ := file_of_not_writing hrun (h.torn htorn)
    have hframes : g.log.flatMap encodeFrame = [] := by
      have hsame := hrec.inv.file
      rw [hfile] at hsame
      exact List.self_eq_append_right.mp hsame
    have hlog : g.log = [] := by
      cases hg : g.log with
      | nil => rfl
      | cons r l =>
        rw [hg, List.flatMap_cons, List.append_eq_nil_iff] at hframes
        have hlen := congrArg List.length hframes.1
        rw [length_encodeFrame, List.length_nil] at hlen
        omega
    refine ⟨0, ?_⟩
    rw [Session.disk, crash, hfile, hunsynced, hlog, List.take_nil, List.append_nil,
      List.take_zero, List.append_nil, List.append_nil]

/-- A session extends the log it opens, and leaves in it a record for every answer it gave. -/
lemma Keeps.step (h : Keeps disk s) (hrun : RunFrom disk s.hist s.last) :
    ∃ l, Extends (logOf disk) l ∧ logOf s.disk = logOf disk ++ l ∧
      ∀ pw seq, (pw, .ok seq) ∈ s.last.st.sent → ∃ r ∈ logOf s.disk,
        r.idemKey = pw.req.idemKey ∧ r.seq = seq ∧
          (CommitAcked s.hist pw seq → r = pw.req.record seq) := by
  obtain ⟨g, hrec, hfits⟩ := records_of_run hrun h.fits
  obtain ⟨k, hlog⟩ := h.logOf_disk hrun hrec hfits
  have hmem : ∀ r ∈ logOf disk ++ g.log, r ∈ logOf s.disk := by
    intro r hr
    rw [hlog, ← List.append_assoc]
    exact List.mem_append_left _ hr
  refine ⟨g.log ++ g.pend.take k, ?_, hlog, ?_⟩
  · have hext := hrec.inv.ext
    rw [History.full, ← List.take_append_drop k g.pend, ← List.append_assoc] at hext
    exact hext.of_append
  · intro pw seq hsent
    by_cases hacked : CommitAcked s.hist pw seq
    · exact ⟨_, hmem _ (List.mem_append_right _ (hrec.committed pw seq hacked)), rfl, rfl,
        fun _ => rfl⟩
    · obtain ⟨r, -, hkey, hseq, hsynced | hearly⟩ := hrec.answered pw seq hsent
      · exact ⟨r, hmem r hsynced, hkey, hseq, fun hcommit => absurd hcommit hacked⟩
      · exact absurd hearly h.early

/-- The log after some sessions is one that a committer built from nothing. -/
lemma Sessions.ext (h : Sessions Keeps past) : Extends [] (logOf (diskAfter past)) := by
  induction h with
  | nil =>
    rw [diskAfter_nil, logOf_of_none rfl]
    exact Extends.nil
  | session _ hrun hkeeps ih =>
    obtain ⟨l, hext, hlog, -⟩ := hkeeps.step hrun
    rw [diskAfter_concat, hlog]
    exact ih.append hext

/-- More sessions only add to the log. -/
lemma Sessions.logOf_append (h : Sessions Keeps (past ++ later)) :
    logOf (diskAfter past) <+: logOf (diskAfter (past ++ later)) := by
  induction later using List.reverseRecOn with
  | nil => rw [List.append_nil]
  | append_singleton later s ih =>
    rw [← List.append_assoc] at h ⊢
    obtain ⟨hpast, hrun, hkeeps⟩ := h.of_concat
    obtain ⟨l, -, hlog, -⟩ := hkeeps.step hrun
    rw [diskAfter_concat, hlog]
    exact (ih hpast).trans (List.prefix_append _ _)

/-- A record of a log that a committer built from nothing is present when it is opened. -/
lemma present_of_mem (hext : Extends [] (logOf disk)) {r : WalRecord} (hr : r ∈ logOf disk) :
    Present disk r where
  stored := by
    have h := hext.grains_of_mem hr
    rwa [List.nil_append] at h
  retry := by
    intro hist y hrun
    obtain ⟨g, hinv⟩ := exists_inv hrun
    have hidem : y.st.idem[r.idemKey]? = some r.seq := by
      have h := (hext.append (by rw [List.nil_append]; exact hinv.ext)).idem_of_mem
        (List.mem_append_left g.full hr)
      rw [hinv.idem]
      rwa [List.nil_append] at h
    refine ⟨hidem, fun b pw hkey => Committer.scanReq_of_some ?_ b⟩
    rw [hkey]
    exact hidem
  unique := by
    intro hist y hrun k hk
    obtain ⟨g, hinv⟩ := exists_inv hrun
    rw [hinv.idem] at hk
    obtain ⟨r', hr', rfl, hseq⟩ := exists_of_idem hk
    have hfull : Extends [] (logOf disk ++ g.full) :=
      hext.append (by rw [List.nil_append]; exact hinv.ext)
    rw [hfull.eq_of_seq hr' (List.mem_append_left _ hr) hseq]

/-- Durability and exactly-once over sessions.  In every sequence of sessions, from no log file
on, in which each session keeps to the conditions, every request answered `Ok(seq)` has a record
with its key and this timestamp, its own when it was acked as a new commit, and the record is
present whenever the file is opened again. -/
theorem present_of_sessions {past later : List Session} {s : Session}
    (h : Sessions Keeps (past ++ s :: later)) {pw : Pending} {seq : U64}
    (hsent : (pw, .ok seq) ∈ s.last.st.sent) :
    ∃ r, r.idemKey = pw.req.idemKey ∧ r.seq = seq ∧
      (CommitAcked s.hist pw seq → r = pw.req.record seq) ∧
      ∀ later', later' <+: later → Present (diskAfter (past ++ s :: later')) r := by
  have hs : Sessions Keeps (past ++ [s]) := by
    rw [← List.singleton_append, ← List.append_assoc] at h
    exact h.of_append
  obtain ⟨-, hrun, hkeeps⟩ := hs.of_concat
  obtain ⟨l, -, -, hacks⟩ := hkeeps.step hrun
  obtain ⟨r, hr, hkey, hseq, hrec⟩ := hacks pw seq hsent
  refine ⟨r, hkey, hseq, hrec, ?_⟩
  rintro later' ⟨rest, rfl⟩
  rw [← List.singleton_append, ← List.append_assoc, ← List.append_assoc] at h
  rw [← List.singleton_append, ← List.append_assoc]
  have hlater := h.of_append
  rw [← diskAfter_concat past s] at hr
  exact present_of_mem hlater.ext (hlater.logOf_append.subset hr)

/-! ## Behind a torn tail -/

/-- A crash that leaves one byte of the first batch. -/
lemma exists_torn_session :
    ∃ s : Session, RunFrom [] s.hist s.last ∧ s.disk = [0x3d] := by
  have hexec : (Trace.exec next (Machine.start [])
      [.recv ⟨0, .put 1 1 [] 0 0 7⟩ [], .tick, .tick]).map (fun p => p.2.crash 1) = some [0x3d] := by
    rw [Machine.start, openLog_nil]
    rfl
  obtain ⟨⟨hist, m⟩, hrun, hdisk⟩ := Option.map_eq_some_iff.mp hexec
  exact ⟨⟨hist, m, 1⟩, Trace.run_of_exec hrun, hdisk⟩

/-- A commit behind that byte: it is acked, and its frame stands behind the byte. -/
lemma exists_session_behind :
    ∃ s : Session, RunFrom [0x3d] s.hist s.last ∧
      (⟨1, .put 2 1 [] 0 0 8⟩, .ok 1) ∈ s.last.st.sent ∧
      s.disk = [0x3d] ++ encodeFrame ((WriteReq.put 2 1 [] 0 0 8).record 1) := by
  have hnone : logOf [0x3d] = [] := logOf_of_none rfl
  have hexec : (Trace.exec next (Machine.start [0x3d])
      ([.recv ⟨1, .put 2 1 [] 0 0 8⟩ []] ++ List.replicate 9 .tick)).map
        (fun p => (p.2.st.sent, p.2.st.file)) =
      some ([(⟨1, .put 2 1 [] 0 0 8⟩, .ok 1)],
        [0x3d] ++ ([] ++ encodeFrame ((WriteReq.put 2 1 [] 0 0 8).record 1))) := by
    rw [Machine.start, openLog_of_logOf_nil hnone]
    rfl
  obtain ⟨⟨hist, m⟩, hrun, heq⟩ := Option.map_eq_some_iff.mp hexec
  obtain ⟨hsent, hfile⟩ := Prod.mk.inj heq
  refine ⟨⟨hist, m, 0⟩, Trace.run_of_exec hrun, hsent ▸ List.mem_cons_self, ?_⟩
  dsimp only at hfile
  rw [Session.disk, crash, hfile, List.take_zero, List.append_nil, List.nil_append]

/-- Without the conditions an acked commit can be lost: a crash leaves one byte, the next session
commits behind it, and the one after that recovers nothing. -/
theorem acked_lost :
    ¬∀ (past later : List Session) (s : Session) (pw : Pending) (seq : U64),
      Sessions (fun _ _ => True) (past ++ s :: later) → (pw, .ok seq) ∈ s.last.st.sent →
        ∃ r, r.idemKey = pw.req.idemKey ∧ r.seq = seq ∧
          Present (diskAfter (past ++ s :: later)) r := by
  intro hall
  obtain ⟨s₁, hrun₁, hdisk₁⟩ := exists_torn_session
  obtain ⟨s₂, hrun₂, hsent, hdisk₂⟩ := exists_session_behind
  have h₁ : Sessions (fun _ _ => True) ([] ++ [s₁]) := Sessions.nil.session hrun₁ trivial
  have h₂ : Sessions (fun _ _ => True) ([s₁] ++ [s₂]) := by
    refine h₁.session ?_ trivial
    rw [diskAfter_concat, hdisk₁]
    exact hrun₂
  obtain ⟨r, -, -, hpresent⟩ := hall [s₁] [] s₂ _ _ h₂ hsent
  -- the length field read off the front is longer than the file
  have hnone : logOf (diskAfter ([s₁] ++ [s₂])) = [] := by
    rw [diskAfter_concat, hdisk₂]
    exact logOf_of_none rfl
  have hstored := hpresent.stored
  rw [openLog_of_logOf_nil hnone] at hstored
  simp [Wal.open, MemKv.new] at hstored

namespace SessionsExample

/-- A put. -/
def put : WriteReq := .put 1 1 [10] 0 0 7

/-- The put is committed, and another one is scanned and about to be written. -/
def committed : List Event :=
  .recv ⟨0, put⟩ [] :: List.replicate 9 .tick ++ [.recv ⟨1, .put 2 1 [] 0 0 8⟩ [], .tick, .tick]

/-- The put is tried again. -/
def retried : List Event := [.recv ⟨2, put⟩ [], .tick]

def writing (m : Machine) : Bool :=
  match m.phase with
  | .writing _ => true
  | _ => false

lemma brings_tick : Brings FitsFormat .tick := by
  intro first more h
  cases h

lemma brings_recv {pw : Pending} (h : FitsFormat pw.req) : Brings FitsFormat (.recv pw []) := by
  intro first more hrecv pw' hpw'
  obtain ⟨rfl, rfl⟩ := Event.recv.inj hrecv
  rw [List.mem_singleton.mp hpw']
  exact h

/-- A session that executes these events keeps to the conditions, where nothing is repeated within a
batch, and nothing written behind a torn tail. -/
lemma keeps_of_exec {disk : Bytes} {events : List Event} {s : Session}
    (hexec : Trace.exec next (Machine.start disk) events = some (s.hist, s.last))
    (hfits : ∀ e ∈ events, Brings FitsFormat e)
    (hrepeats : ∀ p ∈ s.hist, ¬RepeatsInBatch p.1)
    (htorn : walCodec.rest disk ≠ [] →
      ∀ x ∈ Trace.states s.hist s.last, ∀ b, x.phase ≠ .writing b) : Keeps disk s := by
  refine ⟨htorn, fun p hp => hfits p.2 ?_, ?_⟩
  · rw [← Trace.map_snd_of_exec hexec]
    exact List.mem_map_of_mem hp
  · rintro ⟨before, y, e, after, hsplit, hrepeat, -⟩
    refine hrepeats (y, e) ?_ hrepeat
    rw [hsplit]
    exact List.mem_append_right _ List.mem_cons_self

/-- The crash leaves the frame of the put, and a byte of the other one. -/
lemma exists_committed : ∃ s : Session, RunFrom [] s.hist s.last ∧ Keeps [] s ∧
    (⟨0, put⟩, .ok 1) ∈ s.last.st.sent ∧ s.disk = encodeFrame (put.record 1) ++ [0x3d] := by
  have hexec : (Trace.exec next (Machine.start []) committed).map (fun p =>
      (p.2.st.sent, p.1.all fun q => !decide (RepeatsInBatch q.1), p.2.crash 1)) =
      some ([(⟨0, put⟩, .ok 1)], true, encodeFrame (put.record 1) ++ [0x3d]) := by
    rw [Machine.start, openLog_nil]
    rfl
  obtain ⟨⟨hist, m⟩, hrun, heq⟩ := Option.map_eq_some_iff.mp hexec
  simp only [Prod.mk.injEq, List.all_eq_true, Bool.not_eq_true', decide_eq_false_iff_not] at heq
  obtain ⟨hsent, hrepeats, hdisk⟩ := heq
  refine ⟨⟨hist, m, 1⟩, Trace.run_of_exec hrun, keeps_of_exec hrun ?_ hrepeats fun htorn => ?_,
    hsent ▸ List.mem_cons_self, hdisk⟩
  · intro e he
    simp only [committed, List.cons_append, List.mem_cons, List.mem_append, List.mem_replicate,
      List.not_mem_nil, or_false] at he
    rcases he with rfl | ⟨-, rfl⟩ | rfl | rfl | rfl
    · exact brings_recv (by decide)
    · exact brings_tick
    · exact brings_recv (by decide)
    · exact brings_tick
    · exact brings_tick
  · exact absurd (walCodec.toFrameDecoder.rest_of_none rfl) htorn

/-- The retry is answered behind the byte, and nothing is written. -/
lemma exists_retried : ∃ s : Session, RunFrom (encodeFrame (put.record 1) ++ [0x3d]) s.hist s.last ∧
    Keeps (encodeFrame (put.record 1) ++ [0x3d]) s ∧ (⟨2, put⟩, .ok 1) ∈ s.last.st.sent := by
  have hlog : logOf (encodeFrame (put.record 1) ++ [0x3d]) = [put.record 1] := by
    have htail : logOf [0x3d] = [] := logOf_of_none rfl
    have hfits : ∀ r ∈ [put.record 1], r.Fits := by
      intro r hr
      rw [List.mem_singleton.mp hr]
      decide
    have hframes := logOf_flatMap_append hfits [0x3d]
    rw [List.flatMap_singleton, htail] at hframes
    exact hframes
  have hexec : (Trace.exec next (Machine.start (encodeFrame (put.record 1) ++ [0x3d])) retried).map
      (fun p => (p.2.st.sent, p.1.all fun q => !decide (RepeatsInBatch q.1),
        (Trace.states p.1 p.2).all fun x => !writing x)) =
      some ([(⟨2, put⟩, .ok 1)], true, true) := by
    rw [Machine.start, openLog, hlog]
    rfl
  obtain ⟨⟨hist, m⟩, hrun, heq⟩ := Option.map_eq_some_iff.mp hexec
  simp only [Prod.mk.injEq, List.all_eq_true, Bool.not_eq_true', decide_eq_false_iff_not] at heq
  obtain ⟨hsent, hrepeats, hwriting⟩ := heq
  refine ⟨⟨hist, m, 0⟩, Trace.run_of_exec hrun,
    keeps_of_exec hrun ?_ hrepeats fun _ x hx b hphase => ?_, hsent ▸ List.mem_cons_self⟩
  · intro e he
    simp only [retried, List.mem_cons, List.not_mem_nil, or_false] at he
    rcases he with rfl | rfl
    · exact brings_recv (by decide)
    · exact brings_tick
  · have hx := hwriting x hx
    rw [writing, hphase] at hx
    cases hx

end SessionsExample

open SessionsExample in
/-- A commit, a crash that leaves a byte of the next one, and a session in which the commit is retried
behind that byte: it is present whenever the file is opened again. -/
theorem present_of_sessions_commit : ∃ s₁ s₂ r, Sessions Keeps ([] ++ s₁ :: [s₂]) ∧
    s₁.disk = encodeFrame (put.record 1) ++ [0x3d] ∧ (⟨2, put⟩, .ok 1) ∈ s₂.last.st.sent ∧
    r.idemKey = 7 ∧ r.seq = 1 ∧ Present (diskAfter ([] ++ s₁ :: [s₂])) r := by
  obtain ⟨s₁, hrun₁, hkeeps₁, hsent₁, hdisk⟩ := exists_committed
  obtain ⟨s₂, hrun₂, hkeeps₂, hsent₂⟩ := exists_retried
  have h₁ : Sessions Keeps ([] ++ [s₁]) := Sessions.nil.session hrun₁ hkeeps₁
  have h₂ : Sessions Keeps ([s₁] ++ [s₂]) := by
    have hafter : diskAfter [s₁] = encodeFrame (put.record 1) ++ [0x3d] :=
      (diskAfter_concat [] s₁).trans hdisk
    exact Sessions.session h₁ (hafter ▸ hrun₂) (hafter ▸ hkeeps₂)
  have h : Sessions Keeps ([] ++ s₁ :: [s₂]) := h₂
  obtain ⟨r, hkey, hseq, -, hpresent⟩ := present_of_sessions h hsent₁
  exact ⟨s₁, s₂, r, h, hdisk, hsent₂, hkey, hseq, hpresent [s₂] List.prefix_rfl⟩

end GrainStore
