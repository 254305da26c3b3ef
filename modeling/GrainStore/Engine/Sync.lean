import Mathlib
import GrainStore.Materializer.Watermark
import GrainStore.Wal.Machine

/-!
# The sync barrier of a reopened engine

An engine opens the truth store, subscribes to its change stream and spawns a materializer on
the subscription.  Only changes committed after the open reach the materializer, and its
watermark starts at 0, whatever the log was recovered at.

`synced_iff` says when the barrier is open for every timestamp the session has returned, once the
materializer has nothing left to do: on a log recovered at 0 always; on any other log only while
no positive timestamp has been returned or, with the single-threaded materializer, after the first
change of the session.
-/

namespace GrainStore

open Trace VectorMaterializer

/-- An engine: the committer of its truth store and its materializer. -/
structure EngineState (V : Type*) where
  committer : Machine
  mat : VectorMaterializer V

/-- What happens next in an engine whose puts and deletes are called one after the other. -/
inductive EngineEvent where
  /-- The next put or delete is called. -/
  | call (pw : Pending)
  /-- The committer goes on. -/
  | tick
  /-- A write or `fsync` fails. -/
  | fail (e : IoError) (written : ℕ)
  /-- The materializer goes on. -/
  | materialize (e : MaterializerEvent)

namespace EngineState

variable {V : Type*}

/-- Open an engine on a log file: recover the truth store, subscribe, spawn the materializer. -/
def openWith (disk : Bytes) (workers : ℕ) : EngineState V :=
  let truth := TruthStore.openLog disk
  { committer := ⟨{ truth with cdc := truth.cdc.subscribe }, .idle⟩
    mat := VectorMaterializer.spawn workers }

/-- The changes sent to the materializer since the open. -/
def stream (s : EngineState V) : List CdcRecord :=
  s.committer.st.cdc.received

/-- One step of an engine. -/
def next (embed : Bytes → Option V) (s : EngineState V) : EngineEvent → Option (EngineState V)
  | .materialize e => (s.mat.next embed s.stream e).map fun mat => { s with mat }
  | .call pw => (s.committer.next (.recv pw [])).map fun committer => { s with committer }
  | .tick => (s.committer.next .tick).map fun committer => { s with committer }
  | .fail e written =>
    (s.committer.next (.fail e written)).map fun committer => { s with committer }

/-- The materializer has applied all changes published since the open. -/
def Drained (s : EngineState V) : Prop := s.mat.Drained s.stream

/-- The barrier is open for every timestamp a put or delete of the session has returned. -/
def Synced (s : EngineState V) : Prop :=
  ∀ pw seq, (pw, .ok seq) ∈ s.committer.st.sent → s.mat.reflects seq

/-- The log was recovered at 0, or it was not but the session has published a change to the
single-threaded materializer, or every call that returned repeats a key recovered with the
timestamp 0 (none has returned, for instance). -/
def Covered (disk : Bytes) (workers : ℕ) (s : EngineState V) : Prop :=
  WalLog.clock (logOf disk) = 0 ∨ workers ≤ 1 ∧ s.stream ≠ [] ∨
    ∀ pw seq, (pw, .ok seq) ∈ s.committer.st.sent →
      (WalLog.idem (logOf disk))[pw.req.idemKey]? = some 0

end EngineState

/-! ## The numbering of the change stream -/

/-- The changes a committer has made and not published yet. -/
def Phase.unpublished : Phase → List CdcRecord
  | .scanning _ b | .writing b | .applying _ b => b.cdcRecs
  | .publishing recs _ => recs
  | _ => []

/-- The acks a committer still has to send when nothing fails. -/
def Phase.acks : Phase → List (Pending × U64)
  | .scanning _ b | .writing b | .applying _ b | .publishing _ b => b.acks
  | .acking acks => acks
  | _ => []

/-- Whether a committer can still commit. -/
def Phase.Running : Phase → Prop
  | .failing _ _ | .stopped => False
  | _ => True

/-- `seq` is what a key was recovered with, or the key is new since the open and `seq` is one of
the timestamps given since, up to `bound`. -/
def Serves (disk : Bytes) (bound : ℕ) (key : U128) (seq : U64) : Prop :=
  (WalLog.idem (logOf disk))[key]? = some seq ∨
    (WalLog.idem (logOf disk))[key]? = none ∧
      (WalLog.clock (logOf disk)).toNat < seq.toNat ∧ seq.toNat ≤ bound

/-- What a key is answered with is not above the recovered clock and the timestamps given since. -/
lemma Serves.le {disk : Bytes} {n : ℕ} {key : U128} {seq : U64}
    (h : Serves disk ((WalLog.clock (logOf disk)).toNat + n) key seq) :
    seq.toNat ≤ (WalLog.clock (logOf disk)).toNat + n := by
  rcases h with hrec | ⟨-, -, hle⟩
  · obtain ⟨r, hr, -, rfl⟩ := WalLog.exists_of_idem hrec
    exact (BitVec.le_def.mp (WalLog.seq_le_clock hr)).trans (Nat.le_add_right _ _)
  · exact hle

lemma Serves.mono {disk : Bytes} {bound bound' : ℕ} {key : U128} {seq : U64}
    (h : Serves disk bound key seq) (hle : bound ≤ bound') : Serves disk bound' key seq :=
  h.imp id fun ⟨hnew, hlt, hseq⟩ => ⟨hnew, hlt, hseq.trans hle⟩

namespace Machine

/-- What holds in every state of a committer with one subscriber whose calls are made one after
the other: the changes published and to be published are numbered on from the recovered clock,
and every answer is covered by what is published. -/
structure Streams (disk : Bytes) (m : Machine) (stream : List CdcRecord) : Prop where
  cdc : m.st.cdc = ⟨[⟨true, stream⟩]⟩
  numbered : NumberedFrom (WalLog.clock (logOf disk)).toNat (stream ++ m.phase.unpublished)
  /-- The clock is the timestamp of the last of these changes. -/
  clock : m.phase.Running → m.st.hlc.last.toNat =
    (WalLog.clock (logOf disk)).toNat + (stream ++ m.phase.unpublished).length
  /-- A batch has one request. -/
  single : ∀ rest b, m.phase = .scanning rest b → rest.length + b.acks.length ≤ 1
  recovered : ∀ key : U128, m.st.idem[key]? = none → (WalLog.idem (logOf disk))[key]? = none
  idem : ∀ (key : U128) (seq : U64), m.st.idem[key]? = some seq →
    Serves disk m.st.hlc.last.toNat key seq
  acks : ∀ a ∈ m.phase.acks, Serves disk
    ((WalLog.clock (logOf disk)).toNat + (stream ++ m.phase.unpublished).length)
    a.1.req.idemKey a.2
  answers : ∀ pw seq, (pw, .ok seq) ∈ m.st.sent → Serves disk
    ((WalLog.clock (logOf disk)).toNat + stream.length) pw.req.idemKey seq

variable {disk : Bytes} {m m' : Machine} {stream : List CdcRecord}

/-- The committer an engine is opened with. -/
lemma streams_start (disk : Bytes) :
    Streams disk ⟨{ TruthStore.openLog disk with cdc := CdcPublisher.new.subscribe }, .idle⟩ []
    where
  cdc := rfl
  numbered := rfl
  clock := fun _ => rfl
  single := fun rest b h => by simp at h
  recovered := fun _ h => h
  idem := fun _ _ h => Or.inl h
  acks := fun a h => by simp [Phase.acks] at h
  answers := fun pw seq h => by simp [TruthStore.openLog, Wal.open] at h

/-- A step inside a batch keeps what is published, what is still to be published and the
answers. -/
lemma Streams.congr (h : Streams disk m stream) (hcdc : m'.st.cdc = m.st.cdc)
    (hledger : m'.st.ledger = m.st.ledger) (hsent : m'.st.sent = m.st.sent)
    (hunp : m'.phase.unpublished = m.phase.unpublished) (hacks : m'.phase.acks = m.phase.acks)
    (hrun : m'.phase.Running → m.phase.Running)
    (hsingle : ∀ rest b, m'.phase = .scanning rest b → rest.length + b.acks.length ≤ 1) :
    Streams disk m' stream := by
  have hhlc : m'.st.hlc.last = m.st.hlc.last := congrArg Ledger.clock hledger
  have hidem : m'.st.idem = m.st.idem := congrArg Ledger.idem hledger
  constructor
  · rw [hcdc, h.cdc]
  · rw [hunp]
    exact h.numbered
  · rw [hunp, hhlc]
    exact fun hr => h.clock (hrun hr)
  · exact hsingle
  · rw [hidem]
    exact h.recovered
  · rw [hidem, hhlc]
    exact h.idem
  · rw [hunp, hacks]
    exact h.acks
  · rw [hsent]
    exact h.answers

/-- A committer that ends publishes nothing more. -/
lemma Streams.halt (h : Streams disk m stream) (hcdc : m'.st.cdc = m.st.cdc)
    (hledger : m'.st.ledger = m.st.ledger)
    (hsent : ∀ pw seq, (pw, .ok seq) ∈ m'.st.sent → (pw, .ok seq) ∈ m.st.sent)
    (hunp : m'.phase.unpublished = []) (hacks : m'.phase.acks = []) (hrun : ¬m'.phase.Running) :
    Streams disk m' stream := by
  have hhlc : m'.st.hlc.last = m.st.hlc.last := congrArg Ledger.clock hledger
  have hidem : m'.st.idem = m.st.idem := congrArg Ledger.idem hledger
  constructor
  · rw [hcdc, h.cdc]
  · rw [hunp, List.append_nil]
    exact h.numbered.of_append
  · exact fun hr => absurd hr hrun
  · intro rest b hphase
    rw [hphase] at hrun
    exact absurd trivial hrun
  · rw [hidem]
    exact h.recovered
  · rw [hidem, hhlc]
    exact h.idem
  · rw [hacks]
    exact fun a ha => by simp at ha
  · exact fun pw seq hs => h.answers pw seq (hsent pw seq hs)

/-- Scanning the request of a call: a repeat is answered with a timestamp that is recovered or
published, and a new request is the next change to publish. -/
lemma Streams.scan {s s' : Committer} {pw : Pending} {rest : List Pending} {b b' : Batch}
    (h : Streams disk ⟨s, .scanning (pw :: rest) b⟩ stream)
    (hscan : s.scanReq b pw = some (s', b')) :
    Streams disk ⟨s', .scanning rest b'⟩ stream := by
  have hsingle := h.single (pw :: rest) b rfl
  have hrest : rest.length = 0 ∧ b.acks = [] := by
    rw [List.length_cons] at hsingle
    exact ⟨by omega, List.length_eq_zero_iff.mp (by omega)⟩
  obtain ⟨hrest, hacks⟩ := hrest
  have hcdc : b.cdcRecs = [] := by rw [b.cdcRecs_eq, hacks]; rfl
  have hclock := h.clock trivial
  simp only [Phase.unpublished, hcdc, List.append_nil] at hclock
  rcases Committer.scanReq_cases hscan with ⟨orig, hidem, rfl, rfl⟩ | ⟨hidem, hlt, rfl, rfl⟩
  · refine ⟨h.cdc, h.numbered, h.clock, ?_, h.recovered, h.idem, h.acks, ?_⟩
    · intro _ _ hphase
      cases hphase
      rw [hrest, hacks]
      exact Nat.zero_le 1
    · intro pw' seq hs
      rcases List.mem_append.mp hs with hs | hs
      · exact h.answers pw' seq hs
      · obtain ⟨rfl, hseq⟩ := Prod.mk.inj (List.mem_singleton.mp hs)
        obtain rfl := Except.ok.inj hseq
        exact (h.idem _ _ hidem).mono hclock.le
  · have hone : (s.hlc.last + 1).toNat = s.hlc.last.toNat + 1 := FixedWidth.toNat_add_one hlt
    have hnew : Serves disk (s.hlc.last.toNat + 1) pw.req.idemKey (s.hlc.last + 1) := by
      refine Or.inr ⟨h.recovered _ hidem, ?_, hone.le⟩
      rw [hone, hclock]
      omega
    have hunp : (b.push pw (s.hlc.last + 1)).cdcRecs =
        [⟨pw.req.sid, pw.req.pred, s.hlc.last + 1, pw.req.op, pw.req.val⟩] := by
      rw [Batch.push]
      dsimp only
      rw [hcdc]
      exact List.nil_append _
    have hacks' : (b.push pw (s.hlc.last + 1)).acks = [(pw, s.hlc.last + 1)] := by
      rw [Batch.acks_push, hacks, List.nil_append]
    have hnum := h.numbered
    simp only [Phase.unpublished, hcdc, List.append_nil] at hnum
    refine ⟨h.cdc, ?_, ?_, ?_, ?_, ?_, ?_, h.answers⟩
    · simp only [Phase.unpublished, hunp]
      refine hnum.concat ?_
      dsimp only
      rw [hone, hclock]
    · intro _
      simp only [Phase.unpublished, hunp, List.length_append, List.length_singleton]
      rw [hone, hclock, Nat.add_assoc]
    · intro _ _ hphase
      cases hphase
      rw [hrest, hacks', List.length_singleton]
    · intro key hkey
      rw [OrderedMap.getElem?_insert_eq] at hkey
      split at hkey
      · simp at hkey
      · exact h.recovered key hkey
    · intro key seq hkey
      dsimp only at hkey ⊢
      rw [OrderedMap.getElem?_insert_eq] at hkey
      rw [hone]
      split at hkey
      · rename_i heq
        obtain rfl := Option.some.inj hkey
        exact heq ▸ hnew
      · exact (h.idem key seq hkey).mono (Nat.le_succ _)
    · intro a ha
      simp only [Phase.acks, hacks', List.mem_singleton] at ha
      subst ha
      simp only [Phase.unpublished, hunp, List.length_append, List.length_singleton]
      refine hnew.mono ?_
      rw [hclock, Nat.add_assoc]

/-- A step may publish nothing. -/
lemma Streams.silent (h : Streams disk m stream) : ∃ l, Streams disk m (stream ++ l) :=
  ⟨[], by rwa [List.append_nil]⟩

/-- A step of the committer keeps the numbering of the stream, and sends the stream at most more
changes. -/
theorem Streams.step {e : Event} (h : Streams disk m stream) (hstep : m.next e = some m')
    (hsingle : ∀ first more, e = .recv first more → more = []) :
    ∃ l, Streams disk m' (stream ++ l) := by
  cases step_of_next hstep with
  | recv s first more =>
    obtain rfl := hsingle first more rfl
    refine Streams.silent ?_
    refine h.congr rfl rfl rfl rfl rfl id ?_
    intro _ _ hphase
    cases hphase
    exact le_rfl
  | scan rest hscan =>
    refine Streams.silent ?_
    exact h.scan hscan
  | publish s r recs b =>
    have hlist : stream ++ [r] ++ recs = stream ++ r :: recs := by
      rw [List.append_assoc, List.singleton_append]
    refine ⟨[r], ?_, ?_, ?_, (fun _ _ hphase => nomatch hphase), h.recovered, h.idem, ?_,
      ?_⟩
    · dsimp only
      rw [h.cdc]
      rfl
    · simp only [Phase.unpublished, hlist]
      exact h.numbered
    · intro _
      simp only [Phase.unpublished, hlist]
      exact h.clock trivial
    · simp only [Phase.unpublished, hlist]
      exact h.acks
    · intro pw seq hs
      refine (h.answers pw seq hs).mono ?_
      rw [List.length_append]
      omega
  | ack s a acks =>
    refine Streams.silent ?_
    refine ⟨h.cdc, h.numbered, h.clock, (fun _ _ hphase => nomatch hphase), h.recovered, h.idem,
      fun a' ha' => h.acks a' (List.mem_cons_of_mem _ ha'), ?_⟩
    intro pw seq hs
    rcases List.mem_append.mp hs with hs | hs
    · exact h.answers pw seq hs
    · obtain ⟨rfl, hseq⟩ := Prod.mk.inj (List.mem_singleton.mp hs)
      obtain rfl := Except.ok.inj hseq
      simpa only [Phase.unpublished, List.append_nil] using h.acks a List.mem_cons_self
  | close s =>
    refine Streams.silent ?_
    exact h.halt rfl rfl (fun _ _ hs => hs) rfl rfl id
  | panic rest hscan =>
    refine Streams.silent ?_
    exact h.halt rfl rfl (fun _ _ hs => hs) rfl rfl id
  | fail s b e written =>
    refine Streams.silent ?_
    exact h.halt rfl rfl (fun _ _ hs => hs) rfl rfl id
  | error s e a acks =>
    refine Streams.silent ?_
    refine h.halt rfl rfl (fun pw seq hs => ?_) rfl rfl id
    rcases List.mem_append.mp hs with hs | hs
    · exact hs
    · simp at hs
  | failed s e =>
    refine Streams.silent ?_
    exact h.halt rfl rfl (fun _ _ hs => hs) rfl rfl id
  | _ =>
    refine Streams.silent ?_
    exact h.congr rfl rfl rfl rfl rfl (fun _ => trivial) fun _ _ hphase => nomatch hphase

end Machine

/-! ## The barrier -/

namespace EngineState

variable {V : Type*} {embed : Bytes → Option V} {disk : Bytes} {workers : ℕ}
  {s s' : EngineState V}

lemma stream_of_cdc {stream : List CdcRecord}
    (h : s.committer.st.cdc = ⟨[⟨true, stream⟩]⟩) : s.stream = stream := by
  rw [EngineState.stream, h]
  rfl

/-- What holds in every state of an engine. -/
structure Inv (disk : Bytes) (workers : ℕ) (s : EngineState V) : Prop where
  streams : s.committer.Streams disk s.stream
  follows : s.mat.Follows s.stream
  pool : s.mat.isPool = decide (workers > 1)

lemma inv_openWith (disk : Bytes) (workers : ℕ) :
    Inv disk workers (openWith disk workers : EngineState V) where
  streams := Machine.streams_start disk
  follows := follows_spawn _ workers
  pool := isPool_spawn workers

/-- A step of the committer keeps the invariant: the materializer has more to follow at most. -/
lemma Inv.commit {m : Machine} {e : Event} (h : Inv disk workers s)
    (hstep : s.committer.next e = some m)
    (hsingle : ∀ first more, e = .recv first more → more = []) :
    Inv disk workers { s with committer := m } := by
  obtain ⟨l, hstreams⟩ := h.streams.step hstep hsingle
  have hstream : stream { s with committer := m } = s.stream ++ l := stream_of_cdc hstreams.cdc
  refine ⟨?_, ?_, h.pool⟩
  · rw [hstream]
    exact hstreams
  · rw [hstream]
    exact h.follows.append l

/-- A step keeps the invariant. -/
lemma Inv.step {e : EngineEvent} (h : Inv disk workers s) (hstep : s.next embed e = some s') :
    Inv disk workers s' := by
  cases e with
  | materialize e =>
    obtain ⟨mat, hmat, rfl⟩ := Option.map_eq_some_iff.mp hstep
    exact ⟨h.streams, h.follows.step hmat, (isPool_of_next hmat).trans h.pool⟩
  | call pw =>
    obtain ⟨m, hm, rfl⟩ := Option.map_eq_some_iff.mp hstep
    exact h.commit hm fun _ _ heq => (Event.recv.inj heq).2.symm
  | tick =>
    obtain ⟨m, hm, rfl⟩ := Option.map_eq_some_iff.mp hstep
    exact h.commit hm fun _ _ heq => nomatch heq
  | fail e written =>
    obtain ⟨m, hm, rfl⟩ := Option.map_eq_some_iff.mp hstep
    exact h.commit hm fun _ _ heq => nomatch heq

lemma toNat_eq_zero {seq : U64} : seq.toNat = 0 ↔ seq = 0 := by
  rw [← BitVec.toNat_inj]
  rfl

/-- The barrier is open for a timestamp when the watermark has reached it. -/
lemma reflects_iff {mat : VectorMaterializer V} {seq : U64} :
    mat.reflects seq ↔ seq.toNat ≤ mat.watermark := by
  rw [reflects, Bool.not_eq_true', decide_eq_false_iff_not, not_lt]

/-- Exactly when the sync barrier reaches what a session has returned.  In every state of an
engine, opened on any log file with any number of workers, whose materializer has nothing left
to do, the barrier is open for every timestamp returned so far exactly when the log was recovered
at 0, or the materializer is the single thread and a change has been published since the open, or
only keys recovered with the timestamp 0 have been answered. -/
theorem synced_iff (embed : Bytes → Option V) (disk : Bytes) (workers : ℕ)
    {hist : List (EngineState V × EngineEvent)} {s : EngineState V}
    (h : Run (next embed) (openWith disk workers) hist s) (hd : s.Drained) :
    s.Synced ↔ Covered disk workers s := by
  have hinv : Inv disk workers s :=
    h.invariant (I := Inv disk workers) (inv_openWith disk workers) fun _ _ _ hi hstep =>
      hi.step hstep
  have hnum := hinv.streams.numbered.of_append
  have hmark := watermark_of_drained hinv.follows hd hnum
  have hanswers := hinv.streams.answers
  have hiff : (WalLog.clock (logOf disk)).toNat = 0 ∨ s.mat.isPool = false ∧ s.stream ≠ [] ↔
      WalLog.clock (logOf disk) = 0 ∨ workers ≤ 1 ∧ s.stream ≠ [] := by
    rw [hinv.pool, decide_eq_false_iff_not, not_lt, toNat_eq_zero]
  by_cases hcond : WalLog.clock (logOf disk) = 0 ∨ workers ≤ 1 ∧ s.stream ≠ []
  · -- the watermark is the last timestamp published
    rw [if_pos (hiff.mpr hcond)] at hmark
    refine iff_of_true (fun pw seq hs => ?_) (or_assoc.mp (Or.inl hcond))
    rw [reflects_iff, hmark]
    exact (hanswers pw seq hs).le
  · -- the watermark is still 0
    rw [if_neg (mt hiff.mp hcond)] at hmark
    rw [Covered, ← or_assoc, or_iff_right hcond]
    constructor
    · intro hsync pw seq hs
      have hseq := reflects_iff.mp (hsync pw seq hs)
      rw [hmark, Nat.le_zero, toNat_eq_zero] at hseq
      subst hseq
      rcases hanswers pw 0 hs with hrec | ⟨-, hlt, -⟩
      · exact hrec
      · exact absurd hlt (Nat.not_lt_zero _)
    · intro hall pw seq hs
      rw [reflects_iff, hmark]
      rcases hanswers pw seq hs with hrec | ⟨hnone, -, -⟩
      · obtain rfl := Option.some.inj (hrec.symm.trans (hall pw seq hs))
        exact le_rfl
      · rw [hall pw seq hs] at hnone
        exact absurd hnone (by simp)

/-- A log of one commit, reopened: its key is retried, the retry is answered with its timestamp,
and the barrier for it is shut although the materializer has nothing to do. -/
theorem not_synced :
    ∃ hist, ∃ s : EngineState Bytes,
      Run (next some) (openWith (encodeFrame ⟨1, 1, 1, 0, 0, 0, 7, [10]⟩) 1) hist s ∧
        s.Drained ∧ ¬s.Synced := by
  have hlog := logOf_encodeFrame (r := ⟨1, 1, 1, 0, 0, 0, 7, [10]⟩) (by decide)
  have hexec : (exec (next some) (openWith (encodeFrame ⟨1, 1, 1, 0, 0, 0, 7, [10]⟩) 1)
      [.call ⟨0, .put 1 1 [10] 0 0 7⟩, .tick]).map
        (fun p => (p.2.committer.st.sent, p.2.stream, p.2.mat)) =
      some ([(⟨0, .put 1 1 [10] 0 0 7⟩, .ok 1)], [], .spawned Tailer.new) := by
    rw [openWith, TruthStore.openLog, hlog]
    rfl
  obtain ⟨⟨hist, s⟩, hrun, heq⟩ := Option.map_eq_some_iff.mp hexec
  obtain ⟨hsent, hrest⟩ := Prod.mk.inj heq
  obtain ⟨hstream, hmat⟩ := Prod.mk.inj hrest
  refine ⟨hist, s, run_of_exec hrun, ?_, ?_⟩
  · dsimp only at hstream hmat
    rw [EngineState.Drained, hstream, hmat]
    exact ⟨rfl, rfl⟩
  · intro hsync
    have hopen := hsync ⟨0, .put 1 1 [10] 0 0 7⟩ 1 (by simp_all)
    dsimp only at hmat
    rw [hmat] at hopen
    exact absurd hopen (by decide)

/-- The same log with the single-threaded materializer: after a new commit the barrier is open
for all timestamps returned, that of a retry of the old key included. -/
theorem synced_iff_reopened :
    ∃ s : EngineState Bytes, s.Drained ∧ s.committer.st.sent =
        [(⟨0, .put 2 1 [20] 0 0 8⟩, .ok 2), (⟨1, .put 1 1 [10] 0 0 7⟩, .ok 1)] ∧ s.Synced := by
  have hlog := logOf_encodeFrame (r := ⟨1, 1, 1, 0, 0, 0, 7, [10]⟩) (by decide)
  have hexec : (exec (next some) (openWith (encodeFrame ⟨1, 1, 1, 0, 0, 0, 7, [10]⟩) 1)
      (.call ⟨0, .put 2 1 [20] 0 0 8⟩ :: List.replicate 9 .tick ++
        [.call ⟨1, .put 1 1 [10] 0 0 7⟩, .tick, .materialize (.tail .apply),
          .materialize (.tail .store)])).map
        (fun p => (p.2.committer.st.sent, p.2.stream, p.2.mat)) =
      some ([(⟨0, .put 2 1 [20] 0 0 8⟩, .ok 2), (⟨1, .put 1 1 [10] 0 0 7⟩, .ok 1)],
        [⟨2, 1, 2, 0, [20]⟩],
        .spawned ⟨1, none, applyChange some ∅ ⟨2, 1, 2, 0, [20]⟩, 2⟩) := by
    rw [openWith, TruthStore.openLog, hlog]
    rfl
  obtain ⟨⟨hist, s⟩, hrun, heq⟩ := Option.map_eq_some_iff.mp hexec
  obtain ⟨hsent, hrest⟩ := Prod.mk.inj heq
  obtain ⟨hstream, hmat⟩ := Prod.mk.inj hrest
  dsimp only at hsent hstream hmat
  have hdrained : s.Drained := by
    rw [EngineState.Drained, hstream, hmat]
    exact ⟨rfl, rfl⟩
  refine ⟨s, hdrained, hsent, (synced_iff some _ 1 (run_of_exec hrun) hdrained).mpr ?_⟩
  exact Or.inr (Or.inl ⟨le_rfl, by simp [hstream]⟩)

end EngineState

end GrainStore
