import Mathlib
import GrainStore.Wal.Invariant

/-!
# What an ack promises

The committer syncs a batch, applies it and only then acks it.  The answer to a repeated
idempotency key is sent earlier, from the scan of the batch, and the dedup map already holds the
keys of the batch being scanned.  `acks_durable_iff` says when every ack of a run is durable and
visible at the moment it is sent: exactly when no scanned request repeats a key that its own
batch was the first to bring.
-/

namespace GrainStore

open WalLog TruthStore

namespace Machine

/-- An answer `Ok(seq)` to `pw` is durable and visible, by way of the record `r`. -/
structure Durable (m : Machine) (pw : Pending) (seq : U64) (r : WalRecord) : Prop where
  /-- The record carries the key of the request and the timestamp of the answer. -/
  key : r.idemKey = pw.req.idemKey
  seq : r.seq = seq
  /-- Its frame is in the synced part of the file. -/
  synced : r ∈ logOf m.st.file ∨ ∃ pre post, m.st.file = pre ++ encodeFrame r ++ post
  /-- Its version is in the KV. -/
  stored : ∃ v, m.st.kv.grains[r.key]? = some v
  /-- A strong read sees it, or a newer version. -/
  strong : ∃ r', r'.sid = r.sid ∧ r'.pred = r.pred ∧ r.seq ≤ r'.seq ∧
    m.st.kv.grains[r'.key]? = some r'.value ∧
    get m.st.kv m.st.hlc r.sid r.pred .strong = .ok (grainOf r')

/-- All answers sent so far are durable and visible. -/
def AcksDurable (m : Machine) : Prop :=
  ∀ pw seq, (pw, .ok seq) ∈ m.st.sent → ∃ r, Durable m pw seq r

/-- The request scanned next repeats a key that its own batch was the first to bring. -/
def RepeatsInBatch (m : Machine) : Prop :=
  match m.phase with
  | .scanning (pw :: _) b => pw.req.idemKey ∈ b.acks.map fun a => a.1.req.idemKey
  | _ => False

instance (m : Machine) : Decidable (RepeatsInBatch m) :=
  match m with
  | ⟨_, .scanning (pw :: _) b⟩ =>
    inferInstanceAs (Decidable (pw.req.idemKey ∈ b.acks.map fun a => a.1.req.idemKey))
  | ⟨_, .scanning [] _⟩ | ⟨_, .idle⟩ | ⟨_, .writing _⟩ | ⟨_, .applying _ _⟩
  | ⟨_, .publishing _ _⟩ | ⟨_, .acking _⟩ | ⟨_, .failing _ _⟩ | ⟨_, .stopped⟩ => .isFalse id

/-- All answers sent so far are about records in the KV. -/
def Logged (disk : Bytes) (m : Machine) (g : History) : Prop :=
  ∀ pw seq, (pw, .ok seq) ∈ m.st.sent →
    ∃ r ∈ logOf disk ++ g.applied, r.idemKey = pw.req.idemKey ∧ r.seq = seq

variable {disk : Bytes} {m m' : Machine} {g : History}

/-- A record in the KV is durable and visible. -/
lemma Inv.durable (h : Inv disk m g) {r : WalRecord} (hr : r ∈ logOf disk ++ g.applied)
    {pw : Pending} (hkey : r.idemKey = pw.req.idemKey) : Durable m pw r.seq r where
  key := hkey
  seq := rfl
  synced := by
    rw [h.file]
    rcases List.mem_append.mp hr with hr | hr
    · exact Or.inl ((walCodec.toFrameDecoder.frames_prefix_append disk _).subset hr)
    · obtain ⟨pre, post, hsplit⟩ := List.append_of_mem (List.mem_append_left g.todo hr)
      refine Or.inr ⟨disk ++ pre.flatMap encodeFrame, post.flatMap encodeFrame, ?_⟩
      rw [History.log, hsplit, List.flatMap_append, List.flatMap_cons, List.append_assoc,
        List.append_assoc]
  stored := by
    rw [h.grains]
    exact exists_grains_of_mem hr
  strong := by
    have hle : r.seq ≤ m.st.hlc.now := by
      rw [HlcOracle.now, h.clock]
      refine seq_le_clock ?_
      rw [History.full, History.log, List.append_assoc, ← List.append_assoc]
      exact List.mem_append_left _ hr
    have hread := getAt_eq_visible h.grains r.sid r.pred m.st.hlc.now
    cases hv : visible (logOf disk ++ g.applied) r.sid r.pred m.st.hlc.now with
    | none => exact absurd ⟨rfl, rfl, hle⟩ (visible_eq_none_iff.mp hv r hr)
    | some r' =>
      obtain ⟨-, ⟨hs, hp, -⟩, hstored⟩ := grains_of_visible hv
      refine ⟨r', hs, hp, seq_le_of_visible hv r hr ⟨rfl, rfl, hle⟩, ?_, ?_⟩
      · rw [h.grains]
        exact hstored
      · rw [hv, Option.bind_some] at hread
        exact hread

/-- The answers sent in a step are the answer to a repeated key, from the dedup map, and the
acks of a batch that is published. -/
lemma Step.mem_sent {e : Event} (h : Step m e m') {pw : Pending} {seq : U64}
    (hsent : (pw, .ok seq) ∈ m'.st.sent) :
    (pw, .ok seq) ∈ m.st.sent ∨
      (∃ rest b, m.phase = .scanning (pw :: rest) b ∧ m.st.idem[pw.req.idemKey]? = some seq) ∨
      ∃ acks, m.phase = .acking ((pw, seq) :: acks) := by
  cases h with
  | @scan s s' b b' pw' rest hscan =>
    rcases Committer.scanReq_cases hscan with ⟨orig, hidem, -, rfl⟩ | ⟨-, -, -, rfl⟩
    · rcases List.mem_append.mp hsent with hsent | hsent
      · exact Or.inl hsent
      · obtain ⟨rfl, hseq⟩ := Prod.mk.inj (List.mem_singleton.mp hsent)
        obtain rfl := Except.ok.inj hseq
        exact Or.inr (Or.inl ⟨rest, b, rfl, hidem⟩)
    · exact Or.inl hsent
  | ack s a acks =>
    rcases List.mem_append.mp hsent with hsent | hsent
    · exact Or.inl hsent
    · obtain ⟨rfl, hseq⟩ := Prod.mk.inj (List.mem_singleton.mp hsent)
      obtain rfl := Except.ok.inj hseq
      exact Or.inr (Or.inr ⟨acks, rfl⟩)
  | error s e a acks =>
    rcases List.mem_append.mp hsent with hsent | hsent
    · exact Or.inl hsent
    · simp at hsent
  | _ => exact Or.inl hsent

/-- A request scanned with the key of a record that is not synced repeats a key of its batch. -/
lemma Inv.repeatsInBatch (hinv : Inv disk m g) {pw : Pending} {rest : List Pending} {b : Batch}
    (hphase : m.phase = .scanning (pw :: rest) b) {r : WalRecord} (hr : r ∈ g.pend)
    (hkey : r.idemKey = pw.req.idemKey) : RepeatsInBatch m := by
  have hp := hinv.phase
  unfold InPhase at hp
  unfold RepeatsInBatch
  rw [hphase] at hp ⊢
  obtain ⟨-, hpend, -⟩ := hp
  rw [hpend] at hr
  obtain ⟨a, ha, rfl⟩ := List.mem_map.mp hr
  exact List.mem_map.mpr ⟨a, ha, hkey⟩

/-- A step keeps the answers on record unless it answers a repeat from its own batch. -/
lemma Logged.step {e : Event} {g' : History} (hlogged : Logged disk m g) (hinv : Inv disk m g)
    (hon : GoesOn g g') (hstep : m.next e = some m') (hgood : ¬RepeatsInBatch m) :
    Logged disk m' g' := by
  intro pw seq hsent
  have happlied : ∀ r ∈ logOf disk ++ g.applied, r ∈ logOf disk ++ g'.applied := by
    intro r hr
    exact ((List.prefix_append_right_inj _).mpr hon.applied).subset hr
  suffices hold : ∃ r ∈ logOf disk ++ g.applied, r.idemKey = pw.req.idemKey ∧ r.seq = seq by
    obtain ⟨r, hr, hrest⟩ := hold
    exact ⟨r, happlied r hr, hrest⟩
  have hp := hinv.phase
  unfold InPhase at hp
  rcases (step_of_next hstep).mem_sent hsent with
    hsent | ⟨rest, b, hphase, hidem⟩ | ⟨acks, hphase⟩
  · exact hlogged pw seq hsent
  · -- the key on record is not one of this batch, so its record is applied
    rw [hphase] at hp
    obtain ⟨htodo, -, -⟩ := hp
    rw [hinv.idem] at hidem
    obtain ⟨r, hr, hkey, hseq⟩ := exists_of_idem hidem
    refine ⟨r, ?_, hkey, hseq⟩
    rw [History.full, History.log, htodo, List.append_nil, ← List.append_assoc] at hr
    rcases List.mem_append.mp hr with hr | hr
    · exact hr
    · exact absurd (hinv.repeatsInBatch hphase hr hkey) hgood
  · -- an acked batch is applied
    rw [hphase] at hp
    obtain ⟨htodo, -, -, hmem⟩ := hp
    have hr := hmem _ List.mem_cons_self
    rw [History.log, htodo, List.append_nil] at hr
    exact ⟨_, List.mem_append_right _ hr, rfl, rfl⟩

/-- A key that the batch being scanned brought maps to a record that is not synced. -/
lemma Inv.exists_pend (hinv : Inv disk m g) {pw : Pending} {rest : List Pending} {b : Batch}
    (hphase : m.phase = .scanning (pw :: rest) b)
    (hmem : pw.req.idemKey ∈ b.acks.map fun a => a.1.req.idemKey) :
    ∃ r ∈ g.pend, m.st.idem[pw.req.idemKey]? = some r.seq := by
  have hp := hinv.phase
  unfold InPhase at hp
  rw [hphase] at hp
  obtain ⟨-, hpend, -⟩ := hp
  obtain ⟨a, ha, hkey⟩ := List.mem_map.mp hmem
  have hr : a.1.req.record a.2 ∈ g.pend := by
    rw [hpend]
    exact List.mem_map_of_mem ha
  refine ⟨_, hr, ?_⟩
  have hidem := hinv.ext.idem_of_mem (List.mem_append_right g.log hr)
  rw [hinv.idem, ← hkey]
  exact hidem

/-- The answer to a repeat from the batch being scanned is about a record that is not in the KV. -/
lemma Inv.not_acksDurable {e : Event} (hinv : Inv disk m g) (hstep : m.next e = some m')
    (hbad : RepeatsInBatch m) : ¬AcksDurable m' := by
  unfold RepeatsInBatch at hbad
  cases step_of_next hstep with
  | @scan s s' b b' pw rest hscan =>
    obtain ⟨r₀, hr₀, hidem⟩ := hinv.exists_pend rfl hbad
    rw [Committer.scanReq_of_some hidem] at hscan
    obtain ⟨rfl, rfl⟩ := Prod.mk.inj (Option.some.inj hscan)
    intro hall
    have hsent : (pw, .ok r₀.seq) ∈ s.sent ++ [(pw, .ok r₀.seq)] :=
      List.mem_append_right _ List.mem_cons_self
    obtain ⟨r, hdur⟩ := hall pw r₀.seq hsent
    obtain ⟨v, hv⟩ := hdur.stored
    have hgrains : s.kv.grains = WalLog.grains (logOf disk ++ g.applied) := hinv.grains
    rw [hgrains] at hv
    -- a record in the KV would carry the timestamp of one that is not synced
    obtain ⟨r', hr', hkey, -⟩ := exists_of_grains hv
    have hmem : r' ∈ logOf disk ++ g.log := by
      rw [History.log, ← List.append_assoc]
      exact List.mem_append_left _ hr'
    have hseq : r'.seq = r₀.seq := by
      rw [(grainKey_inj.mp hkey).2.2, hdur.seq]
    exact hinv.ext.seq_ne hmem hr₀ hseq
  | panic rest hscan =>
    obtain ⟨r₀, hr₀, hidem⟩ := hinv.exists_pend rfl hbad
    rw [Committer.scanReq_of_some hidem] at hscan
    simp at hscan
  | _ => exact hbad.elim

/-! ## Crashes -/

/-- The requests received all satisfy `R`: the ones still to be scanned, and the ones the records
were made from. -/
structure Received (R : WriteReq → Prop) (m : Machine) (g : History) : Prop where
  rest : ∀ rest b, m.phase = .scanning rest b → ∀ pw ∈ rest, R pw.req
  full : ∀ r ∈ g.full, ∃ req, R req ∧ r = req.record r.seq

/-- An event that brings only requests that satisfy `R`. -/
def Brings (R : WriteReq → Prop) (e : Event) : Prop :=
  ∀ first more, e = .recv first more → ∀ pw ∈ first :: more, R pw.req

lemma Received.start (R : WriteReq → Prop) (disk : Bytes) :
    Received R (start disk) ⟨[], [], []⟩ where
  rest := by
    intro rest b h
    simp [Machine.start] at h
  full := by
    intro r hr
    simp [History.full, History.log] at hr

lemma Received.step {R : WriteReq → Prop} {g' : History} {e : Event} (h : Received R m g)
    (hon : StepsOn m g g') (hstep : m.next e = some m') (he : Brings R e) :
    Received R m' g' where
  rest := by
    intro rest b hphase pw hpw
    cases step_of_next hstep with
    | recv s first more =>
      obtain ⟨rfl, -⟩ := Phase.scanning.inj hphase
      exact he first more rfl pw hpw
    | scan rest' hscan =>
      obtain ⟨rfl, -⟩ := Phase.scanning.inj hphase
      exact h.rest _ _ rfl pw (List.mem_cons_of_mem _ hpw)
    | _ => simp at hphase
  full := by
    intro r hr
    rcases hon.new with hfull | ⟨pw, rest, b, hphase, -, hfull⟩
    · rw [hfull] at hr
      exact h.full r hr
    · rw [hfull] at hr
      rcases List.mem_append.mp hr with hr | hr
      · exact h.full r hr
      · obtain rfl := List.mem_singleton.mp hr
        exact ⟨pw.req, h.rest _ _ hphase pw List.mem_cons_self, rfl⟩

/-- The bytes not synced are the start of the frames not synced. -/
lemma Inv.unsynced_prefix (h : Inv disk m g) : m.unsynced <+: g.pend.flatMap encodeFrame := by
  obtain ⟨s, phase⟩ := m
  have hp := h.phase
  unfold InPhase at hp
  have hnil : s.tail = [] → s.tail <+: g.pend.flatMap encodeFrame := by
    intro htail
    rw [htail]
    exact List.nil_prefix
  cases phase with
  | writing b =>
    obtain ⟨-, hpend, -⟩ := hp
    show b.buf <+: _
    rw [b.buf_eq, hpend]
    exact List.prefix_rfl
  | idle => exact hnil hp.2.2
  | scanning rest b => exact hnil hp.2.2
  | applying puts b => exact hnil hp.2.2.1
  | publishing recs b => exact hnil hp.2.2.1
  | acking acks => exact hnil hp.2.2.1
  | failing e acks => exact hp.2
  | stopped => exact hp.2

/-- What recovery finds after a crash, when the log was whole and the values fit the format: all
records synced, and the first ones of those that were not. -/
theorem Inv.logOf_crash (h : Inv disk m g) (hwhole : walCodec.rest disk = [])
    (hfit : ∀ r ∈ g.full, r.Fits) (n : ℕ) :
    ∃ k, logOf (m.crash n) = logOf disk ++ (g.log ++ g.pend.take k) := by
  have hlog : ∀ r ∈ g.log, r.Fits := fun r hr => hfit r (List.mem_append_left _ hr)
  have hpend : ∀ r ∈ g.pend, walCodec.Fits r := fun r hr => hfit r (List.mem_append_right _ hr)
  obtain ⟨k, -, hle, hmax⟩ := walCodec.exists_whole_prefix g.pend (m.unsynced.take n).length
  have htail : m.unsynced.take n =
      (g.pend.flatMap encodeFrame).take (m.unsynced.take n).length :=
    List.prefix_iff_eq_take.mp ((List.take_prefix n _).trans h.unsynced_prefix)
  have hlast : logOf (m.unsynced.take n) = g.pend.take k := by
    rw [htail]
    exact walCodec.frames_take_flatMap hpend hle hmax
  refine ⟨k, ?_⟩
  rw [crash, h.file, List.append_assoc, logOf, walCodec.toFrameDecoder.frames_append, hwhole,
    List.nil_append, ← logOf, ← logOf, logOf_flatMap_append hlog, hlast]

/-- All answers sent so far are about records that recovery finds after a crash. -/
def SurvivesCrash (m : Machine) : Prop :=
  ∀ pw seq, (pw, .ok seq) ∈ m.st.sent → ∀ n, ∃ r ∈ logOf (m.crash n),
    r.idemKey = pw.req.idemKey ∧ r.seq = seq

/-- A request whose value fits the format. -/
def FitsFormat (req : WriteReq) : Prop := REC_FIXED + req.val.length < 2 ^ 32

instance (req : WriteReq) : Decidable (FitsFormat req) := inferInstanceAs (Decidable (_ < _))

lemma Received.fits (h : Received FitsFormat m g) : ∀ r ∈ g.full, r.Fits := by
  intro r hr
  obtain ⟨req, hreq, hrec⟩ := h.full r hr
  rw [hrec]
  exact hreq

/-- Along a run without answers to repeats from their own batch the answers stay on record, and
along any run so does what is known of the requests received. -/
lemma logged_of_run {R : WriteReq → Prop} {hist : List (Machine × Event)}
    (h : RunFrom disk hist m) (hgood : ∀ s ∈ hist, ¬RepeatsInBatch s.1)
    (hR : ∀ s ∈ hist, Brings R s.2) : ∃ g, Inv disk m g ∧ Logged disk m g ∧ Received R m g := by
  induction h with
  | start =>
    refine ⟨_, Inv.start disk, ?_, Received.start R disk⟩
    intro pw seq hsent
    simp [start, TruthStore.openLog, Wal.open] at hsent
  | @step hist y z e hrun hstep ih =>
    obtain ⟨g, hinv, hlogged, hrec⟩ := ih (fun s hs => hgood s (List.mem_append_left _ hs))
      (fun s hs => hR s (List.mem_append_left _ hs))
    have hlast : (y, e) ∈ hist ++ [(y, e)] := List.mem_append_right _ List.mem_cons_self
    obtain ⟨g', hinv', hon⟩ := hinv.step hstep
    exact ⟨g', hinv', hlogged.step hinv hon.toGoesOn hstep (hgood _ hlast),
      hrec.step hon hstep (hR _ hlast)⟩

/-! ## The exact condition -/

/-- Acks that are on record are durable and visible. -/
lemma Logged.acksDurable (hlogged : Logged disk m g) (hinv : Inv disk m g) : AcksDurable m := by
  intro pw seq hsent
  obtain ⟨r, hr, hkey, rfl⟩ := hlogged pw seq hsent
  exact ⟨r, hinv.durable hr hkey⟩

/-- Acks that are on record survive a crash, when the log was whole and the values fit. -/
lemma Logged.survivesCrash (hlogged : Logged disk m g) (hinv : Inv disk m g)
    (hwhole : walCodec.rest disk = []) (hfit : ∀ r ∈ g.full, r.Fits) : SurvivesCrash m := by
  intro pw seq hsent n
  obtain ⟨r, hr, hrest⟩ := hlogged pw seq hsent
  obtain ⟨k, hlog⟩ := hinv.logOf_crash hwhole hfit n
  refine ⟨r, ?_, hrest⟩
  rw [hlog, History.log, List.append_assoc, ← List.append_assoc]
  exact List.mem_append_left _ hr

/-- Every `Ok(seq)` of a run is durable and visible when it is sent exactly when no request
scanned in the run repeats a key that its own batch was the first to bring; and when the log
opened was whole and all values fit the format, the same condition decides whether, besides, no
crash can lose any of them. -/
theorem acks_durable_iff (disk : Bytes) (hist : List (Machine × Event)) (m : Machine)
    (h : RunFrom disk hist m) :
    ((∀ x ∈ Trace.states hist m, AcksDurable x) ↔ ∀ s ∈ hist, ¬RepeatsInBatch s.1) ∧
    (walCodec.rest disk = [] → (∀ s ∈ hist, Brings FitsFormat s.2) →
      ((∀ x ∈ Trace.states hist m, AcksDurable x ∧ SurvivesCrash x) ↔
        ∀ s ∈ hist, ¬RepeatsInBatch s.1)) := by
  have hdur : (∀ x ∈ Trace.states hist m, AcksDurable x) ↔ ∀ s ∈ hist, ¬RepeatsInBatch s.1 := by
    refine h.forall_iff (J := fun m => ∃ g, Inv disk m g)
      (Q := fun m => ∃ g, Inv disk m g ∧ Logged disk m g) (B := fun m _ => RepeatsInBatch m)
      ⟨_, Inv.start disk⟩ ?_ ?_ ?_ ?_ ?_
    · refine ⟨_, Inv.start disk, ?_⟩
      intro pw seq hsent
      simp [start, TruthStore.openLog, Wal.open] at hsent
    · rintro y ⟨g, hinv, hlogged⟩
      exact hlogged.acksDurable hinv
    · rintro y e z ⟨g, hinv⟩ hstep
      obtain ⟨g', hinv', -⟩ := hinv.step hstep
      exact ⟨g', hinv'⟩
    · rintro y e z ⟨g, hinv, hlogged⟩ hstep hgood
      obtain ⟨g', hinv', hon⟩ := hinv.step hstep
      exact ⟨g', hinv', hlogged.step hinv hon.toGoesOn hstep hgood⟩
    · rintro y e z ⟨g, hinv⟩ hstep hbad
      exact hinv.not_acksDurable hstep hbad
  refine ⟨hdur, fun hwhole hR => ⟨fun hall => hdur.mp fun x hx => (hall x hx).1, ?_⟩⟩
  intro hgood x hx
  refine ⟨hdur.mpr hgood x hx, ?_⟩
  obtain ⟨hist₁, hist₂, hsplit, hrun, -⟩ := h.exists_split hx
  obtain ⟨g, hinv, hlogged, hrec⟩ := logged_of_run hrun
    (fun s hs => hgood s (hsplit ▸ List.mem_append_left _ hs))
    (fun s hs => hR s (hsplit ▸ List.mem_append_left _ hs))
  exact hlogged.survivesCrash hinv hwhole hrec.fits

/-- Two requests with one key in one batch: the second is answered `Ok(1)` while the KV is
empty. -/
theorem acks_not_durable :
    ∃ hist m, RunFrom [] hist m ∧ ¬∀ x ∈ Trace.states hist m, AcksDurable x := by
  have hexec : (Trace.exec next (start [])
      [.recv ⟨0, .put 1 1 [10] 0 0 7⟩ [⟨1, .put 2 1 [20] 0 0 7⟩], .tick, .tick]).map
        (fun p => (p.2.st.sent, p.2.st.kv.grains)) =
      some ([(⟨1, .put 2 1 [20] 0 0 7⟩, .ok 1)], ∅) := by
    rw [start, openLog_nil]
    rfl
  obtain ⟨⟨hist, m⟩, hrun, heq⟩ := Option.map_eq_some_iff.mp hexec
  obtain ⟨hsent, hgrains⟩ := Prod.mk.inj heq
  refine ⟨hist, m, Trace.run_of_exec hrun, ?_⟩
  intro hall
  obtain ⟨r, hdur⟩ := hall m Trace.mem_states_self ⟨1, .put 2 1 [20] 0 0 7⟩ 1 (by simp_all)
  obtain ⟨v, hv⟩ := hdur.stored
  dsimp only at hgrains
  rw [hgrains] at hv
  simp at hv

/-- A commit and its retry in the next batch meet the condition, and both answers are durable. -/
theorem acks_durable_iff_retry :
    ∃ hist m, RunFrom [] hist m ∧ m.st.sent = [(⟨0, .put 1 1 [10] 0 0 7⟩, .ok 1),
        (⟨1, .put 1 1 [10] 0 0 7⟩, .ok 1)] ∧
      ∀ x ∈ Trace.states hist m, AcksDurable x := by
  have hexec : (Trace.exec next (start []) ([.recv ⟨0, .put 1 1 [10] 0 0 7⟩ []] ++
      List.replicate 9 .tick ++ [.recv ⟨1, .put 1 1 [10] 0 0 7⟩ [], .tick])).map
        (fun p => (p.2.st.sent, p.1.all fun s => !decide (RepeatsInBatch s.1))) =
      some ([(⟨0, .put 1 1 [10] 0 0 7⟩, .ok 1), (⟨1, .put 1 1 [10] 0 0 7⟩, .ok 1)], true) := by
    rw [start, openLog_nil]
    rfl
  obtain ⟨⟨hist, m⟩, hrun, heq⟩ := Option.map_eq_some_iff.mp hexec
  obtain ⟨hsent, hgood⟩ := Prod.mk.inj heq
  have hrun' : RunFrom [] hist m := Trace.run_of_exec hrun
  refine ⟨hist, m, hrun', hsent, (acks_durable_iff [] hist m hrun').1.mpr ?_⟩
  simpa using hgood

end Machine

end GrainStore
