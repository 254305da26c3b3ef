import Mathlib
import GrainStore.Wal.Invariant

/-!
# Snapshots taken while the committer runs

A reader takes the clock as its snapshot.  The committer moves the clock in the scan of a batch
and applies the batch to the KV later, put by put, so a snapshot may cover records that are not
in the KV yet.  `repeatable_iff` says when reads at a snapshot can be repeated: exactly when
every such record is a tombstone over nothing.
-/

namespace GrainStore

open WalLog TruthStore

namespace WalLog

/-- What a reader gets at a snapshot from the meaning of a log. -/
def read (recs : List WalRecord) (sid : Sid) (pred : PredId) (t : Hlc) : Option Grain :=
  (visible recs sid pred t).bind grainOf

/-- Appending a record that the snapshot may not see leaves the reading alone. -/
lemma read_concat_of_not {recs : List WalRecord} {r : WalRecord} {sid : Sid} {pred : PredId}
    {t : Hlc} (h : ¬IsVersion sid pred t r) :
    read (recs ++ [r]) sid pred t = read recs sid pred t := by
  rw [read, visible_concat, if_neg h, read]

/-- Appending a tombstone leaves a reading of nothing alone. -/
lemma read_concat_of_delete {recs : List WalRecord} {r : WalRecord} {sid : Sid} {pred : PredId}
    {t : Hlc} (hop : r.op = OP_DELETE) (h : read recs sid pred t = none) :
    read (recs ++ [r]) sid pred t = none := by
  rw [read, visible_concat]
  by_cases hv : IsVersion sid pred t r
  · rw [if_pos hv]
    cases hn : newer (visible recs sid pred t) r with
    | none => rfl
    | some r' =>
      rcases newer_eq_some hn with ⟨-, rfl⟩ | ⟨hbest, -⟩
      · exact if_pos hop
      · rw [read, hbest] at h
        exact h
  · rw [if_neg hv]
    exact h

/-- Appending records leaves a reading alone when each one the snapshot may see is a tombstone
over nothing. -/
lemma read_append {recs l : List WalRecord} {sid : Sid} {pred : PredId} {t : Hlc}
    (h : ∀ r ∈ l, IsVersion sid pred t r → r.op = OP_DELETE ∧ read recs sid pred t = none) :
    read (recs ++ l) sid pred t = read recs sid pred t := by
  induction l using List.reverseRecOn with
  | nil => rw [List.append_nil]
  | append_singleton l r ih =>
    have ih := ih fun r' hr' => h r' (List.mem_append_left _ hr')
    rw [← List.append_assoc]
    by_cases hv : IsVersion sid pred t r
    · obtain ⟨hop, hnone⟩ := h r (List.mem_append_right _ List.mem_cons_self) hv
      rw [hnone] at ih ⊢
      exact read_concat_of_delete hop ih
    · rw [read_concat_of_not hv, ih]

/-- Appending the newest version of a log makes it the one that is read. -/
lemma read_concat_of_newest {recs : List WalRecord} {r : WalRecord} {t : Hlc} (hle : r.seq ≤ t)
    (hnew : ∀ r' ∈ recs, r'.seq ≤ r.seq) :
    read (recs ++ [r]) r.sid r.pred t = grainOf r := by
  have hv : IsVersion r.sid r.pred t r := ⟨rfl, rfl, hle⟩
  have hnewer : newer (visible recs r.sid r.pred t) r = some r := by
    unfold newer
    cases hb : visible recs r.sid r.pred t with
    | none => rfl
    | some b => exact if_pos (hnew b (grains_of_visible hb).1)
  rw [read, visible_concat, if_pos hv, hnewer, Option.bind_some]

/-- The timestamp of what is read is that of a record of the log. -/
lemma exists_of_read {recs : List WalRecord} {sid : Sid} {pred : PredId} {t : Hlc} {gr : Grain}
    (h : read recs sid pred t = some gr) : ∃ r ∈ recs, r.seq = gr.tTx := by
  obtain ⟨r, hv, hgr⟩ := Option.bind_eq_some_iff.mp h
  refine ⟨r, (grains_of_visible hv).1, ?_⟩
  unfold grainOf at hgr
  split at hgr
  · simp at hgr
  · obtain rfl := Option.some.inj hgr
    rfl

end WalLog

namespace Machine

open Trace

/-- The records that have a timestamp and are still to be applied.  A batch whose scan will run
into the end of the clock is never applied, nor is one whose write failed. -/
def unapplied (m : Machine) : List WalRecord :=
  match m.phase with
  | .scanning rest b => if (m.st.scan b rest).isSome then b.records else []
  | .writing b => b.records
  | .applying puts b => b.records.drop (b.records.length - puts.length)
  | _ => []

/-- Reads at the snapshot `ts` can be repeated from the state `m` on: whatever the committer does
in between, two reads of one `(sid, pred)` return the same. -/
def Repeatable (m : Machine) (ts : Hlc) : Prop :=
  ∀ y z, Reaches next m y → Reaches next y z → ∀ sid pred,
    getAt y.st.kv sid pred ts = getAt z.st.kv sid pred ts

/-- The committer will not apply anything any more, or panics before it does. -/
def Doomed (m : Machine) : Prop :=
  match m.phase with
  | .scanning rest b => m.st.scan b rest = none
  | .failing _ _ | .stopped => True
  | _ => False

variable {disk : Bytes} {m m' : Machine} {g : History}

/-- A doomed committer stays doomed and leaves the KV alone. -/
lemma Doomed.step {e : Event} (h : Doomed m) (hstep : m.next e = some m') :
    Doomed m' ∧ m'.st.kv = m.st.kv := by
  unfold Doomed at h ⊢
  cases step_of_next hstep with
  | @scan s s' b b' pw rest hscan =>
    dsimp only at h ⊢
    rw [Committer.scan, hscan] at h
    rcases Committer.scanReq_cases hscan with ⟨orig, _, _, rfl⟩ | ⟨_, _, _, rfl⟩
    · exact ⟨h, rfl⟩
    · exact ⟨h, rfl⟩
  | panic rest hscan => exact ⟨trivial, rfl⟩
  | error s e a acks => exact ⟨trivial, rfl⟩
  | failed s e => exact ⟨trivial, rfl⟩
  | skip s hbuf => simp [Committer.scan] at h
  | write s hbuf => simp [Committer.scan] at h
  | _ => exact h.elim

lemma Doomed.reaches (h : Doomed m) (hreach : Reaches next m m') :
    Doomed m' ∧ m'.st.kv = m.st.kv := by
  obtain ⟨hist, hrun⟩ := hreach
  refine hrun.invariant (I := fun x => Doomed x ∧ x.st.kv = m.st.kv) ⟨h, rfl⟩ ?_
  rintro y e z ⟨hy, hkv⟩ hstep
  obtain ⟨hz, hkv'⟩ := hy.step hstep
  exact ⟨hz, hkv'.trans hkv⟩

/-- Unless the committer is doomed, what has a timestamp and is not applied will be. -/
lemma Inv.unapplied_eq (h : Inv disk m g) (hdoomed : ¬Doomed m) :
    m.unapplied = g.todo ++ g.pend := by
  obtain ⟨s, phase⟩ := m
  have hp := h.phase
  unfold InPhase at hp
  unfold Doomed at hdoomed
  unfold unapplied
  cases phase with
  | idle =>
    obtain ⟨htodo, hpend, -⟩ := hp
    rw [htodo, hpend]
    rfl
  | scanning rest b =>
    obtain ⟨htodo, hpend, -⟩ := hp
    dsimp only
    rw [htodo, hpend, if_pos (Option.isSome_iff_ne_none.mpr hdoomed)]
    rfl
  | writing b =>
    obtain ⟨htodo, hpend, -⟩ := hp
    rw [htodo, hpend]
    rfl
  | applying puts b =>
    obtain ⟨hputs, hpend, -, ⟨done, hdone⟩, -⟩ := hp
    have hlen : puts.length = g.todo.length := by
      rw [hputs, List.length_map]
    dsimp only
    rw [hpend, List.append_nil, hdone, List.length_append, hlen, Nat.add_sub_cancel,
      List.drop_left]
  | publishing recs b =>
    obtain ⟨htodo, hpend, -⟩ := hp
    rw [htodo, hpend]
    rfl
  | acking acks =>
    obtain ⟨htodo, hpend, -⟩ := hp
    rw [htodo, hpend]
    rfl
  | failing e acks => exact absurd trivial hdoomed
  | stopped => exact absurd trivial hdoomed

/-- Nothing is left to be applied by a doomed committer. -/
lemma Doomed.unapplied_eq (h : Doomed m) : m.unapplied = [] := by
  obtain ⟨s, phase⟩ := m
  unfold Doomed at h
  unfold unapplied
  cases phase with
  | scanning rest b =>
    dsimp only at h ⊢
    rw [h]
    rfl
  | failing e acks => rfl
  | stopped => rfl
  | _ => exact h.elim

/-! ## Reads -/

/-- A read in a state of the committer is a reading of the log and the records applied. -/
lemma Inv.getAt_eq_read (h : Inv disk m g) (sid : Sid) (pred : PredId) (t : Hlc) :
    getAt m.st.kv sid pred t = .ok (read (logOf disk ++ g.applied) sid pred t) :=
  getAt_eq_visible h.grains sid pred t

/-- When every unapplied record that the snapshot covers is a tombstone over nothing, no later
state reads differently. -/
lemma Inv.getAt_reaches (h : Inv disk m g) {ts : Hlc} (hts : ts ≤ m.st.hlc.now)
    (hcond : ∀ r ∈ m.unapplied, r.seq ≤ ts →
      r.op = OP_DELETE ∧ getAt m.st.kv r.sid r.pred ts = .ok none)
    (hreach : Reaches next m m') (sid : Sid) (pred : PredId) :
    getAt m'.st.kv sid pred ts = getAt m.st.kv sid pred ts := by
  by_cases hdoomed : Doomed m
  · rw [(hdoomed.reaches hreach).2]
  · obtain ⟨hist, hrun⟩ := hreach
    obtain ⟨g', h', hon⟩ := h.run hrun
    rw [h.unapplied_eq hdoomed] at hcond
    obtain ⟨l, hl⟩ := hon.applied
    rw [h'.getAt_eq_read, h.getAt_eq_read, ← hl, ← List.append_assoc, read_append]
    intro r hr hv
    obtain ⟨hsid, hpred, hle⟩ := hv
    -- the records applied since are the unapplied ones and ones after the snapshot
    have hmem : r ∈ g.todo ++ g.pend := by
      obtain ⟨l', hl'⟩ := hon.full
      have hsplit : l ++ (g'.todo ++ g'.pend) = g.todo ++ g.pend ++ l' := by
        have heq : g.applied ++ (l ++ (g'.todo ++ g'.pend)) =
            g.applied ++ (g.todo ++ g.pend ++ l') := by
          rw [← List.append_assoc, hl, ← List.append_assoc, ← List.append_assoc]
          rw [History.full, History.full, History.log, History.log] at hl'
          simpa using hl'.symm
        exact List.append_cancel_left heq
      have hr' : r ∈ g.todo ++ g.pend ++ l' := hsplit ▸ List.mem_append_left _ hr
      rcases List.mem_append.mp hr' with hr' | hr'
      · exact hr'
      · exfalso
        have hext : Extends (logOf disk) (g.full ++ l') := hl' ▸ h'.ext
        have hlt : m.st.hlc.now < r.seq := by
          rw [HlcOracle.now, h.clock]
          exact hext.shift.clock_lt_seq hr'
        exact absurd (hts.trans_lt hlt) (not_lt.mpr hle)
    obtain ⟨hop, hnone⟩ := hcond r hmem hle
    rw [h.getAt_eq_read, hsid, hpred] at hnone
    exact ⟨hop, Except.ok.inj hnone⟩

/-! ## Getting a record applied -/

/-- Scanning leaves the KV alone and adds to the batch. -/
lemma kv_of_scan {s s' : Committer} {b b' : Batch} {reqs : List Pending}
    (h : s.scan b reqs = some (s', b')) : s'.kv = s.kv ∧ b.records <+: b'.records := by
  induction reqs generalizing s b with
  | nil =>
    obtain ⟨rfl, rfl⟩ := Prod.mk.inj (Option.some.inj h)
    exact ⟨rfl, List.prefix_rfl⟩
  | cons pw rest ih =>
    rw [Committer.scan] at h
    cases hreq : s.scanReq b pw with
    | none => simp [hreq] at h
    | some p =>
      obtain ⟨s₁, b₁⟩ := p
      rw [hreq] at h
      obtain ⟨hkv, hrecs⟩ := ih h
      rcases Committer.scanReq_cases hreq with ⟨orig, _, rfl, rfl⟩ | ⟨_, _, rfl, rfl⟩
      · exact ⟨hkv, hrecs⟩
      · rw [Batch.records_push] at hrecs
        exact ⟨hkv, (List.prefix_append _ _).trans hrecs⟩

/-- From a batch being applied, the state after its next puts is reached. -/
lemma reaches_applied (l l' : List WalRecord) (s : Committer) (b : Batch) :
    ∃ y, Reaches next ⟨s, .applying ((l ++ l').map fun r => (r.key, r.value)) b⟩ y ∧
      y.st.kv.grains = l.foldl (fun t r => t.insert r.key r.value) s.kv.grains := by
  induction l generalizing s with
  | nil => exact ⟨_, Reaches.refl _, rfl⟩
  | cons r l ih =>
    obtain ⟨y, hy, hkv⟩ := ih { s with kv := s.kv.putGrain r.key r.value }
    have hstep : next ⟨s, .applying (((r :: l) ++ l').map fun r => (r.key, r.value)) b⟩ .tick =
        some ⟨{ s with kv := s.kv.putGrain r.key r.value },
          .applying ((l ++ l').map fun r => (r.key, r.value)) b⟩ := rfl
    exact ⟨y, Reaches.head hstep hy, hkv⟩

/-- From a batch that is scanned, the state after its first puts is reached. -/
lemma reaches_applied_of_sync {s : Committer} {b : Batch} {l l' : List WalRecord}
    (hrecs : b.records = l ++ l') :
    ∃ y, Reaches next ⟨s.sync b, .applying b.puts b⟩ y ∧
      y.st.kv.grains = l.foldl (fun t r => t.insert r.key r.value) s.kv.grains := by
  have hputs : b.puts = (l ++ l').map fun r => (r.key, r.value) := by
    rw [← hrecs]
    exact b.puts_eq
  rw [hputs]
  exact reaches_applied l l' (s.sync b) b

/-- An unapplied record is applied in some state to come, after the ones before it. -/
lemma Inv.exists_applied (h : Inv disk m g) {l l' : List WalRecord}
    (hsplit : m.unapplied = l ++ l') :
    ∃ y, Reaches next m y ∧ ∀ sid pred t,
      getAt y.st.kv sid pred t = .ok (read (logOf disk ++ g.applied ++ l) sid pred t) := by
  suffices hkv : ∃ y, Reaches next m y ∧
      y.st.kv.grains = l.foldl (fun t r => t.insert r.key r.value) m.st.kv.grains by
    obtain ⟨y, hy, hgrains⟩ := hkv
    refine ⟨y, hy, fun sid pred t => getAt_eq_visible ?_ sid pred t⟩
    rw [hgrains, h.grains, ← grains_append]
  by_cases hdoomed : Doomed m
  · rw [hdoomed.unapplied_eq] at hsplit
    obtain ⟨rfl, rfl⟩ := List.append_eq_nil_iff.mp hsplit.symm
    exact ⟨m, Reaches.refl m, rfl⟩
  · have hun := h.unapplied_eq hdoomed
    have hp := h.phase
    obtain ⟨s, phase⟩ := m
    unfold InPhase at hp
    unfold Doomed at hdoomed
    rw [hsplit] at hun
    cases phase with
    | scanning rest b =>
      obtain ⟨htodo, hpend, -⟩ := hp
      obtain ⟨⟨s', b'⟩, hscan⟩ := Option.ne_none_iff_exists'.mp hdoomed
      obtain ⟨hkv, ⟨more, hmore⟩⟩ := kv_of_scan hscan
      rw [htodo, hpend, List.nil_append] at hun
      rw [← hun, List.append_assoc] at hmore
      obtain ⟨y, hy, hgrains⟩ := reaches_applied_of_sync (s := s') hmore.symm
      refine ⟨y, (reaches_of_scan hscan).trans ((reaches_of_sync s' b').trans hy), ?_⟩
      rw [hgrains, hkv]
    | writing b =>
      obtain ⟨htodo, hpend, -⟩ := hp
      rw [htodo, hpend, List.nil_append] at hun
      obtain ⟨y, hy, hgrains⟩ := reaches_applied_of_sync (s := s) hun.symm
      exact ⟨y, Reaches.head (e := .tick) rfl hy, hgrains⟩
    | applying puts b =>
      obtain ⟨hputs, hpend, -⟩ := hp
      rw [hpend, List.append_nil] at hun
      rw [hputs, ← hun]
      exact reaches_applied l l' s b
    | idle =>
      obtain ⟨rfl, rfl⟩ := List.append_eq_nil_iff.mp hsplit.symm
      exact ⟨_, Reaches.refl _, rfl⟩
    | publishing recs b =>
      obtain ⟨rfl, rfl⟩ := List.append_eq_nil_iff.mp hsplit.symm
      exact ⟨_, Reaches.refl _, rfl⟩
    | acking acks =>
      obtain ⟨rfl, rfl⟩ := List.append_eq_nil_iff.mp hsplit.symm
      exact ⟨_, Reaches.refl _, rfl⟩
    | failing e acks => exact absurd trivial hdoomed
    | stopped => exact absurd trivial hdoomed

/-! ## The exact condition -/

/-- In every state of every run and for every snapshot up to the clock: reads at the snapshot
can be repeated from there on exactly when each record that the snapshot covers and that is
still to be applied is a tombstone where the snapshot shows nothing. -/
theorem repeatable_iff (disk : Bytes) (hist : List (Machine × Event)) (m : Machine)
    (h : RunFrom disk hist m) (ts : Hlc) (hts : ts ≤ TruthStore.now m.st.hlc) :
    Repeatable m ts ↔ ∀ r ∈ m.unapplied, r.seq ≤ ts →
      r.op = OP_DELETE ∧ getAt m.st.kv r.sid r.pred ts = .ok none := by
  obtain ⟨g, hinv⟩ := exists_inv h
  constructor
  · intro hrep r hr hle
    obtain ⟨l, l', hsplit⟩ := List.append_of_mem hr
    have hdoomed : ¬Doomed m := by
      intro hd
      rw [hd.unapplied_eq] at hr
      simp at hr
    -- once the record is applied it is the one that is read
    rw [← List.singleton_append, ← List.append_assoc] at hsplit
    obtain ⟨y, hy, hread⟩ := hinv.exists_applied hsplit
    have hsame := hrep m y (Reaches.refl m) hy r.sid r.pred
    rw [hread, ← List.append_assoc] at hsame
    have hfull : g.full = g.applied ++ l ++ [r] ++ l' := by
      rw [History.full, History.log, List.append_assoc, ← hinv.unapplied_eq hdoomed, hsplit]
      simp only [List.append_assoc]
    have hext : Extends (logOf disk) (g.applied ++ l ++ [r]) := (hfull ▸ hinv.ext).of_append
    have hnew : ∀ r' ∈ logOf disk ++ g.applied ++ l, r'.seq < r.seq := by
      intro r' hr'
      rw [List.append_assoc] at hr'
      exact (seq_le_clock hr').trans_lt (hext.shift.clock_lt_seq List.mem_cons_self)
    rw [read_concat_of_newest hle fun r' hr' => (hnew r' hr').le] at hsame
    by_cases hop : r.op = OP_DELETE
    · refine ⟨hop, ?_⟩
      rw [hsame, grainOf, if_pos hop]
    · -- a live version carries a timestamp that nothing applied before has
      exfalso
      rw [grainOf, if_neg hop, hinv.getAt_eq_read] at hsame
      obtain ⟨r', hr', hseq⟩ := exists_of_read (Except.ok.inj hsame)
      exact (hnew r' (List.mem_append_left _ hr')).ne hseq
  · intro hcond y z hy hz sid pred
    rw [hinv.getAt_reaches hts hcond hy, hinv.getAt_reaches hts hcond (hy.trans hz)]

/-- A put that is scanned, but not written yet, is covered by the snapshot that the clock gives:
the snapshot reads nothing at first and the put's value once it is applied. -/
theorem not_repeatable :
    ∃ hist m, RunFrom [] hist m ∧ ¬Repeatable m (TruthStore.now m.st.hlc) := by
  have hexec : (Trace.exec next (start [])
      [.recv ⟨0, .put 1 1 [10] 0 0 7⟩ [], .tick, .tick, .tick, .tick]).bind
        (fun p => p.1[2]?.map fun s =>
          (s.1.st.hlc.last, getAt s.1.st.kv 1 1 1, getAt p.2.st.kv 1 1 1)) =
      some (1, .ok none, .ok (some ⟨1, 1, .bytes [10], 0, 0, 1⟩)) := by
    rw [start, openLog_nil]
    rfl
  obtain ⟨⟨hist, y⟩, hrun, hget⟩ := Option.bind_eq_some_iff.mp hexec
  obtain ⟨⟨x, e⟩, hx, heq⟩ := Option.map_eq_some_iff.mp hget
  obtain ⟨hlast, hbefore, hafter⟩ : x.st.hlc.last = 1 ∧ getAt x.st.kv 1 1 1 = .ok none ∧
      getAt y.st.kv 1 1 1 = .ok (some ⟨1, 1, .bytes [10], 0, 0, 1⟩) := by
    simpa using heq
  have hmem : x ∈ Trace.states hist y :=
    List.mem_append_left _ (List.mem_map_of_mem (List.mem_of_getElem? hx))
  obtain ⟨hist₁, hist₂, -, h₁, h₂⟩ := (Trace.run_of_exec hrun).exists_split hmem
  refine ⟨hist₁, x, h₁, ?_⟩
  intro hrep
  have hsame := hrep x y (Reaches.refl x) ⟨hist₂, h₂⟩ 1 1
  rw [TruthStore.now, HlcOracle.now, hlast, hbefore, hafter] at hsame
  simp at hsame

/-- Between the scan of a delete and the write of its tombstone the snapshot that the clock gives can
be read repeatedly, as the deleted grain was never there. -/
theorem repeatable_iff_committed :
    ∃ hist m, RunFrom [] hist m ∧ m.unapplied.map (fun r => (r.sid, r.pred, r.op, r.seq)) =
      [(2, 1, OP_DELETE, 2)] ∧
      getAt m.st.kv 1 1 2 = .ok (some ⟨1, 1, .bytes [10], 0, 0, 1⟩) ∧ Repeatable m 2 := by
  have hexec : (Trace.exec next (start [])
      ([.recv ⟨0, .put 1 1 [10] 0 0 7⟩ []] ++ List.replicate 9 .tick ++
        [.recv ⟨1, .delete 2 1 0 0 8⟩ [], .tick, .tick])).map
        (fun p => (p.2.st.hlc.last, getAt p.2.st.kv 1 1 2, getAt p.2.st.kv 2 1 2,
          p.2.unapplied.map fun r => (r.sid, r.pred, r.op, r.seq))) =
      some (2, .ok (some ⟨1, 1, .bytes [10], 0, 0, 1⟩), .ok none, [(2, 1, OP_DELETE, 2)]) := by
    rw [start, openLog_nil]
    rfl
  obtain ⟨⟨hist, m⟩, hrun, heq⟩ := Option.map_eq_some_iff.mp hexec
  simp only [Prod.mk.injEq] at heq
  obtain ⟨hlast, hread, hnone, hun⟩ := heq
  have hrun' : RunFrom [] hist m := Trace.run_of_exec hrun
  refine ⟨hist, m, hrun', hun, hread, (repeatable_iff [] hist m hrun' 2 hlast.ge).mpr ?_⟩
  intro r hr _
  have hmem : (r.sid, r.pred, r.op, r.seq) ∈ m.unapplied.map fun r => (r.sid, r.pred, r.op, r.seq) :=
    List.mem_map_of_mem hr
  rw [hun, List.mem_singleton] at hmem
  simp only [Prod.mk.injEq] at hmem
  obtain ⟨hsid, hpred, hop, -⟩ := hmem
  rw [hsid, hpred]
  exact ⟨hop, hnone⟩

end Machine

end GrainStore
