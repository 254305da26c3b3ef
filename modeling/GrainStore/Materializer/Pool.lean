import Mathlib
import GrainStore.Foundation.Trace
import GrainStore.Materializer

/-!
# The worker pool of the materializer

A dispatcher hands the changes of the stream to the workers in turn; each worker applies the
changes of its queue in order and records their completion.  Workers run concurrently, so two
changes of one grain id on different workers can be applied in either order.

`boundedStaleness_iff` says for which streams and how many workers the watermark means what it
should in every interleaving: exactly when a change that can be overtaken by a later one of its
grain id leaves the entry that some change not older than the later one leaves.
-/

namespace GrainStore

open Trace

/-- The pool: how many changes are dispatched, the workers' queues, the change each worker has
applied and not completed yet, the index, the completion state and the watermark. -/
structure Pool (V : Type*) where
  sent : ℕ
  queues : ℕ → List CdcRecord
  busy : ℕ → Option CdcRecord
  index : VectorMap V
  comp : Completion
  watermark : ℕ

/-- What happens next in the pool. -/
inductive PoolEvent where
  /-- The dispatcher sends the next change to the worker whose turn it is. -/
  | send
  /-- The worker takes the next change of its queue and applies it. -/
  | apply (w : ℕ)
  /-- The worker completes the change it has applied. -/
  | complete (w : ℕ)
  deriving DecidableEq, Repr

namespace Pool

variable {V : Type*} (embed : Bytes → Option V) (workers : ℕ) (stream : List CdcRecord)

/-- The pool when it is spawned. -/
def new : Pool V :=
  { sent := 0, queues := fun _ => [], busy := fun _ => none, index := ∅, comp := Completion.new,
    watermark := 0 }

/-- One step of the pool on a stream of changes. -/
def next (p : Pool V) : PoolEvent → Option (Pool V)
  | .send =>
    match stream[p.sent]? with
    | none => none
    | some r =>
      let w := p.sent % workers
      some { p with sent := p.sent + 1, queues := Function.update p.queues w (p.queues w ++ [r]) }
  | .apply w =>
    match p.busy w, p.queues w with
    | none, r :: rest =>
      some { p with
        queues := Function.update p.queues w rest
        busy := Function.update p.busy w (some r)
        index := applyChange embed p.index r }
    | _, _ => none
  | .complete w =>
    match p.busy w with
    | none => none
    | some r =>
      let comp := p.comp.complete r.seq.toNat
      some { p with busy := Function.update p.busy w none, comp, watermark := comp.watermark }

/-- The runs of a pool of at least one worker. -/
abbrev Reachable (p : Pool V) : Prop := Reaches (next embed (max workers 1) stream) new p

/-- A stream with contiguous timestamps that start at 1. -/
def Contiguous (stream : List CdcRecord) : Prop :=
  stream.map (fun r => r.seq.toNat) = List.range' 1 stream.length

/-- The watermark keeps its promise: for every change it covers, the entry of the change's grain
id is the effect of that change or a later one of the grain id.  (For the newest covered change
of the grain id this is the promise for any `w` up to the watermark, as `w` varies.)  Only the value
of the entry counts: it may agree with the effect of a change that is not dispatched yet. -/
def BoundedStaleness (p : Pool V) : Prop :=
  ∀ j ∈ stream, j.seq.toNat ≤ p.watermark →
    ∃ k ∈ stream, k.sid = j.sid ∧ j.seq ≤ k.seq ∧ p.index[j.sid]? = effect embed k

/-- The worker a change is handed to: the changes go around in the order of their timestamps. -/
def workerOf (r : CdcRecord) : ℕ := (r.seq.toNat - 1) % workers

/-- The change `m` can be overtaken by the later change `j` of its grain id: they go to different
workers, and the worker of `m` gets no other change of the grain id before `j` is dispatched. -/
structure Overtakes (j m : CdcRecord) : Prop where
  sid : m.sid = j.sid
  lt : m.seq < j.seq
  worker : workerOf workers m ≠ workerOf workers j
  last : ∀ r ∈ stream, r.sid = m.sid → workerOf workers r = workerOf workers m →
    m.seq < r.seq → j.seq < r.seq

instance (j m : CdcRecord) : Decidable (Overtakes workers stream j m) :=
  decidable_of_iff
    (m.sid = j.sid ∧ m.seq < j.seq ∧ workerOf workers m ≠ workerOf workers j ∧
      ∀ r ∈ stream, r.sid = m.sid → workerOf workers r = workerOf workers m →
        m.seq < r.seq → j.seq < r.seq)
    ⟨fun ⟨h₁, h₂, h₃, h₄⟩ => ⟨h₁, h₂, h₃, h₄⟩, fun h => ⟨h.sid, h.lt, h.worker, h.last⟩⟩

/-- A change that can be overtaken leaves an entry that a change not older than the overtaking
one leaves too. -/
def OrderInsensitive : Prop :=
  ∀ m ∈ stream, ∀ j ∈ stream, Overtakes workers stream j m →
    ∃ k ∈ stream, k.sid = j.sid ∧ j.seq ≤ k.seq ∧ effect embed k = effect embed m

instance [DecidableEq V] : Decidable (OrderInsensitive embed workers stream) :=
  inferInstanceAs (Decidable (∀ m ∈ stream, ∀ j ∈ stream, Overtakes workers stream j m →
    ∃ k ∈ stream, k.sid = j.sid ∧ j.seq ≤ k.seq ∧ effect embed k = effect embed m))

/-! ## The steps -/

/-- The steps of the pool, one constructor for each kind of step. -/
inductive Step : Pool V → PoolEvent → Pool V → Prop
  | send {p : Pool V} {r : CdcRecord} : stream[p.sent]? = some r →
    Step p .send { p with
      sent := p.sent + 1
      queues := Function.update p.queues (p.sent % workers)
        (p.queues (p.sent % workers) ++ [r]) }
  | apply {p : Pool V} {w : ℕ} {r : CdcRecord} {rest : List CdcRecord} :
    p.busy w = none → p.queues w = r :: rest →
      Step p (.apply w) { p with
        queues := Function.update p.queues w rest
        busy := Function.update p.busy w (some r)
        index := applyChange embed p.index r }
  | complete {p : Pool V} {w : ℕ} {r : CdcRecord} : p.busy w = some r →
    Step p (.complete w) { p with
      busy := Function.update p.busy w none
      comp := p.comp.complete r.seq.toNat
      watermark := (p.comp.complete r.seq.toNat).watermark }

variable {embed workers stream} in
/-- Every step is one of these kinds. -/
theorem step_of_next {p p' : Pool V} {e : PoolEvent}
    (h : next embed workers stream p e = some p') : Step embed workers stream p e p' := by
  unfold next at h
  split at h
  · split at h
    · simp at h
    · obtain rfl := Option.some.inj h
      exact Step.send ‹_›
  · split at h
    · obtain rfl := Option.some.inj h
      exact Step.apply ‹_› ‹_›
    · simp at h
  · split at h
    · simp at h
    · obtain rfl := Option.some.inj h
      exact Step.complete ‹_›

section Update

variable {queues : ℕ → List CdcRecord} {busy : ℕ → Option CdcRecord} {w w' : ℕ} {r r' : CdcRecord}

/-- What is queued when one more change is. -/
lemma mem_enqueue : r' ∈ Function.update queues w (queues w ++ [r]) w' ↔
    r' ∈ queues w' ∨ w' = w ∧ r' = r := by
  by_cases hw : w' = w
  · subst hw
    simp
  · simp [hw]

/-- What was queued when the first change of a queue is taken. -/
lemma mem_dequeue {rest : List CdcRecord} (hqueue : queues w = r :: rest) :
    r' ∈ queues w' ↔ w' = w ∧ r' = r ∨ r' ∈ Function.update queues w rest w' := by
  by_cases hw : w' = w
  · subst hw
    simp [hqueue]
  · simp [hw]

/-- What a worker is busy with when one of them turns to something else. -/
lemma update_busy_eq_some {now : Option CdcRecord} : Function.update busy w now w' = some r' ↔
    w' = w ∧ now = some r' ∨ w' ≠ w ∧ busy w' = some r' := by
  by_cases hw : w' = w
  · subst hw
    simp
  · simp [hw]

end Update

/-! ## Contiguous streams -/

section Stream

variable {embed workers stream} {r r' : CdcRecord}

/-- The `i`-th change of a contiguous stream has the timestamp `i + 1`. -/
lemma Contiguous.seq_getElem (h : Contiguous stream) {i : ℕ} (hr : stream[i]? = some r) :
    r.seq.toNat = i + 1 := by
  have hget := congrArg (fun l => l[i]?) h
  obtain ⟨hi, -⟩ := List.getElem?_eq_some_iff.mp hr
  simp only [List.getElem?_map, hr, Option.map_some, List.getElem?_range' hi] at hget
  have := Option.some.inj hget
  omega

/-- The changes of a contiguous stream are in the order of their timestamps. -/
lemma Contiguous.pairwise (h : Contiguous stream) : stream.Pairwise fun a b => a.seq < b.seq := by
  have hsorted : (stream.map fun r => r.seq.toNat).Pairwise (· < ·) := by
    rw [h]
    exact List.pairwise_lt_range'
  exact (List.pairwise_map.mp hsorted).imp fun hlt => BitVec.lt_def.mpr hlt

/-- Two changes of a contiguous stream with one timestamp are one change. -/
lemma Contiguous.eq_of_seq (h : Contiguous stream) (hr : r ∈ stream) (hr' : r' ∈ stream)
    (hseq : r.seq = r'.seq) : r = r' := by
  have hnodup : (stream.map CdcRecord.seq).Nodup :=
    List.pairwise_map.mpr (h.pairwise.imp fun hlt => hlt.ne)
  exact List.inj_on_of_nodup_map hnodup hr hr' hseq

lemma Contiguous.pos (h : Contiguous stream) (hr : r ∈ stream) : 1 ≤ r.seq.toNat := by
  obtain ⟨i, hi⟩ := List.mem_iff_getElem?.mp hr
  rw [h.seq_getElem hi]
  exact Nat.le_add_left _ _

/-- Every timestamp up to that of a change is the timestamp of a change. -/
lemma Contiguous.exists_seq (h : Contiguous stream) (hr : r ∈ stream) {q : ℕ} (h₁ : 1 ≤ q)
    (h₂ : q ≤ r.seq.toNat) : ∃ r' ∈ stream, r'.seq.toNat = q := by
  have hmem : r.seq.toNat ∈ stream.map fun r => r.seq.toNat := List.mem_map_of_mem hr
  have hq : q ∈ stream.map fun r => r.seq.toNat := by
    rw [h, List.mem_range'_1] at hmem ⊢
    omega
  obtain ⟨r', hr', hseq⟩ := List.mem_map.mp hq
  exact ⟨r', hr', hseq⟩

end Stream

/-! ## The invariant -/

/-- What holds in every state of the pool, with `order` the changes applied so far in the order
they were applied: each worker has applied and still has queued what it was handed, in order; the
index is what the applied changes leave; and only applied changes are completed. -/
structure PoolInv (p : Pool V) (order : List CdcRecord) : Prop where
  fifo : ∀ w, order.filter (fun r => workerOf workers r = w) ++ p.queues w =
    (stream.take p.sent).filter fun r => workerOf workers r = w
  index : p.index = applyAll embed order
  busy : ∀ w r, p.busy w = some r → r ∈ order
  completed : ∀ r ∈ stream, p.comp.Has r.seq.toNat → r ∈ order
  advanced : p.comp.Advanced
  watermark : p.watermark = p.comp.watermark

variable {embed workers stream} {p p' : Pool V} {order : List CdcRecord}

lemma poolInv_new : PoolInv embed workers stream (new : Pool V) [] where
  fifo := fun w => by simp [new]
  index := rfl
  busy := fun w r h => by simp [new] at h
  completed := fun r _ h => absurd h (Completion.has_new _)
  advanced := Completion.advanced_new
  watermark := rfl

/-- Only changes of the stream are applied. -/
lemma PoolInv.mem_stream (h : PoolInv embed workers stream p order) {r : CdcRecord}
    (hr : r ∈ order) : r ∈ stream := by
  have hmem : r ∈ (stream.take p.sent).filter fun r' => workerOf workers r' = workerOf workers r := by
    rw [← h.fifo (workerOf workers r)]
    exact List.mem_append_left _ (List.mem_filter.mpr ⟨hr, by simp⟩)
  exact List.mem_of_mem_take (List.mem_filter.mp hmem).1

/-- A step keeps the invariant. -/
lemma PoolInv.step (h : PoolInv embed workers stream p order) (hstream : Contiguous stream)
    {e : PoolEvent} (hstep : next embed workers stream p e = some p') :
    ∃ order', PoolInv embed workers stream p' order' := by
  cases step_of_next hstep with
  | @send r hr =>
    refine ⟨order, ?_, h.index, h.busy, h.completed, h.advanced, h.watermark⟩
    intro w
    have hworker : workerOf workers r = p.sent % workers := by
      rw [workerOf, hstream.seq_getElem hr, Nat.add_sub_cancel]
    rw [List.take_add_one, hr, Option.toList_some, List.filter_append, ← h.fifo w]
    by_cases hw : p.sent % workers = w
    · subst hw
      simp [hworker]
    · simp [hworker, hw, Function.update_of_ne (Ne.symm hw)]
  | @apply w r rest hbusy hqueue =>
    have hr : workerOf workers r = w := by
      have hmem : r ∈ (stream.take p.sent).filter fun r => workerOf workers r = w := by
        rw [← h.fifo w, hqueue]
        exact List.mem_append_right _ List.mem_cons_self
      simpa using (List.mem_filter.mp hmem).2
    refine ⟨order ++ [r], ?_, ?_, ?_, ?_, h.advanced, h.watermark⟩
    · intro w'
      rw [← h.fifo w', List.filter_append]
      by_cases hw : w = w'
      · subst hw
        simp [hr, hqueue]
      · simp [hr, hw, Function.update_of_ne (Ne.symm hw)]
    · simp [h.index, applyAll]
    · intro w' r' hr'
      rcases update_busy_eq_some.mp hr' with ⟨-, hnow⟩ | ⟨-, hold⟩
      · exact Option.some.inj hnow ▸ List.mem_append_right _ List.mem_cons_self
      · exact List.mem_append_left _ (h.busy w' r' hold)
    · exact fun r' hr' hhas => List.mem_append_left _ (h.completed r' hr' hhas)
  | @complete w r hbusy =>
    refine ⟨order, h.fifo, h.index, ?_, ?_,
      h.advanced.complete _, rfl⟩
    · intro w' r' hr'
      rcases update_busy_eq_some.mp hr' with ⟨-, hnow⟩ | ⟨-, hold⟩
      · cases hnow
      · exact h.busy w' r' hold
    · intro r' hr' hhas
      rcases (Completion.has_complete h.advanced.pos _ _).mp hhas with hhas | hseq
      · exact h.completed r' hr' hhas
      · have hr := h.busy w r hbusy
        rwa [hstream.eq_of_seq hr' (h.mem_stream hr) (BitVec.eq_of_toNat_eq hseq)]

lemma exists_poolInv (hstream : Contiguous stream)
    (h : Reaches (next embed workers stream) new p) :
    ∃ order, PoolInv embed workers stream p order := by
  obtain ⟨hist, hrun⟩ := h
  refine hrun.invariant (I := fun p => ∃ order, PoolInv embed workers stream p order)
    ⟨[], poolInv_new⟩ ?_
  rintro y e z ⟨order, hinv⟩ hstep
  exact hinv.step hstream hstep

/-- Each worker applies its changes in the order of their timestamps. -/
lemma PoolInv.pairwise (h : PoolInv embed workers stream p order) (hstream : Contiguous stream)
    (w : ℕ) : (order.filter fun r => workerOf workers r = w).Pairwise fun a b => a.seq < b.seq := by
  have hqueue := (hstream.pairwise.sublist (List.take_sublist p.sent stream)).filter
    fun r => workerOf workers r = w
  rw [← h.fifo w] at hqueue
  exact (List.pairwise_append.mp hqueue).1

/-- Of two changes on one worker, the one applied first is the older one. -/
lemma PoolInv.lt_of_append (h : PoolInv embed workers stream p order)
    (hstream : Contiguous stream) {l l' : List CdcRecord} {r r' : CdcRecord}
    (horder : order = l ++ r' :: l') (hr : r ∈ l)
    (hworker : workerOf workers r = workerOf workers r') : r.seq < r'.seq := by
  have hpair := h.pairwise hstream (workerOf workers r')
  rw [horder, List.filter_append, List.filter_cons_of_pos (by simp)] at hpair
  refine (List.pairwise_append.mp hpair).2.2 r (List.mem_filter.mpr ⟨hr, ?_⟩) r'
    List.mem_cons_self
  simpa using hworker

/-- The last change of a grain id that was applied. -/
lemma exists_last (embed : Bytes → Option V) {order : List CdcRecord} {j : CdcRecord}
    (hj : j ∈ order) :
    ∃ l m l', order = l ++ m :: l' ∧ m.sid = j.sid ∧ (∀ r ∈ l', r.sid ≠ j.sid) ∧
      (applyAll embed order)[j.sid]? = effect embed m := by
  induction order using List.reverseRecOn with
  | nil => simp at hj
  | append_singleton order r ih =>
    have hfold : applyAll embed (order ++ [r]) = applyChange embed (applyAll embed order) r := by
      simp [applyAll]
    rw [hfold, getElem?_applyChange]
    by_cases hsid : r.sid = j.sid
    · exact ⟨order, r, [], rfl, hsid, by simp, if_pos hsid⟩
    · have hj' : j ∈ order := by
        rcases List.mem_append.mp hj with hj | hj
        · exact hj
        · exact absurd (congrArg CdcRecord.sid (List.mem_singleton.mp hj)).symm hsid
      obtain ⟨l, m, l', horder, hm, hlast, hindex⟩ := ih hj'
      refine ⟨l, m, l' ++ [r], by simp [horder], hm, ?_, by rw [if_neg hsid, hindex]⟩
      intro r' hr'
      rcases List.mem_append.mp hr' with hr' | hr'
      · exact hlast r' hr'
      · rwa [List.mem_singleton.mp hr']

/-- When all changes of a grain id up to `j` are applied, its entry is the effect of a change
not older than `j`, unless a change that can be overtaken leaves something else. -/
lemma PoolInv.exists_effect (h : PoolInv embed workers stream p order)
    (hstream : Contiguous stream) (hcond : OrderInsensitive embed workers stream)
    {j : CdcRecord} (hj : j ∈ stream)
    (happlied : ∀ r ∈ stream, r.sid = j.sid → r.seq ≤ j.seq → r ∈ order) :
    ∃ k ∈ stream, k.sid = j.sid ∧ j.seq ≤ k.seq ∧ p.index[j.sid]? = effect embed k := by
  have hj' : j ∈ order := happlied j hj rfl le_rfl
  obtain ⟨l, m, l', horder, hsid, hlast, hindex⟩ := exists_last embed hj'
  have hm : m ∈ stream := h.mem_stream (horder ▸ List.mem_append_right _ List.mem_cons_self)
  rw [h.index, hindex]
  by_cases hle : j.seq ≤ m.seq
  · exact ⟨m, hm, hsid, hle, rfl⟩
  · -- the newer change `j` was applied before `m`, so it overtook it
    have hlt : m.seq < j.seq := not_le.mp hle
    have hbefore : ∀ r ∈ order, r.sid = j.sid → r ≠ m → r ∈ l := by
      intro r hr hrsid hne
      rw [horder] at hr
      rcases List.mem_append.mp hr with hr | hr
      · exact hr
      · rcases List.mem_cons.mp hr with rfl | hr
        · exact absurd rfl hne
        · exact absurd hrsid (hlast r hr)
    have hover : Overtakes workers stream j m := by
      refine ⟨hsid, hlt, ?_, ?_⟩
      · intro hworker
        have hjl := hbefore j hj' rfl (fun heq => lt_irrefl _ (heq ▸ hlt))
        exact absurd (h.lt_of_append hstream horder hjl hworker.symm) (not_lt.mpr hlt.le)
      · intro r hr hrsid hworker hmr
        by_contra hnot
        have hr' := happlied r hr (hrsid.trans hsid) (not_lt.mp hnot)
        have hrl := hbefore r hr' (hrsid.trans hsid) (fun heq => lt_irrefl _ (heq ▸ hmr))
        exact absurd (h.lt_of_append hstream horder hrl hworker) (not_lt.mpr hmr.le)
    obtain ⟨k, hk, hksid, hjk, heffect⟩ := hcond m hm j hj hover
    exact ⟨k, hk, hksid, hjk, heffect.symm⟩

/-- What the watermark covers is applied. -/
lemma PoolInv.mem_of_le_watermark (h : PoolInv embed workers stream p order)
    (hstream : Contiguous stream) {r : CdcRecord} (hr : r ∈ stream)
    (hle : r.seq.toNat ≤ p.watermark) : r ∈ order := by
  rw [h.watermark, Completion.le_watermark_iff h.advanced] at hle
  exact h.completed r hr (hle _ (hstream.pos hr) le_rfl)

/-! ## A schedule for an overtaken change -/

lemma Contiguous.mem_take (h : Contiguous stream) {n : ℕ} {r : CdcRecord} :
    r ∈ stream.take n ↔ r ∈ stream ∧ r.seq.toNat ≤ n := by
  constructor
  · intro hr
    obtain ⟨i, hi⟩ := List.mem_iff_getElem?.mp hr
    rw [List.getElem?_take] at hi
    split at hi
    · rw [h.seq_getElem hi]
      exact ⟨List.mem_of_getElem? hi, by omega⟩
    · simp at hi
  · rintro ⟨hr, hle⟩
    obtain ⟨i, hi⟩ := List.mem_iff_getElem?.mp hr
    rw [h.seq_getElem hi] at hle
    refine List.mem_of_getElem? (i := i) ?_
    rw [List.getElem?_take, if_pos (by omega), hi]

/-- A sorted list is its elements that satisfy a downward closed predicate and then the others. -/
lemma filter_append_filter_not {α : Type*} {R : α → α → Prop} {P : α → Bool} {l : List α}
    (h : l.Pairwise R) (hdown : ∀ a b, R a b → P b → P a) :
    l.filter P ++ l.filter (fun a => !P a) = l := by
  induction l with
  | nil => rfl
  | cons a l ih =>
    obtain ⟨ha, hl⟩ := List.pairwise_cons.mp h
    by_cases hP : P a
    · simp [hP, ih hl]
    · have hnone : l.filter P = [] := by
        rw [List.filter_eq_nil_iff]
        exact fun b hb hb' => hP (hdown a b (ha b hb) hb')
      have hall : l.filter (fun a => !P a) = l := by
        have := ih hl
        rwa [hnone, List.nil_append] at this
      simp [hP, hnone, hall]

/-- Some first changes are dispatched before any worker does anything. -/
lemma reaches_sent (hstream : Contiguous stream) (n : ℕ) (hn : n ≤ stream.length) :
    Reaches (next embed workers stream) new
      { (new : Pool V) with
        sent := n
        queues := fun w => (stream.take n).filter fun r => workerOf workers r = w } := by
  induction n with
  | zero =>
    have hqueues : (new : Pool V) = { (new : Pool V) with
        sent := 0
        queues := fun w => (stream.take 0).filter fun r => workerOf workers r = w } := by
      simp [new]
    rw [← hqueues]
    exact Reaches.refl _
  | succ n ih =>
    refine (ih (Nat.le_of_succ_le hn)).trans (Reaches.head (e := .send) ?_ (Reaches.refl _))
    obtain ⟨r, hr⟩ : ∃ r, stream[n]? = some r := ⟨_, List.getElem?_eq_getElem hn⟩
    have hworker : workerOf workers r = n % workers := by
      rw [workerOf, hstream.seq_getElem hr, Nat.add_sub_cancel]
    rw [next]
    simp only [hr, Option.some.injEq, Pool.mk.injEq, true_and, and_true]
    funext w
    rw [List.take_add_one, hr, Option.toList_some, List.filter_append]
    by_cases hw : n % workers = w
    · subst hw
      simp [hworker]
    · simp [hworker, hw, Function.update_of_ne (Ne.symm hw)]

/-- The queued changes can be applied and completed in any order that keeps the order of each
queue. -/
lemma reaches_schedule (embed : Bytes → Option V) (stream ord : List CdcRecord) (p : Pool V)
    (hbusy : ∀ w, p.busy w = none)
    (hadv : p.comp.Advanced) (hwater : p.watermark = p.comp.watermark)
    (hord : ∀ w, ord.filter (fun r => workerOf workers r = w) = p.queues w) :
    ∃ p', Reaches (next embed workers stream) p p' ∧
      p'.index = ord.foldl (applyChange embed) p.index ∧ p'.comp.Advanced ∧
      p'.watermark = p'.comp.watermark ∧ ∀ r ∈ ord, p'.comp.Has r.seq.toNat := by
  -- `Has` only grows, so it is carried along as an implication
  suffices hgrow : ∃ p', Reaches (next embed workers stream) p p' ∧
      p'.index = ord.foldl (applyChange embed) p.index ∧ p'.comp.Advanced ∧
      p'.watermark = p'.comp.watermark ∧
      ∀ q, (p.comp.Has q ∨ ∃ r ∈ ord, r.seq.toNat = q) → p'.comp.Has q by
    obtain ⟨p', h₁, h₂, h₃, h₄, h₅⟩ := hgrow
    exact ⟨p', h₁, h₂, h₃, h₄, fun r hr => h₅ _ (Or.inr ⟨r, hr, rfl⟩)⟩
  induction ord generalizing p with
  | nil => exact ⟨p, Reaches.refl p, rfl, hadv, hwater, by simp⟩
  | cons r ord ih =>
    have hqueue : p.queues (workerOf workers r) =
        r :: ord.filter fun r' => workerOf workers r' = workerOf workers r := by
      rw [← hord, List.filter_cons_of_pos (by simp)]
    let p₁ : Pool V := { p with
      queues := Function.update p.queues (workerOf workers r)
        (ord.filter fun r' => workerOf workers r' = workerOf workers r)
      busy := Function.update p.busy (workerOf workers r) (some r)
      index := applyChange embed p.index r }
    let p₂ : Pool V := { p₁ with
      busy := Function.update p₁.busy (workerOf workers r) none
      comp := p.comp.complete r.seq.toNat
      watermark := (p.comp.complete r.seq.toNat).watermark }
    have happly : next embed workers stream p (.apply (workerOf workers r)) = some p₁ := by
      simp [next, hbusy, hqueue, p₁]
    have hcomplete : next embed workers stream p₁ (.complete (workerOf workers r)) = some p₂ := by
      simp [next, p₁, p₂]
    obtain ⟨p', hreach, hindex, hadv', hwater', hhas⟩ := ih p₂ (fun w => by
        by_cases hw : w = workerOf workers r
        · simp [p₂, hw]
        · simp [p₂, p₁, Function.update_of_ne hw, hbusy])
      (hadv.complete _) rfl (fun w => by
        by_cases hw : w = workerOf workers r
        · simp [p₂, p₁, hw]
        · have := hord w
          rw [List.filter_cons_of_neg (by simpa using Ne.symm hw)] at this
          simp [p₂, p₁, Function.update_of_ne hw, this])
    refine ⟨p', Reaches.head happly (Reaches.head hcomplete hreach), hindex, hadv', hwater', ?_⟩
    intro q hq
    refine hhas q ?_
    rw [show p₂.comp = p.comp.complete r.seq.toNat from rfl, Completion.has_complete hadv.pos]
    rcases hq with hq | ⟨r', hr', rfl⟩
    · exact Or.inl (Or.inl hq)
    · rcases List.mem_cons.mp hr' with rfl | hr'
      · exact Or.inl (Or.inr rfl)
      · exact Or.inr ⟨r', hr', rfl⟩

/-- The changes up to `j`, with those of the overtaken change's worker from it on moved to the
end. -/
def overtaking (workers : ℕ) (stream : List CdcRecord) (j m : CdcRecord) : List CdcRecord :=
  let upTo := stream.take j.seq.toNat
  let late := fun r => decide (workerOf workers r = workerOf workers m ∧ m.seq ≤ r.seq)
  upTo.filter (fun r => !late r) ++ upTo.filter late

/-- That order keeps the order of each queue. -/
lemma filter_overtaking (hstream : Contiguous stream) (j m : CdcRecord) (w : ℕ) :
    (overtaking workers stream j m).filter (fun r => workerOf workers r = w) =
      (stream.take j.seq.toNat).filter fun r => workerOf workers r = w := by
  have hsorted := (hstream.pairwise.sublist (List.take_sublist j.seq.toNat stream)).filter
    fun r => workerOf workers r = w
  have hsplit := filter_append_filter_not (P := fun r => decide (r.seq < m.seq)) hsorted
    (fun a b hab hb => decide_eq_true (hab.trans (of_decide_eq_true hb)))
  have hle : ∀ r : CdcRecord, decide (m.seq ≤ r.seq) = !decide (r.seq < m.seq) := by
    intro r
    rw [← decide_not]
    exact decide_eq_decide.mpr not_lt.symm
  rw [overtaking, List.filter_append, List.filter_filter, List.filter_filter]
  by_cases hw : w = workerOf workers m
  · rw [← hsplit, List.filter_filter, List.filter_filter]
    subst hw
    congr 1
    · refine List.filter_congr ?_
      intro r _
      by_cases hr : workerOf workers r = workerOf workers m
      · simp [hr, hle r]
      · simp [hr]
    · refine List.filter_congr ?_
      intro r _
      by_cases hr : workerOf workers r = workerOf workers m
      · simp [hr, hle r]
      · simp [hr]
  · have hnone : (stream.take j.seq.toNat).filter (fun r => decide (workerOf workers r = w) &&
        decide (workerOf workers r = workerOf workers m ∧ m.seq ≤ r.seq)) = [] := by
      rw [List.filter_eq_nil_iff]
      intro r _ hr
      simp only [Bool.and_eq_true, decide_eq_true_eq] at hr
      exact hw (hr.1.symm.trans hr.2.1)
    rw [hnone, List.append_nil]
    refine List.filter_congr ?_
    intro r _
    by_cases hr : workerOf workers r = w
    · have hne : workerOf workers r ≠ workerOf workers m := fun heq => hw (hr.symm.trans heq)
      simp [hne]
    · simp [hr]

lemma mem_overtaking (hstream : Contiguous stream) {j m r : CdcRecord} :
    r ∈ overtaking workers stream j m ↔ r ∈ stream ∧ r.seq.toNat ≤ j.seq.toNat := by
  rw [← hstream.mem_take, overtaking, List.mem_append, List.mem_filter, List.mem_filter]
  by_cases h : workerOf workers r = workerOf workers m ∧ m.seq ≤ r.seq
  · simp [h]
  · simp [h]

/-- In that order the overtaken change is the last one of its grain id. -/
lemma getElem?_overtaking (hstream : Contiguous stream) {j m : CdcRecord} (hm : m ∈ stream)
    (h : Overtakes workers stream j m) :
    (applyAll embed (overtaking workers stream j m))[j.sid]? = effect embed m := by
  rw [getElem?_applyAll, overtaking, List.filter_append]
  set late := ((stream.take j.seq.toNat).filter fun r =>
    decide (workerOf workers r = workerOf workers m ∧ m.seq ≤ r.seq)).filter
      fun r => decide (r.sid = j.sid) with hlate
  have hmem : m ∈ late := by
    rw [hlate, List.mem_filter, List.mem_filter, hstream.mem_take]
    exact ⟨⟨⟨hm, (BitVec.lt_def.mp h.lt).le⟩, by simp⟩, by simp [h.sid]⟩
  have hall : ∀ r ∈ late, r = m := by
    intro r hr
    rw [hlate, List.mem_filter, List.mem_filter, hstream.mem_take] at hr
    obtain ⟨⟨⟨hr, hle⟩, hworker⟩, hsid⟩ := hr
    obtain ⟨hworker, hmr⟩ := of_decide_eq_true hworker
    have hsid : r.sid = m.sid := (of_decide_eq_true hsid).trans h.sid.symm
    rcases hmr.lt_or_eq with hlt | heq
    · exact absurd (BitVec.lt_def.mp (h.last r hr hsid hworker hlt)) (not_lt.mpr hle)
    · exact hstream.eq_of_seq hr hm heq.symm
  have hlast : late.getLast? = some m := by
    rw [List.getLast?_eq_some_getLast (List.ne_nil_of_mem hmem),
      hall _ (List.getLast_mem (List.ne_nil_of_mem hmem))]
  rw [List.getLast?_append, hlast]
  rfl

/-! ## The exact condition -/

/-- A change that can be overtaken is overtaken in some run: the watermark covers the later
change, and the entry is the effect of the earlier one. -/
lemma exists_overtaken (embed : Bytes → Option V) (hstream : Contiguous stream) {j m : CdcRecord}
    (hj : j ∈ stream) (hm : m ∈ stream) (h : Overtakes workers stream j m) :
    ∃ p : Pool V, Reaches (next embed workers stream) new p ∧ j.seq.toNat ≤ p.watermark ∧
      p.index[j.sid]? = effect embed m := by
  have hlen : j.seq.toNat ≤ stream.length := by
    obtain ⟨i, hi⟩ := List.mem_iff_getElem?.mp hj
    rw [hstream.seq_getElem hi]
    exact (List.getElem?_eq_some_iff.mp hi).1
  obtain ⟨p, hreach, hindex, hadv, hwater, hhas⟩ := reaches_schedule embed stream
    (overtaking workers stream j m)
    { (new : Pool V) with
      sent := j.seq.toNat
      queues := fun w => (stream.take j.seq.toNat).filter fun r => workerOf workers r = w }
    (fun w => rfl) Completion.advanced_new rfl (filter_overtaking hstream j m)
  refine ⟨p, (reaches_sent hstream _ hlen).trans hreach, ?_, ?_⟩
  · rw [hwater, Completion.le_watermark_iff hadv]
    intro q h₁ h₂
    obtain ⟨r, hr, rfl⟩ := hstream.exists_seq hj h₁ h₂
    exact hhas r ((mem_overtaking hstream).mpr ⟨hr, h₂⟩)
  · rw [hindex]
    exact getElem?_overtaking hstream hm h

/-- For every contiguous stream and number of workers: the watermark keeps its promise in every
state that any interleaving reaches exactly when no change that can be overtaken leaves a wrong
entry; and then, once all changes are applied, the index is the one that applying them in order
leaves. -/
theorem boundedStaleness_iff (embed : Bytes → Option V) (workers : ℕ) (stream : List CdcRecord)
    (hstream : Contiguous stream) :
    ((∀ p, Reachable embed workers stream p → BoundedStaleness embed stream p) ↔
      OrderInsensitive embed (max workers 1) stream) ∧
    (OrderInsensitive embed (max workers 1) stream → ∀ p, Reachable embed workers stream p →
      p.sent = stream.length → (∀ w, p.queues w = []) → p.index = applyAll embed stream) := by
  refine ⟨⟨fun hall m hm j hj hover => ?_, fun hcond p hp j hj hle => ?_⟩,
    fun hcond p hp hsent hqueues => ?_⟩
  · obtain ⟨p, hreach, hle, hindex⟩ := exists_overtaken embed hstream hj hm hover
    obtain ⟨k, hk, hsid, hjk, heffect⟩ := hall p hreach j hj hle
    exact ⟨k, hk, hsid, hjk, heffect.symm.trans hindex⟩
  · obtain ⟨order, hinv⟩ := exists_poolInv hstream hp
    refine hinv.exists_effect hstream hcond hj ?_
    intro r hr _ hrj
    exact hinv.mem_of_le_watermark hstream hr ((BitVec.le_def.mp hrj).trans hle)
  · obtain ⟨order, hinv⟩ := exists_poolInv hstream hp
    have happlied : ∀ r ∈ stream, r ∈ order := by
      intro r hr
      have hfifo := hinv.fifo (workerOf (max workers 1) r)
      rw [hqueues, List.append_nil, hsent, List.take_length] at hfifo
      have hmem : r ∈ stream.filter
          fun r' => workerOf (max workers 1) r' = workerOf (max workers 1) r :=
        List.mem_filter.mpr ⟨hr, by simp⟩
      rw [← hfifo] at hmem
      exact (List.mem_filter.mp hmem).1
    refine Std.ExtTreeMap.ext_getElem? ?_
    intro sid
    by_cases hsid : ∃ j ∈ stream, j.sid = sid
    · obtain ⟨j₀, hj₀, rfl⟩ := hsid
      -- the newest change of the grain id decides on both sides
      obtain ⟨l, j, l', hsplit, hjsid, hlast, hindex⟩ := exists_last embed hj₀
      have hj : j ∈ stream := hsplit ▸ List.mem_append_right _ List.mem_cons_self
      obtain ⟨k, hk, hksid, hjk, heffect⟩ :=
        hinv.exists_effect hstream hcond hj fun r hr _ _ => happlied r hr
      have hkj : k = j := by
        have hpair := hstream.pairwise
        rw [hsplit] at hk hpair
        rcases List.mem_append.mp hk with hk | hk
        · have hlt := (List.pairwise_append.mp hpair).2.2 k hk j List.mem_cons_self
          exact absurd hjk (not_le.mpr hlt)
        · rcases List.mem_cons.mp hk with rfl | hk
          · rfl
          · exact absurd (hksid.trans hjsid) (hlast k hk)
      rw [hindex, ← hjsid, heffect, hkj]
    · have hnone : ∀ l : List CdcRecord, (∀ r ∈ l, r ∈ stream) →
          (applyAll embed l)[sid]? = none := by
        intro l hl
        have hempty : l.filter (fun r => r.sid = sid) = [] := by
          rw [List.filter_eq_nil_iff]
          exact fun r hr hr' => hsid ⟨r, hl r hr, of_decide_eq_true hr'⟩
        rw [getElem?_applyAll, hempty]
        rfl
      rw [hinv.index, hnone order fun r hr => hinv.mem_stream hr, hnone stream fun r hr => hr]

/-- Two puts of one grain id and two workers: the second put is applied first, and the first one
stays in the index for good. -/
theorem not_boundedStaleness :
    ¬∀ (embed : Bytes → Option Bytes) (workers : ℕ) (stream : List CdcRecord),
      Contiguous stream → ∀ p, Reachable embed workers stream p →
        BoundedStaleness embed stream p := by
  intro hall
  have hstream : Contiguous [⟨1, 0, 1, 0, [10]⟩, ⟨1, 0, 2, 0, [20]⟩] := by
    unfold Contiguous
    decide
  have hover : Overtakes (max 2 1) [⟨1, 0, 1, 0, [10]⟩, ⟨1, 0, 2, 0, [20]⟩]
      ⟨1, 0, 2, 0, [20]⟩ ⟨1, 0, 1, 0, [10]⟩ := by
    refine ⟨rfl, by decide, by decide, ?_⟩
    decide
  obtain ⟨p, hreach, hle, hindex⟩ := exists_overtaken some hstream (by simp) (by simp)
    hover
  obtain ⟨k, hk, -, hjk, heffect⟩ := hall some 2 _ hstream p hreach _ (by simp) hle
  rw [hindex] at heffect
  rcases List.mem_cons.mp hk with rfl | hk
  · exact absurd hjk (by decide)
  · obtain rfl := List.mem_singleton.mp hk
    exact absurd heffect (by decide)

/-- Three workers and the changes of one grain id three apart: they meet on one worker. -/
theorem boundedStaleness_iff_apart :
    let stream : List CdcRecord :=
      [⟨1, 0, 1, 0, [10]⟩, ⟨2, 0, 2, 0, [20]⟩, ⟨3, 0, 3, 0, [30]⟩, ⟨1, 0, 4, 1, []⟩]
    OrderInsensitive some 3 stream ∧
      ∀ p, Reachable some 3 stream p → BoundedStaleness some stream p := by
  intro stream
  have hcond : OrderInsensitive some 3 stream := by decide
  have hstream : Contiguous stream := by
    unfold Contiguous
    decide
  exact ⟨hcond, (boundedStaleness_iff some 3 stream hstream).1.mpr hcond⟩

end Pool

end GrainStore
