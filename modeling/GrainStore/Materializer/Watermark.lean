import Mathlib
import GrainStore.Materializer.Pool

/-!
# The watermark of a drained materializer

The engine spawns one of two materializers.  A single thread stores the timestamp of each change
after it has applied it; the worker pool counts the contiguous prefix of the applied timestamps,
from 1.  Neither is told the timestamp the log was recovered at.

`watermark_of_drained` computes the watermark when nothing is left to do: on a stream that goes
on from the timestamp `base` it is the last timestamp of the stream, except that the pool stays
at 0 when `base` is not 0, and that the single thread is at 0 until a first change arrives.
-/

namespace GrainStore

/-- The single-threaded materializer: how many changes it has taken off its channel, the change
it has applied and not recorded yet, the index and the watermark. -/
structure Tailer (V : Type*) where
  taken : ℕ
  busy : Option CdcRecord
  index : VectorMap V
  watermark : ℕ

/-- What the single thread does next. -/
inductive TailerEvent where
  /-- Take the next change and apply it. -/
  | apply
  /-- Advance the watermark: the index reflects the change now. -/
  | store
  deriving DecidableEq, Repr

/-- The materializer of an engine, as it was spawned. -/
inductive VectorMaterializer (V : Type*) where
  | spawned (t : Tailer V)
  | pooled (workers : ℕ) (p : Pool V)

/-- What happens next in a materializer. -/
inductive MaterializerEvent where
  | tail (e : TailerEvent)
  | pool (e : PoolEvent)
  deriving DecidableEq, Repr

section Defs

variable {V : Type*} (embed : Bytes → Option V) (stream : List CdcRecord)

/-- The single thread when it is spawned. -/
def Tailer.new : Tailer V := { taken := 0, busy := none, index := ∅, watermark := 0 }

/-- One step of the single thread on a stream of changes. -/
def Tailer.next (t : Tailer V) : TailerEvent → Option (Tailer V)
  | .apply =>
    match t.busy, stream[t.taken]? with
    | none, some r =>
      some { t with taken := t.taken + 1, busy := some r, index := applyChange embed t.index r }
    | _, _ => none
  | .store =>
    match t.busy with
    | none => none
    | some r => some { t with busy := none, watermark := r.seq.toNat }

namespace VectorMaterializer

/-- The materializer an engine spawns: a pool when more than one worker is configured. -/
def spawn (workers : ℕ) : VectorMaterializer V :=
  if workers > 1 then .pooled workers Pool.new else .spawned Tailer.new

/-- One step of a materializer on a stream of changes. -/
def next : VectorMaterializer V → MaterializerEvent → Option (VectorMaterializer V)
  | .spawned t, .tail e => (t.next embed stream e).map .spawned
  | .pooled workers p, .pool e =>
    (p.next embed (max workers 1) stream e).map (.pooled workers)
  | _, _ => none

/-- Highest commit `seq` reflected in the index. -/
def watermark : VectorMaterializer V → ℕ
  | .spawned t => t.watermark
  | .pooled _ p => p.watermark

/-- Whether the barrier of `wait_for` is open for a timestamp. -/
def reflects (mat : VectorMaterializer V) (seq : U64) : Bool := !(mat.watermark < seq.toNat)

/-- All changes of the stream are applied, and no thread has anything left to do. -/
def Drained : VectorMaterializer V → Prop
  | .spawned t => t.taken = stream.length ∧ t.busy = none
  | .pooled _ p => p.sent = stream.length ∧ ∀ w, p.queues w = [] ∧ p.busy w = none

end VectorMaterializer

end Defs

variable {V : Type*} {embed : Bytes → Option V} {stream : List CdcRecord}

/-! ## The single thread -/

/-- The timestamp of the last change of a stream, 0 when there is none. -/
def lastSeq (stream : List CdcRecord) : ℕ := (stream.getLast?.map fun r => r.seq.toNat).getD 0

/-- What holds in every state of the single thread: it has taken the first changes of the stream,
and the watermark is the timestamp of the last of them unless that one is still being applied. -/
structure TailerInv (stream : List CdcRecord) (t : Tailer V) : Prop where
  taken : t.taken ≤ stream.length
  idle : t.busy = none → t.watermark = lastSeq (stream.take t.taken)
  busy : ∀ r, t.busy = some r → (stream.take t.taken).getLast? = some r

lemma tailerInv_new (stream : List CdcRecord) : TailerInv stream (Tailer.new : Tailer V) where
  taken := Nat.zero_le _
  idle := fun _ => rfl
  busy := fun r h => by simp [Tailer.new] at h

/-- A step keeps the invariant of the single thread. -/
lemma TailerInv.step {t t' : Tailer V} {e : TailerEvent} (h : TailerInv stream t)
    (hstep : t.next embed stream e = some t') : TailerInv stream t' := by
  cases e with
  | apply =>
    rw [Tailer.next] at hstep
    split at hstep
    · rename_i r hbusy hr
      obtain rfl := Option.some.inj hstep
      obtain ⟨hlt, -⟩ := List.getElem?_eq_some_iff.mp hr
      refine ⟨hlt, fun hnone => by simp at hnone, ?_⟩
      intro r' hr'
      dsimp only at hr' ⊢
      rw [List.take_add_one, hr, ← hr']
      simp
    · simp at hstep
  | store =>
    rw [Tailer.next] at hstep
    cases hbusy : t.busy with
    | none => simp [hbusy] at hstep
    | some r =>
      rw [hbusy] at hstep
      obtain rfl := Option.some.inj hstep
      refine ⟨h.taken, ?_, fun r' hr' => by simp at hr'⟩
      intro _
      rw [lastSeq, h.busy r hbusy, Option.map_some, Option.getD_some]

/-! ## The worker pool -/

/-- What holds in every state of the pool on any stream: a change that was dispatched is queued,
being applied or completed, and only those changes are. -/
structure Dispatched (stream : List CdcRecord) (p : Pool V) : Prop where
  sent : p.sent ≤ stream.length
  advanced : p.comp.Advanced
  watermark : p.watermark = p.comp.watermark
  queues : ∀ w, ∀ r ∈ p.queues w, r ∈ stream.take p.sent
  busy : ∀ w r, p.busy w = some r → r ∈ stream.take p.sent
  has : ∀ q, p.comp.Has q → ∃ r ∈ stream.take p.sent, r.seq.toNat = q
  covered : ∀ r ∈ stream.take p.sent,
    (∃ w, r ∈ p.queues w) ∨ (∃ w, p.busy w = some r) ∨ p.comp.Has r.seq.toNat

lemma dispatched_new (stream : List CdcRecord) : Dispatched stream (Pool.new : Pool V) where
  sent := Nat.zero_le _
  advanced := Completion.advanced_new
  watermark := rfl
  queues := fun w r h => by simp [Pool.new] at h
  busy := fun w r h => by simp [Pool.new] at h
  has := fun q h => absurd h (Completion.has_new q)
  covered := fun r h => by simp [Pool.new] at h

/-- A step keeps the invariant of the pool. -/
lemma Dispatched.step {p p' : Pool V} {workers : ℕ} {e : PoolEvent} (h : Dispatched stream p)
    (hstep : p.next embed workers stream e = some p') : Dispatched stream p' := by
  cases Pool.step_of_next hstep with
  | @send r hr =>
    obtain ⟨hlt, -⟩ := List.getElem?_eq_some_iff.mp hr
    have htake : stream.take (p.sent + 1) = stream.take p.sent ++ [r] := by
      rw [List.take_add_one, hr, Option.toList_some]
    have hold : ∀ r' ∈ stream.take p.sent, r' ∈ stream.take (p.sent + 1) := by
      intro r' hr'
      rw [htake]
      exact List.mem_append_left _ hr'
    refine ⟨hlt, h.advanced, h.watermark, ?_, ?_, ?_,
      ?_⟩
    · intro w r' hr'
      rcases Pool.mem_enqueue.mp hr' with hr' | ⟨-, rfl⟩
      · exact hold r' (h.queues w r' hr')
      · rw [htake]
        exact List.mem_append_right _ List.mem_cons_self
    · intro w r' hr'
      exact hold r' (h.busy w r' hr')
    · intro q hq
      obtain ⟨r', hr', hseq⟩ := h.has q hq
      exact ⟨r', hold r' hr', hseq⟩
    · intro r' hr'
      dsimp only at hr'
      rw [htake] at hr'
      rcases List.mem_append.mp hr' with hr' | hr'
      · rcases h.covered r' hr' with ⟨w, hw⟩ | hrest
        · exact Or.inl ⟨w, Pool.mem_enqueue.mpr (Or.inl hw)⟩
        · exact Or.inr hrest
      · exact Or.inl ⟨_, Pool.mem_enqueue.mpr (Or.inr ⟨rfl, List.mem_singleton.mp hr'⟩)⟩
  | @apply w r rest hbusy hqueue =>
    refine ⟨h.sent, h.advanced, h.watermark, ?_, ?_, h.has,
      ?_⟩
    · intro w' r' hr'
      exact h.queues w' r' ((Pool.mem_dequeue hqueue).mpr (Or.inr hr'))
    · intro w' r' hr'
      rcases Pool.update_busy_eq_some.mp hr' with ⟨-, hnow⟩ | ⟨-, hold⟩
      · exact Option.some.inj hnow ▸ h.queues w r (hqueue ▸ List.mem_cons_self)
      · exact h.busy w' r' hold
    · intro r' hr'
      rcases h.covered r' hr' with ⟨w', hw'⟩ | ⟨w', hw'⟩ | hhas
      · rcases (Pool.mem_dequeue hqueue).mp hw' with ⟨rfl, rfl⟩ | hrest
        · exact Or.inr (Or.inl ⟨w', Pool.update_busy_eq_some.mpr (Or.inl ⟨rfl, rfl⟩)⟩)
        · exact Or.inl ⟨w', hrest⟩
      · have hw : w' ≠ w := fun hw => by simp [hw, hbusy] at hw'
        exact Or.inr (Or.inl ⟨w', Pool.update_busy_eq_some.mpr (Or.inr ⟨hw, hw'⟩)⟩)
      · exact Or.inr (Or.inr hhas)
  | @complete w r hbusy =>
    have hhas := fun q => Completion.has_complete h.advanced.pos r.seq.toNat q
    refine ⟨h.sent, h.advanced.complete _, rfl, h.queues, ?_, ?_,
      ?_⟩
    · intro w' r' hr'
      rcases Pool.update_busy_eq_some.mp hr' with ⟨-, hnow⟩ | ⟨-, hold⟩
      · cases hnow
      · exact h.busy w' r' hold
    · intro q hq
      rcases (hhas q).mp hq with hq | rfl
      · exact h.has q hq
      · exact ⟨r, h.busy w r hbusy, rfl⟩
    · intro r' hr'
      rcases h.covered r' hr' with hqueue | ⟨w', hw'⟩ | hdone
      · exact Or.inl hqueue
      · by_cases hw : w' = w
        · subst hw
          obtain rfl := Option.some.inj (hbusy.symm.trans hw')
          exact Or.inr (Or.inr ((hhas _).mpr (Or.inr rfl)))
        · exact Or.inr (Or.inl ⟨w', Pool.update_busy_eq_some.mpr (Or.inr ⟨hw, hw'⟩)⟩)
      · exact Or.inr (Or.inr ((hhas _).mpr (Or.inl hdone)))

/-! ## Either materializer -/

namespace VectorMaterializer

/-- What holds in every state of a materializer. -/
def Follows (stream : List CdcRecord) : VectorMaterializer V → Prop
  | .spawned t => TailerInv stream t
  | .pooled _ p => Dispatched stream p

variable {mat mat' : VectorMaterializer V}

lemma follows_spawn (stream : List CdcRecord) (workers : ℕ) :
    (spawn workers : VectorMaterializer V).Follows stream := by
  unfold spawn
  split
  · exact dispatched_new stream
  · exact tailerInv_new stream

lemma Follows.step {e : MaterializerEvent} (h : mat.Follows stream)
    (hstep : mat.next embed stream e = some mat') : mat'.Follows stream := by
  unfold next at hstep
  split at hstep
  · obtain ⟨t', ht', rfl⟩ := Option.map_eq_some_iff.mp hstep
    exact TailerInv.step h ht'
  · obtain ⟨p', hp', rfl⟩ := Option.map_eq_some_iff.mp hstep
    exact Dispatched.step h hp'
  · simp at hstep

/-- More changes in the channel change nothing for what was taken from it. -/
lemma Follows.append (h : mat.Follows stream) (l : List CdcRecord) :
    mat.Follows (stream ++ l) := by
  cases mat with
  | spawned t =>
    have ht : TailerInv stream t := h
    have htake : (stream ++ l).take t.taken = stream.take t.taken :=
      List.take_append_of_le_length ht.taken
    have hlen : stream.length ≤ (stream ++ l).length := by simp
    refine ⟨ht.taken.trans hlen, ?_, ?_⟩
    · rw [htake]
      exact ht.idle
    · rw [htake]
      exact ht.busy
  | pooled workers p =>
    have hp : Dispatched stream p := h
    have htake : (stream ++ l).take p.sent = stream.take p.sent :=
      List.take_append_of_le_length hp.sent
    have hlen : stream.length ≤ (stream ++ l).length := by simp
    refine ⟨hp.sent.trans hlen, hp.advanced, hp.watermark, ?_, ?_, ?_, ?_⟩
    · rw [htake]
      exact hp.queues
    · rw [htake]
      exact hp.busy
    · rw [htake]
      exact hp.has
    · rw [htake]
      exact hp.covered

/-- Whether the materializer is the pool. -/
def isPool : VectorMaterializer V → Bool
  | .spawned _ => false
  | .pooled _ _ => true

lemma isPool_spawn (workers : ℕ) :
    (spawn workers : VectorMaterializer V).isPool = decide (workers > 1) := by
  unfold spawn
  split
  · exact (decide_eq_true ‹_›).symm
  · exact (decide_eq_false ‹_›).symm

/-- A materializer stays the one it was spawned as. -/
lemma isPool_of_next {e : MaterializerEvent} (hstep : mat.next embed stream e = some mat') :
    mat'.isPool = mat.isPool := by
  unfold next at hstep
  split at hstep
  · obtain ⟨t', -, rfl⟩ := Option.map_eq_some_iff.mp hstep
    rfl
  · obtain ⟨p', -, rfl⟩ := Option.map_eq_some_iff.mp hstep
    rfl
  · simp at hstep

/-- A stream whose timestamps go on from `base` without gaps. -/
def NumberedFrom (base : ℕ) (stream : List CdcRecord) : Prop :=
  stream.map (fun r => r.seq.toNat) = List.range' (base + 1) stream.length

/-- A first part of a numbered stream is numbered. -/
lemma NumberedFrom.of_append {base : ℕ} {l : List CdcRecord}
    (h : NumberedFrom base (stream ++ l)) : NumberedFrom base stream := by
  unfold NumberedFrom at h ⊢
  rw [List.map_append, List.length_append, ← List.range'_append_1] at h
  exact (List.append_inj h (by simp)).1

lemma NumberedFrom.concat {base : ℕ} {r : CdcRecord} (h : NumberedFrom base stream)
    (hr : r.seq.toNat = base + stream.length + 1) : NumberedFrom base (stream ++ [r]) := by
  unfold NumberedFrom at h ⊢
  rw [List.map_append, h, List.length_append, List.length_singleton, List.range'_1_concat,
    List.map_singleton, hr]
  congr 2
  omega

lemma NumberedFrom.exists_iff {base : ℕ} (h : NumberedFrom base stream) (q : ℕ) :
    (∃ r ∈ stream, r.seq.toNat = q) ↔ base < q ∧ q ≤ base + stream.length := by
  rw [← List.mem_map, h, List.mem_range'_1]
  omega

lemma NumberedFrom.lastSeq {base : ℕ} (h : NumberedFrom base stream) (hne : stream ≠ []) :
    lastSeq stream = base + stream.length := by
  have hpos := List.length_pos_of_ne_nil hne
  rw [GrainStore.lastSeq, ← List.getLast?_map, h, List.getLast?_range', if_neg hpos.ne',
    Option.getD_some]
  omega

/-- The watermark of a materializer that has nothing left to do, on a stream that goes on from
the timestamp `base`. -/
theorem watermark_of_drained {base : ℕ} (h : mat.Follows stream) (hd : mat.Drained stream)
    (hnum : NumberedFrom base stream) :
    mat.watermark =
      if base = 0 ∨ mat.isPool = false ∧ stream ≠ [] then base + stream.length else 0 := by
  cases mat with
  | spawned t =>
    obtain ⟨htaken, hbusy⟩ := hd
    have hidle := TailerInv.idle h hbusy
    rw [htaken, List.take_length] at hidle
    rw [watermark, hidle]
    by_cases hne : stream = []
    · subst hne
      have hzero : lastSeq [] = 0 := rfl
      rw [hzero]
      split
      · rename_i hbase
        rcases hbase with rfl | ⟨-, hne⟩
        · rfl
        · exact absurd rfl hne
      · rfl
    · rw [hnum.lastSeq hne, if_pos (Or.inr ⟨rfl, hne⟩)]
  | pooled workers p =>
    have hp : Dispatched stream p := h
    obtain ⟨hsent, hidle⟩ := hd
    have hhas : ∀ q, p.comp.Has q ↔ base < q ∧ q ≤ base + stream.length := by
      intro q
      rw [← hnum.exists_iff]
      constructor
      · intro hq
        obtain ⟨r, hr, hseq⟩ := hp.has q hq
        exact ⟨r, List.mem_of_mem_take hr, hseq⟩
      · rintro ⟨r, hr, rfl⟩
        rw [← List.take_length (l := stream), ← hsent] at hr
        rcases hp.covered r hr with ⟨w, hw⟩ | ⟨w, hw⟩ | hdone
        · simp [(hidle w).1] at hw
        · simp [(hidle w).2] at hw
        · exact hdone
    have hle : ∀ seq, seq ≤ p.watermark ↔
        ∀ q, 1 ≤ q → q ≤ seq → base < q ∧ q ≤ base + stream.length := by
      intro seq
      rw [hp.watermark, Completion.le_watermark_iff hp.advanced]
      simp only [hhas]
    refine eq_of_forall_le_iff ?_
    intro seq
    rw [watermark, hle]
    by_cases hbase : base = 0
    · subst hbase
      rw [if_pos (Or.inl rfl)]
      constructor
      · intro hall
        by_contra hlt
        have := hall seq (by omega) le_rfl
        omega
      · intro hseq q h₁ h₂
        omega
    · have hneg : ¬(base = 0 ∨ (pooled workers p).isPool = false ∧ stream ≠ []) := by
        simp [hbase, isPool]
      rw [if_neg hneg]
      constructor
      · -- the timestamp 1 is never applied
        intro hall
        by_contra hlt
        have := hall 1 le_rfl (by omega)
        omega
      · intro hseq q h₁ h₂
        omega

end VectorMaterializer

end GrainStore
