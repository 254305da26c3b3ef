import Mathlib
import GrainStore.Materializer.Watermark

/-!
# Shutting a materializer down

A materializer ends when it is dropped, or when the store that it follows is.  Its thread waits for a
change for a while, and looks only then, when none has come, whether it should stop; the dispatcher
of a pool closes the queues of its workers when it stops, and waits for them.  The store may go on
publishing meanwhile.

`applied_of_ended` says what is not lost: all that was published while the thread was still waiting
at its channel is applied, each change once and each worker's changes in order.  A change that is
published after the thread has given up waiting, and before it looks whether it should stop, is not
seen.  `drop_returns` says that the end is reached: the threads always have a step to take until
they have ended, and how many steps there are is bounded by what is published.
-/

namespace GrainStore

open Trace

/-- What the thread of a materializer is at; for a pool this is the dispatcher. -/
inductive MainThread where
  | receiving
  /-- No change has come for a while. -/
  | timedOut
  /-- It has closed the queues of the workers, and waits for them. -/
  | joining
  | ended
  deriving DecidableEq, Repr

/-- The loop of the thread is over. -/
def MainThread.left : MainThread → Bool
  | .receiving | .timedOut => false
  | .joining | .ended => true

namespace VectorMaterializer

variable {V : Type*}

/-- How many changes are taken off the channel. -/
def taken : VectorMaterializer V → ℕ
  | .spawned t => t.taken
  | .pooled _ p => p.sent

def index : VectorMaterializer V → VectorMap V
  | .spawned t => t.index
  | .pooled _ p => p.index

/-- How many worker threads there are besides the main thread. -/
def workers : VectorMaterializer V → ℕ
  | .spawned _ => 0
  | .pooled workers _ => max workers 1

/-- The main thread has done what it took. -/
def resting : VectorMaterializer V → Bool
  | .spawned t => t.busy.isNone
  | .pooled _ _ => true

/-- The main thread waits at an empty channel. -/
def waiting (mat : VectorMaterializer V) (published : List CdcRecord) : Bool :=
  mat.taken = published.length && mat.resting

/-- A worker has nothing left in its queue. -/
def idle : VectorMaterializer V → ℕ → Bool
  | .spawned _, _ => false
  | .pooled workers p, w => w < max workers 1 && (p.queues w).isEmpty && (p.busy w).isNone

end VectorMaterializer

/-- A step that takes a change off the channel is one of the main thread. -/
def MaterializerEvent.takes : MaterializerEvent → Bool
  | .tail .apply => true
  | .pool .send => true
  | _ => false

/-- A materializer from its spawn to its end. -/
structure Lifetime (V : Type*) where
  mat : VectorMaterializer V
  /-- What the store has published since the subscription. -/
  published : List CdcRecord
  /-- The store has not been dropped. -/
  connected : Bool
  /-- The materializer is being dropped. -/
  stop : Bool
  thread : MainThread
  /-- The workers that have ended. -/
  exited : Finset ℕ

/-- What happens next. -/
inductive LifetimeEvent where
  | publish (r : CdcRecord)
  /-- The store is dropped. -/
  | disconnect
  /-- The materializer is dropped: it is told to stop, and waited for. -/
  | drop
  | work (e : MaterializerEvent)
  /-- The main thread has waited for a change, and none has come. -/
  | timeout
  /-- It looks whether it should stop. -/
  | check
  /-- It finds its channel empty and the store dropped. -/
  | disconnected
  /-- A worker finds its queue closed and empty. -/
  | exit (w : ℕ)
  /-- The dispatcher has waited for all its workers. -/
  | join
  deriving DecidableEq, Repr

/-- The steps of the materializer itself. -/
def LifetimeEvent.own : LifetimeEvent → Bool
  | .publish _ | .disconnect | .drop => false
  | _ => true

def LifetimeEvent.publishes : LifetimeEvent → Bool
  | .publish _ => true
  | _ => false

namespace Lifetime

variable {V : Type*}

/-- The main thread leaves its loop. -/
def leave (x : Lifetime V) : Lifetime V :=
  { x with thread := if x.mat.isPool then .joining else .ended }

variable (embed : Bytes → Option V)

/-- A materializer that is spawned on a subscription. -/
def spawn (workers : ℕ) : Lifetime V :=
  { mat := .spawn workers, published := [], connected := true, stop := false, thread := .receiving,
    exited := ∅ }

/-- One step. -/
def next (x : Lifetime V) : LifetimeEvent → Option (Lifetime V)
  | .publish r =>
    if x.connected then some { x with published := x.published ++ [r] } else none
  | .disconnect => some { x with connected := false }
  | .drop => some { x with stop := true }
  | .work e =>
    if x.thread = .receiving ∨ e.takes = false then
      (x.mat.next embed x.published e).map fun mat => { x with mat }
    else none
  | .timeout =>
    if x.thread = .receiving ∧ x.mat.waiting x.published ∧ x.connected then
      some { x with thread := .timedOut }
    else none
  | .check =>
    if x.thread = .timedOut then
      some (if x.stop then x.leave else { x with thread := .receiving })
    else none
  | .disconnected =>
    if x.thread = .receiving ∧ x.mat.waiting x.published ∧ x.connected = false then some x.leave
    else none
  | .exit w =>
    if x.thread.left ∧ x.mat.idle w ∧ w ∉ x.exited then
      some { x with exited := insert w x.exited }
    else none
  | .join =>
    if x.thread = .joining ∧ ∀ w < x.mat.workers, w ∈ x.exited then some { x with thread := .ended }
    else none

/-- The steps, one constructor for each kind of step. -/
inductive Step : Lifetime V → LifetimeEvent → Lifetime V → Prop
  | publish (x : Lifetime V) (r : CdcRecord) : x.connected = true →
    Step x (.publish r) { x with published := x.published ++ [r] }
  | disconnect (x : Lifetime V) : Step x .disconnect { x with connected := false }
  | drop (x : Lifetime V) : Step x .drop { x with stop := true }
  | work (x : Lifetime V) {e : MaterializerEvent} {mat : VectorMaterializer V} :
    x.thread = .receiving ∨ e.takes = false → x.mat.next embed x.published e = some mat →
      Step x (.work e) { x with mat }
  | timeout (x : Lifetime V) : x.thread = .receiving → x.mat.waiting x.published = true →
    x.connected = true → Step x .timeout { x with thread := .timedOut }
  | check (x : Lifetime V) : x.thread = .timedOut → x.stop = false →
    Step x .check { x with thread := .receiving }
  | stop (x : Lifetime V) : x.thread = .timedOut → x.stop = true → Step x .check x.leave
  | disconnected (x : Lifetime V) : x.thread = .receiving → x.mat.waiting x.published = true →
    x.connected = false → Step x .disconnected x.leave
  | exit (x : Lifetime V) {w : ℕ} : x.thread.left = true → x.mat.idle w = true → w ∉ x.exited →
    Step x (.exit w) { x with exited := insert w x.exited }
  | join (x : Lifetime V) : x.thread = .joining → (∀ w < x.mat.workers, w ∈ x.exited) →
    Step x .join { x with thread := .ended }

variable {embed} {x y : Lifetime V}

/-- Every step is one of these kinds. -/
lemma step_of_next {e : LifetimeEvent} (h : next embed x e = some y) : Step embed x e y := by
  cases e with
  | publish r =>
    simp only [next, Option.ite_none_right_eq_some, Option.some.injEq] at h
    obtain ⟨hconnected, rfl⟩ := h
    exact Step.publish x r hconnected
  | disconnect =>
    obtain rfl := Option.some.inj h
    exact Step.disconnect x
  | drop =>
    obtain rfl := Option.some.inj h
    exact Step.drop x
  | work e =>
    simp only [next, Option.ite_none_right_eq_some] at h
    obtain ⟨hthread, h⟩ := h
    obtain ⟨mat, hmat, rfl⟩ := Option.map_eq_some_iff.mp h
    exact Step.work x hthread hmat
  | timeout =>
    simp only [next, Option.ite_none_right_eq_some, Option.some.injEq] at h
    obtain ⟨⟨hthread, hwaiting, hconnected⟩, rfl⟩ := h
    exact Step.timeout x hthread hwaiting hconnected
  | check =>
    simp only [next, Option.ite_none_right_eq_some, Option.some.injEq] at h
    obtain ⟨hthread, rfl⟩ := h
    by_cases hstop : x.stop = true
    · rw [if_pos hstop]
      exact Step.stop x hthread hstop
    · rw [if_neg hstop]
      exact Step.check x hthread (Bool.not_eq_true _ ▸ hstop)
  | disconnected =>
    simp only [next, Option.ite_none_right_eq_some, Option.some.injEq] at h
    obtain ⟨⟨hthread, hwaiting, hconnected⟩, rfl⟩ := h
    exact Step.disconnected x hthread hwaiting hconnected
  | exit w =>
    simp only [next, Option.ite_none_right_eq_some, Option.some.injEq] at h
    obtain ⟨⟨hthread, hidle, hw⟩, rfl⟩ := h
    exact Step.exit x hthread hidle hw
  | join =>
    simp only [next, Option.ite_none_right_eq_some, Option.some.injEq] at h
    obtain ⟨⟨hthread, hall⟩, rfl⟩ := h
    exact Step.join x hthread hall

end Lifetime

/-! ## The order in which the changes are applied -/

/-- The changes at some positions of a stream. -/
def changesAt (stream : List CdcRecord) (positions : List ℕ) : List CdcRecord :=
  positions.filterMap (stream[·]?)

section Positions

variable {stream : List CdcRecord} {positions : List ℕ}

lemma changesAt_concat {i : ℕ} {r : CdcRecord} (h : stream[i]? = some r) :
    changesAt stream (positions ++ [i]) = changesAt stream positions ++ [r] := by
  rw [changesAt, List.filterMap_append, List.filterMap_cons_some h, List.filterMap_nil, changesAt]

/-- More changes in the stream change nothing at the positions before. -/
lemma changesAt_append (h : ∀ i ∈ positions, i < stream.length) (l : List CdcRecord) :
    changesAt (stream ++ l) positions = changesAt stream positions :=
  List.filterMap_congr fun i hi => List.getElem?_append_left (h i hi)

/-- There is a change at the first of some positions. -/
lemma cons_of_changesAt {r : CdcRecord} {rest : List CdcRecord}
    (hpos : ∀ i ∈ positions, i < stream.length) (h : changesAt stream positions = r :: rest) :
    ∃ i tail, positions = i :: tail ∧ stream[i]? = some r ∧ changesAt stream tail = rest := by
  cases positions with
  | nil => simp [changesAt] at h
  | cons i tail =>
    have hi := List.getElem?_eq_getElem (hpos i List.mem_cons_self)
    rw [changesAt, List.filterMap_cons_some hi, List.cons.injEq] at h
    obtain ⟨hr, hrest⟩ := h
    exact ⟨i, tail, rfl, hr ▸ hi, hrest⟩

lemma eq_nil_of_changesAt (hpos : ∀ i ∈ positions, i < stream.length)
    (h : changesAt stream positions = []) : positions = [] := by
  cases positions with
  | nil => rfl
  | cons i tail =>
    have hi := List.getElem?_eq_getElem (hpos i List.mem_cons_self)
    rw [changesAt, List.filterMap_cons_some hi] at h
    cases h

end Positions

section Order

variable {V : Type*} (embed : Bytes → Option V) (stream : List CdcRecord)

/-- The positions that a worker was handed. -/
def Pool.handed (p : Pool V) (workers w : ℕ) : List ℕ :=
  (List.range p.sent).filter fun i => i % workers = w

/-- What holds in every state of a pool, with `order` the positions of the changes applied so far, in
the order they were applied. -/
structure Pool.InTurn (workers : ℕ) (p : Pool V) (order : List ℕ) : Prop where
  beyond : ∀ w, workers ≤ w → p.queues w = [] ∧ p.busy w = none
  fifo : ∀ w, ∃ waiting, order.filter (fun i => i % workers = w) ++ waiting = p.handed workers w ∧
    p.queues w = changesAt stream waiting
  index : p.index = applyAll embed (changesAt stream order)

/-- The same of either materializer; the single thread applies the changes in their order. -/
def VectorMaterializer.InTurn (mat : VectorMaterializer V) (order : List ℕ) : Prop :=
  match mat with
  | .spawned t => order = List.range t.taken ∧ t.index = applyAll embed (changesAt stream order)
  | .pooled workers p => p.InTurn embed stream (max workers 1) order

variable {embed stream} {workers : ℕ} {p p' : Pool V} {order : List ℕ}

/-- The positions of a worker when there is one more position. -/
lemma filter_mod_concat (positions : List ℕ) (i workers w : ℕ) :
    (positions ++ [i]).filter (fun i => i % workers = w) =
      positions.filter (fun i => i % workers = w) ++ if i % workers = w then [i] else [] := by
  rw [List.filter_append]
  by_cases h : i % workers = w
  · rw [if_pos h, List.filter_cons_of_pos (by simpa using h), List.filter_nil]
  · rw [if_neg h, List.filter_cons_of_neg (by simpa using h), List.filter_nil]

lemma Pool.mem_handed {w i : ℕ} : i ∈ p.handed workers w ↔ i < p.sent ∧ i % workers = w := by
  rw [handed, List.mem_filter, List.mem_range, decide_eq_true_eq]

lemma Pool.InTurn.lt (h : p.InTurn embed stream workers order) {i : ℕ} (hi : i ∈ order) :
    i < p.sent := by
  obtain ⟨waiting, hfifo, -⟩ := h.fifo (i % workers)
  refine (mem_handed.mp (hfifo ▸ List.mem_append_left _ ?_)).1
  exact List.mem_filter.mpr ⟨hi, decide_eq_true rfl⟩

/-- A step keeps the order. -/
lemma Pool.InTurn.step (h : p.InTurn embed stream workers order) (hpos : 0 < workers)
    (hsent : p.sent ≤ stream.length) {e : PoolEvent}
    (hstep : p.next embed workers stream e = some p') :
    ∃ order', p'.InTurn embed stream workers order' := by
  cases step_of_next hstep with
  | @send r hr =>
    refine ⟨order, fun w hw => ⟨?_, (h.beyond w hw).2⟩, fun w => ?_, h.index⟩
    · have hne : w ≠ p.sent % workers := ((Nat.mod_lt _ hpos).trans_le hw).ne'
      dsimp only
      rw [Function.update_of_ne hne]
      exact (h.beyond w hw).1
    · obtain ⟨waiting, hfifo, hqueue⟩ := h.fifo w
      dsimp only [handed]
      rw [List.range_succ, filter_mod_concat, ← handed, ← hfifo]
      by_cases hw : p.sent % workers = w
      · subst hw
        refine ⟨waiting ++ [p.sent], ?_, ?_⟩
        · rw [if_pos rfl, List.append_assoc]
        · rw [Function.update_self, hqueue, changesAt_concat hr]
      · refine ⟨waiting, ?_, ?_⟩
        · rw [if_neg hw, List.append_nil]
        · rw [Function.update_of_ne (Ne.symm hw), hqueue]
  | @apply w r rest hbusy hqueue =>
    obtain ⟨waiting, hfifo, hwaiting⟩ := h.fifo w
    have hmem : ∀ i ∈ waiting, i < p.sent ∧ i % workers = w := fun i hi =>
      mem_handed.mp (hfifo ▸ List.mem_append_right _ hi)
    obtain ⟨i, tail, rfl, hi, htail⟩ := cons_of_changesAt
      (fun i hi => (hmem i hi).1.trans_le hsent) (hwaiting.symm.trans hqueue)
    have hw := (hmem i List.mem_cons_self).2
    have hlt : w < workers := hw ▸ Nat.mod_lt _ hpos
    refine ⟨order ++ [i], ?_, ?_, ?_⟩
    · intro w' hw'
      have hne : w' ≠ w := (hlt.trans_le hw').ne'
      dsimp only
      rw [Function.update_of_ne hne, Function.update_of_ne hne]
      exact h.beyond w' hw'
    · intro w'
      dsimp only
      rw [filter_mod_concat]
      by_cases hw' : w' = w
      · subst hw'
        refine ⟨tail, ?_, ?_⟩
        · rw [if_pos hw, List.append_assoc]
          exact hfifo
        · rw [Function.update_self, htail]
      · obtain ⟨waiting', hfifo', hwaiting'⟩ := h.fifo w'
        refine ⟨waiting', ?_, ?_⟩
        · rw [if_neg fun heq => hw' (heq.symm.trans hw), List.append_nil]
          exact hfifo'
        · rw [Function.update_of_ne hw', hwaiting']
    · dsimp only
      rw [changesAt_concat hi, applyAll, List.foldl_concat, h.index]
      rfl
  | @complete w r hbusy =>
    refine ⟨order, fun w' hw' => ⟨(h.beyond w' hw').1, ?_⟩, h.fifo, h.index⟩
    dsimp only
    by_cases hw : w' = w
    · rw [hw, Function.update_self]
    · rw [Function.update_of_ne hw]
      exact (h.beyond w' hw').2

/-- More changes in the stream change nothing in the order. -/
lemma Pool.InTurn.append (h : p.InTurn embed stream workers order) (hsent : p.sent ≤ stream.length)
    (l : List CdcRecord) : p.InTurn embed (stream ++ l) workers order := by
  refine ⟨h.beyond, ?_, ?_⟩
  · intro w
    obtain ⟨waiting, hfifo, hqueue⟩ := h.fifo w
    refine ⟨waiting, hfifo, ?_⟩
    rw [hqueue, changesAt_append]
    intro i hi
    exact (mem_handed.mp (hfifo ▸ List.mem_append_right _ hi)).1.trans_le hsent
  · rw [h.index, changesAt_append]
    intro i hi
    exact (h.lt hi).trans_le hsent

/-- When the queues are empty each worker has applied what it was handed. -/
lemma Pool.InTurn.filter_eq (h : p.InTurn embed stream workers order)
    (hsent : p.sent ≤ stream.length) (hqueues : ∀ w, p.queues w = []) (w : ℕ) :
    order.filter (fun i => i % workers = w) = p.handed workers w := by
  obtain ⟨waiting, hfifo, hqueue⟩ := h.fifo w
  have hpos : ∀ i ∈ waiting, i < stream.length := fun i hi =>
    (mem_handed.mp (hfifo ▸ List.mem_append_right _ hi)).1.trans_le hsent
  have hnil := eq_nil_of_changesAt hpos (hqueue.symm.trans (hqueues w))
  rw [← hfifo, hnil, List.append_nil]

end Order

/-! ## The invariant -/

namespace VectorMaterializer

variable {V : Type*} {embed : Bytes → Option V} {stream : List CdcRecord}
  {mat mat' : VectorMaterializer V} {order : List ℕ}

/-- Only changes of the stream are taken. -/
lemma Follows.taken_le (h : mat.Follows stream) : mat.taken ≤ stream.length := by
  cases mat with
  | spawned t => exact TailerInv.taken h
  | pooled workers p => exact Dispatched.sent h

lemma inTurn_spawn (workers : ℕ) :
    (spawn workers : VectorMaterializer V).InTurn embed [] [] := by
  unfold spawn
  split
  · exact ⟨fun _ _ => ⟨rfl, rfl⟩, fun _ => ⟨[], rfl, rfl⟩, rfl⟩
  · exact ⟨rfl, rfl⟩

/-- A step keeps the order. -/
lemma InTurn.step (h : mat.InTurn embed stream order) (hfollows : mat.Follows stream)
    {e : MaterializerEvent} (hstep : mat.next embed stream e = some mat') :
    ∃ order', mat'.InTurn embed stream order' := by
  have htaken := hfollows.taken_le
  unfold next at hstep
  split at hstep
  · rename_i t e
    obtain ⟨t', ht', rfl⟩ := Option.map_eq_some_iff.mp hstep
    obtain ⟨rfl, hindex⟩ := h
    cases e with
    | apply =>
      rw [Tailer.next] at ht'
      split at ht'
      · rename_i r hbusy hr
        obtain rfl := Option.some.inj ht'
        refine ⟨List.range (t.taken + 1), rfl, ?_⟩
        rw [List.range_succ, changesAt_concat hr, applyAll, List.foldl_concat, hindex]
        rfl
      · cases ht'
    | store =>
      rw [Tailer.next] at ht'
      split at ht'
      · cases ht'
      · obtain rfl := Option.some.inj ht'
        exact ⟨_, rfl, hindex⟩
  · obtain ⟨p', hp', rfl⟩ := Option.map_eq_some_iff.mp hstep
    exact Pool.InTurn.step h (Nat.lt_of_lt_of_le Nat.one_pos (le_max_right _ _)) htaken hp'
  · cases hstep

lemma InTurn.append (h : mat.InTurn embed stream order) (hfollows : mat.Follows stream)
    (l : List CdcRecord) : mat.InTurn embed (stream ++ l) order := by
  have htaken := hfollows.taken_le
  cases mat with
  | spawned t =>
    obtain ⟨rfl, hindex⟩ := h
    refine ⟨rfl, hindex.trans ?_⟩
    rw [changesAt_append]
    intro i hi
    exact (List.mem_range.mp hi).trans_le htaken
  | pooled workers p => exact Pool.InTurn.append h htaken l

/-- A step takes one change more, or none. -/
lemma taken_of_next {e : MaterializerEvent} (hstep : mat.next embed stream e = some mat') :
    mat'.taken = mat.taken + if e.takes then 1 else 0 := by
  unfold next at hstep
  split at hstep
  · rename_i t e
    obtain ⟨t', ht', rfl⟩ := Option.map_eq_some_iff.mp hstep
    unfold Tailer.next at ht'
    split at ht'
    · split at ht'
      · obtain rfl := Option.some.inj ht'
        rfl
      · cases ht'
    · split at ht'
      · cases ht'
      · obtain rfl := Option.some.inj ht'
        rfl
  · rename_i workers p e
    obtain ⟨p', hp', rfl⟩ := Option.map_eq_some_iff.mp hstep
    cases Pool.step_of_next hp' with
    | send hr => rfl
    | apply hbusy hqueue => rfl
    | complete hbusy => rfl
  · cases hstep

/-- A worker that has nothing left gets nothing more when nothing is taken. -/
lemma idle_of_next {e : MaterializerEvent} (htakes : e.takes = false) {w : ℕ}
    (hidle : mat.idle w = true) (hstep : mat.next embed stream e = some mat') :
    mat'.idle w = true := by
  unfold next at hstep
  split at hstep
  · cases hidle
  · rename_i workers p e
    obtain ⟨p', hp', rfl⟩ := Option.map_eq_some_iff.mp hstep
    simp only [idle, Bool.and_eq_true, List.isEmpty_iff, Option.isNone_iff_eq_none,
      decide_eq_true_eq] at hidle ⊢
    obtain ⟨⟨hlt, hqueue⟩, hbusy⟩ := hidle
    cases Pool.step_of_next hp' with
    | send hr => cases htakes
    | @apply w' r rest hbusy' hqueue' =>
      have hne : w ≠ w' := by
        rintro rfl
        rw [hqueue] at hqueue'
        cases hqueue'
      dsimp only
      rw [Function.update_of_ne hne, Function.update_of_ne hne]
      exact ⟨⟨hlt, hqueue⟩, hbusy⟩
    | @complete w' r hbusy' =>
      have hne : w ≠ w' := by
        rintro rfl
        rw [hbusy] at hbusy'
        cases hbusy'
      dsimp only
      rw [Function.update_of_ne hne]
      exact ⟨⟨hlt, hqueue⟩, hbusy⟩
  · cases hstep

/-- Nothing is left to be done of what was taken. -/
def Finished : VectorMaterializer V → Prop
  | .spawned t => t.busy = none
  | .pooled _ p => ∀ w, p.queues w = [] ∧ p.busy w = none

lemma Finished.next_eq_none (h : mat.Finished) {e : MaterializerEvent} (htakes : e.takes = false) :
    mat.next embed stream e = none := by
  cases mat with
  | spawned t =>
    cases e with
    | tail e =>
      cases e with
      | apply => cases htakes
      | store =>
        have hbusy : t.busy = none := h
        simp [next, Tailer.next, hbusy]
    | pool e => rfl
  | pooled workers p =>
    cases e with
    | tail e => rfl
    | pool e =>
      cases e with
      | send => cases htakes
      | apply w => simp [next, Pool.next, (h w).1]
      | complete w => simp [next, Pool.next, (h w).2]

/-- A pool whose workers have nothing left is finished. -/
lemma InTurn.finished (h : mat.InTurn embed stream order) (hpool : mat.isPool = true)
    (hidle : ∀ w < mat.workers, mat.idle w = true) : mat.Finished := by
  cases mat with
  | spawned t => cases hpool
  | pooled workers p =>
    intro w
    by_cases hw : w < max workers 1
    · have hw' := hidle w hw
      simp only [idle, Bool.and_eq_true, List.isEmpty_iff, Option.isNone_iff_eq_none] at hw'
      exact ⟨hw'.1.2, hw'.2⟩
    · exact Pool.InTurn.beyond h w (not_lt.mp hw)

end VectorMaterializer

namespace Lifetime

variable {V : Type*} (embed : Bytes → Option V)

/-- What holds throughout the life of a materializer. -/
structure Kept (x : Lifetime V) (order : List ℕ) : Prop where
  follows : x.mat.Follows x.published
  order : x.mat.InTurn embed x.published order
  exited : ∀ w ∈ x.exited, x.mat.idle w = true
  running : x.thread.left = false → x.exited = ∅
  joining : x.thread = .joining → x.mat.isPool = true
  single : x.thread ≠ .receiving → x.mat.isPool = false → x.mat.Finished
  ended : x.thread = .ended → x.mat.Finished
  /-- When the thread has left and was not told to, it has taken all there will ever be. -/
  left : x.thread.left = true → x.stop = false →
    x.connected = false ∧ x.mat.taken = x.published.length

variable {embed} {x y : Lifetime V} {order : List ℕ}

lemma kept_spawn (workers : ℕ) : Kept embed (spawn workers : Lifetime V) [] where
  follows := VectorMaterializer.follows_spawn [] workers
  order := VectorMaterializer.inTurn_spawn workers
  exited w hw := by cases hw
  running _ := rfl
  joining h := by cases h
  single h := absurd rfl h
  ended h := by cases h
  left h := by cases h

lemma taken_of_waiting (h : x.mat.waiting x.published = true) :
    x.mat.taken = x.published.length := by
  rw [VectorMaterializer.waiting, Bool.and_eq_true] at h
  exact of_decide_eq_true h.1

lemma finished_of_waiting (h : x.mat.waiting x.published = true) (hpool : x.mat.isPool = false) :
    x.mat.Finished := by
  rw [VectorMaterializer.waiting, Bool.and_eq_true] at h
  obtain ⟨-, h⟩ := h
  generalize x.mat = mat at h hpool
  cases mat with
  | spawned t => exact Option.isNone_iff_eq_none.mp h
  | pooled workers p => cases hpool

/-- The thread leaves its loop. -/
lemma Kept.leave (h : Kept embed x order) (hthread : x.thread.left = false)
    (hsingle : x.mat.isPool = false → x.mat.Finished)
    (hleft : x.stop = false → x.connected = false ∧ x.mat.taken = x.published.length) :
    Kept embed x.leave order := by
  have hjoining : x.leave.thread = .joining → x.mat.isPool = true := by
    unfold Lifetime.leave
    split
    · exact fun _ => ‹_›
    · rintro ⟨⟩
  have hended : x.leave.thread = .ended → x.mat.isPool = false := by
    unfold Lifetime.leave
    split
    · rintro ⟨⟩
    · exact fun _ => Bool.not_eq_true _ ▸ ‹_›
  refine ⟨h.follows, h.order, h.exited, fun _ => h.running hthread, hjoining, fun _ => hsingle,
    fun hend => hsingle (hended hend), fun _ => hleft⟩

/-- A step keeps what holds. -/
lemma Kept.step (h : Kept embed x order) {e : LifetimeEvent} (hstep : Step embed x e y) :
    ∃ order', Kept embed y order' := by
  cases hstep with
  | publish r hconnected =>
    refine ⟨order, h.follows.append [r], h.order.append h.follows [r], h.exited, h.running,
      h.joining, h.single, h.ended, ?_⟩
    intro hleft hstop
    have hdisconnected := (h.left hleft hstop).1
    rw [hconnected] at hdisconnected
    cases hdisconnected
  | disconnect =>
    exact ⟨order, h.follows, h.order, h.exited, h.running, h.joining, h.single, h.ended,
      fun hleft hstop => ⟨rfl, (h.left hleft hstop).2⟩⟩
  | drop =>
    exact ⟨order, h.follows, h.order, h.exited, h.running, h.joining, h.single, h.ended,
      fun _ hstop => by cases hstop⟩
  | @work e mat hthread hmat =>
    have htakes : x.thread ≠ .receiving → e.takes = false := fun hne =>
      hthread.resolve_left hne
    have hpool := VectorMaterializer.isPool_of_next hmat
    have hstay : x.mat.Finished → x.thread ≠ .receiving → mat.Finished := by
      intro hfinished hne
      rw [hfinished.next_eq_none (htakes hne)] at hmat
      cases hmat
    obtain ⟨order', horder'⟩ := h.order.step h.follows hmat
    refine ⟨order', h.follows.step hmat, horder', ?_, h.running,
      fun hjoining => hpool.trans (h.joining hjoining),
      fun hne hsingle => hstay (h.single hne (hpool.symm.trans hsingle)) hne,
      fun hended => hstay (h.ended hended) (by rw [hended]; decide), ?_⟩
    · intro w hw
      by_cases hleft : x.thread.left = true
      · have hne : x.thread ≠ .receiving := fun heq => by rw [heq] at hleft; cases hleft
        exact VectorMaterializer.idle_of_next (htakes hne) (h.exited w hw) hmat
      · have hnone := h.running (Bool.not_eq_true _ ▸ hleft)
        dsimp only at hw
        rw [hnone] at hw
        cases hw
    · intro hleft hstop
      obtain ⟨hconnected, htaken⟩ := h.left hleft hstop
      have hne : x.thread ≠ .receiving := by
        intro heq
        dsimp only at hleft
        rw [heq] at hleft
        cases hleft
      refine ⟨hconnected, ?_⟩
      have htaken' := VectorMaterializer.taken_of_next hmat
      rw [htakes hne] at htaken'
      exact htaken'.trans htaken
  | timeout hthread hwaiting hconnected =>
    have hnone := h.running (by rw [hthread]; rfl)
    refine ⟨order, h.follows, h.order, h.exited, fun _ => hnone, ?_, fun _ =>
      finished_of_waiting hwaiting, ?_, ?_⟩
    · rintro ⟨⟩
    · rintro ⟨⟩
    · rintro ⟨⟩
  | check hthread hstop =>
    have hnone := h.running (by rw [hthread]; rfl)
    refine ⟨order, h.follows, h.order, h.exited, fun _ => hnone, ?_, fun hne => absurd rfl hne,
      ?_, ?_⟩
    · rintro ⟨⟩
    · rintro ⟨⟩
    · rintro ⟨⟩
  | stop hthread hstop =>
    refine ⟨order, h.leave (by rw [hthread]; rfl) (h.single (by rw [hthread]; decide))
      fun hgo => ?_⟩
    rw [hstop] at hgo
    cases hgo
  | disconnected hthread hwaiting hconnected =>
    exact ⟨order, h.leave (by rw [hthread]; rfl) (finished_of_waiting hwaiting)
      fun _ => ⟨hconnected, taken_of_waiting hwaiting⟩⟩
  | @exit w hleft hidle hw =>
    refine ⟨order, h.follows, h.order, ?_, ?_, h.joining, h.single,
      h.ended, h.left⟩
    · intro w' hw'
      rcases Finset.mem_insert.mp hw' with rfl | hw'
      · exact hidle
      · exact h.exited w' hw'
    · intro hgo
      dsimp only at hgo
      rw [hleft] at hgo
      cases hgo
  | join hthread hall =>
    have hpool := h.joining hthread
    have hfinished := h.order.finished hpool fun w hw => h.exited w (hall w hw)
    refine ⟨order, h.follows, h.order, h.exited, ?_, ?_, fun _ _ => hfinished,
      fun _ => hfinished, fun _ => h.left (by rw [hthread]; rfl)⟩
    · rintro ⟨⟩
    · rintro ⟨⟩

lemma exists_kept {workers : ℕ} {hist : List (Lifetime V × LifetimeEvent)}
    (h : Run (next embed) (spawn workers) hist x) : ∃ order, Kept embed x order :=
  h.invariant (I := fun x => ∃ order, Kept embed x order) ⟨[], kept_spawn workers⟩
    fun _ _ _ ⟨_, hkept⟩ hnext => hkept.step (step_of_next hnext)

/-! ## What is applied -/

/-- The thread takes what it was waiting for before it does anything else. -/
structure Covers (x y : Lifetime V) : Prop where
  published : x.published.length ≤ y.published.length
  taken : y.thread ≠ .receiving → x.published.length ≤ y.mat.taken

lemma Covers.step {z : Lifetime V} (h : Covers x y) {e : LifetimeEvent} (hstep : Step embed y e z) :
    Covers x z := by
  cases hstep with
  | publish r hconnected =>
    refine ⟨h.published.trans ?_, h.taken⟩
    rw [List.length_append]
    exact Nat.le_add_right _ _
  | disconnect => exact ⟨h.published, h.taken⟩
  | drop => exact ⟨h.published, h.taken⟩
  | @work e mat hthread hmat =>
    refine ⟨h.published, fun hne => (h.taken hne).trans ?_⟩
    have htaken := VectorMaterializer.taken_of_next hmat
    exact (Nat.le_add_right _ _).trans htaken.ge
  | timeout hthread hwaiting hconnected =>
    exact ⟨h.published, fun _ => h.published.trans (taken_of_waiting hwaiting).ge⟩
  | check hthread hstop => exact ⟨h.published, fun hne => absurd rfl hne⟩
  | stop hthread hstop => exact ⟨h.published, fun _ => h.taken (by rw [hthread]; decide)⟩
  | disconnected hthread hwaiting hconnected =>
    exact ⟨h.published, fun _ => h.published.trans (taken_of_waiting hwaiting).ge⟩
  | exit hleft hidle hw => exact ⟨h.published, h.taken⟩
  | join hthread hall => exact ⟨h.published, fun _ => h.taken (by rw [hthread]; decide)⟩

/-- Positions that are those of a range for each worker are those of the range. -/
lemma perm_of_filter_mod {l l' : List ℕ} {n : ℕ}
    (h : ∀ w, l.filter (fun i => i % n = w) = l'.filter fun i => i % n = w) : l.Perm l' := by
  refine List.perm_iff_count.mpr ?_
  intro i
  have hcount : ∀ l : List ℕ, l.count i = (l.filter fun j => j % n = i % n).count i := by
    intro l
    rw [List.count_filter (by simp)]
  rw [hcount l, hcount l', h]

/-- What a finished materializer has applied. -/
lemma Kept.applied (h : Kept embed x order) (hfinished : x.mat.Finished) :
    order.Perm (List.range x.mat.taken) ∧
      (∀ w, (order.filter fun i => i % max x.mat.workers 1 = w).Pairwise (· < ·)) ∧
      x.mat.index = applyAll embed (changesAt x.published order) := by
  have horder := h.order
  have htaken := h.follows.taken_le
  generalize x.mat = mat at hfinished horder htaken
  cases mat with
  | spawned t =>
    obtain ⟨rfl, hindex⟩ := horder
    exact ⟨List.Perm.refl _, fun w => List.pairwise_lt_range.filter _, hindex⟩
  | pooled workers p =>
    have hfilter := Pool.InTurn.filter_eq horder htaken fun w => (hfinished w).1
    have hworkers : max (VectorMaterializer.pooled workers p).workers 1 = max workers 1 :=
      max_eq_left (le_max_right _ _)
    refine ⟨perm_of_filter_mod hfilter, ?_, Pool.InTurn.index horder⟩
    intro w
    simp only [hworkers, hfilter w]
    exact List.pairwise_lt_range.filter _

/-- A materializer that has ended has applied all that was published while its thread was at its
channel: each change once, those of a worker in order.  When it was not told to stop that is all
that was ever published. -/
theorem applied_of_ended {workers : ℕ} {hist : List (Lifetime V × LifetimeEvent)}
    (h : Run (next embed) (spawn workers) hist x) (hended : x.thread = .ended) :
    (∃ order : List ℕ, order.Perm (List.range x.mat.taken) ∧
      (∀ w, (order.filter fun i => i % max x.mat.workers 1 = w).Pairwise (· < ·)) ∧
      x.mat.index = applyAll embed (changesAt x.published order)) ∧
    (∀ y ∈ states hist x, y.thread = .receiving → y.published.length ≤ x.mat.taken) ∧
    (x.stop = false → x.mat.taken = x.published.length) := by
  obtain ⟨order, hkept⟩ := exists_kept h
  refine ⟨⟨order, hkept.applied (hkept.ended hended)⟩, ?_, ?_⟩
  · intro y hy hreceiving
    obtain ⟨-, hist', -, -, hrun⟩ := h.exists_split hy
    have hcovers : Covers y x := hrun.invariant (I := Covers y)
      ⟨le_rfl, fun hne => absurd hreceiving hne⟩ fun _ _ _ hc hnext => hc.step (step_of_next hnext)
    exact hcovers.taken (by rw [hended]; decide)
  · intro hstop
    exact (hkept.left (by rw [hended]; rfl) hstop).2

namespace Example

/-- Two changes are applied by two workers, the second one first; the third one is published when the
dispatcher has given up waiting. -/
def before : List LifetimeEvent :=
  [.publish ⟨1, 0, 1, 0, [10]⟩, .publish ⟨1, 0, 2, 0, [20]⟩, .work (.pool .send),
    .work (.pool .send), .work (.pool (.apply 1)), .work (.pool (.complete 1)),
    .work (.pool (.apply 0)), .work (.pool (.complete 0)), .timeout,
    .publish ⟨1, 0, 3, 0, [30]⟩, .drop]

/-- The materializer ends. -/
def after : List LifetimeEvent := [.check, .exit 1, .exit 0, .join]

end Example

open Example in
/-- The first two changes are applied, and the third one is not. -/
theorem applied_of_ended_pool : ∃ hist x order, Run (next some) (spawn 2) hist x ∧
    x.published.length = 3 ∧ x.mat.taken = 2 ∧ order.Perm (List.range 2) ∧
    x.mat.index = applyAll some (changesAt x.published order) := by
  have hexec : (exec (next some) (spawn 2) (before ++ after)).map
      (fun p => (p.2.published.length, p.2.mat.taken, p.2.thread)) = some (3, 2, .ended) := by
    decide +kernel
  obtain ⟨⟨hist, x⟩, hrun, heq⟩ := Option.map_eq_some_iff.mp hexec
  simp only [Prod.mk.injEq] at heq
  obtain ⟨hlen, htaken, hended⟩ := heq
  obtain ⟨⟨order, hperm, -, hindex⟩, -⟩ := applied_of_ended (run_of_exec hrun) hended
  exact ⟨hist, x, order, run_of_exec hrun, hlen, htaken, htaken ▸ hperm, hindex⟩

/-! ## The end -/

section Remaining

/-- What a worker still has to do: two steps for each change of its queue, one for the change it has
applied, and one to end. -/
def owed (exited : Finset ℕ) (queues : ℕ → List CdcRecord) (busy : ℕ → Option CdcRecord) (w : ℕ) :
    ℕ :=
  2 * (queues w).length + (if (busy w).isSome then 1 else 0) + if w ∈ exited then 0 else 1

/-- What is still to be done of what was taken. -/
def todo (mat : VectorMaterializer V) (exited : Finset ℕ) : ℕ :=
  match mat with
  | .spawned t => if t.busy.isSome then 1 else 0
  | .pooled workers p => ∑ w ∈ Finset.range (max workers 1), owed exited p.queues p.busy w

/-- What is still to be done of what was not taken. -/
def backlog (x : Lifetime V) : ℕ :=
  if x.thread.left then 0 else 3 * (x.published.length - x.mat.taken)

/-- What the main thread still has to do. -/
def rank (x : Lifetime V) : ℕ :=
  match x.thread with
  | .receiving => 3
  | .timedOut => if x.stop then 2 else 4
  | .joining => 1
  | .ended => 0

/-- A bound for the steps that are left when nothing more is published. -/
def remaining (x : Lifetime V) : ℕ := x.backlog + todo x.mat x.exited + x.rank

/-- A sum that changes at one place. -/
lemma sum_range_add {f g : ℕ → ℕ} {n w : ℕ} (hw : w < n) (hother : ∀ w', w' ≠ w → g w' = f w') :
    (∑ i ∈ Finset.range n, g i) + f w = (∑ i ∈ Finset.range n, f i) + g w := by
  have hmem : w ∈ Finset.range n := Finset.mem_range.mpr hw
  have hrest : ∑ i ∈ (Finset.range n).erase w, g i = ∑ i ∈ (Finset.range n).erase w, f i :=
    Finset.sum_congr rfl fun i hi => hother i (Finset.ne_of_mem_erase hi)
  rw [← Finset.add_sum_erase _ g hmem, ← Finset.add_sum_erase _ f hmem, hrest]
  omega

variable {mat mat' : VectorMaterializer V} {stream : List CdcRecord}

/-- A step of a pool: taking a change hands it to a worker, and each other step gets one thing
done. -/
lemma todo_of_pool {workers : ℕ} {p p' : Pool V} (exited : Finset ℕ) (hpos : 0 < workers)
    (h : p.InTurn embed stream workers order) {e : PoolEvent}
    (hstep : p.next embed workers stream e = some p') :
    (∑ w ∈ Finset.range workers, owed exited p'.queues p'.busy w) + (if e = .send then 0 else 1) =
      (∑ w ∈ Finset.range workers, owed exited p.queues p.busy w) +
        if e = .send then 2 else 0 := by
  have hbeyond : ∀ w, p.queues w ≠ [] ∨ p.busy w ≠ none → w < workers := by
    intro w hw
    by_contra hle
    obtain ⟨hqueue, hbusy⟩ := h.beyond w (not_lt.mp hle)
    rcases hw with hw | hw
    · exact hw hqueue
    · exact hw hbusy
  cases Pool.step_of_next hstep with
  | @send r hr =>
    dsimp only
    set queues' := Function.update p.queues (p.sent % workers)
      (p.queues (p.sent % workers) ++ [r]) with hqueues
    have hsum := sum_range_add (f := owed exited p.queues p.busy) (g := owed exited queues' p.busy)
      (Nat.mod_lt p.sent hpos) fun w hw => by rw [owed, hqueues, Function.update_of_ne hw, owed]
    have hnew : owed exited queues' p.busy (p.sent % workers) =
        owed exited p.queues p.busy (p.sent % workers) + 2 := by
      rw [owed, hqueues, Function.update_self, List.length_append, List.length_singleton, owed]
      omega
    rw [if_pos rfl, if_pos rfl]
    omega
  | @apply w r rest hbusy hqueue =>
    dsimp only
    set queues' := Function.update p.queues w rest with hqueues
    set busy' := Function.update p.busy w (some r) with hbusy'
    have hlt := hbeyond w (Or.inl (by rw [hqueue]; exact List.cons_ne_nil _ _))
    have hsum := sum_range_add (f := owed exited p.queues p.busy) (g := owed exited queues' busy') hlt
      fun w' hw' => by
        rw [owed, hqueues, hbusy', Function.update_of_ne hw', Function.update_of_ne hw', owed]
    have hold : owed exited p.queues p.busy w = owed exited queues' busy' w + 1 := by
      rw [owed, owed, hqueues, hbusy', Function.update_self, Function.update_self, hqueue, hbusy,
        List.length_cons, Option.isSome_some, Option.isSome_none, if_pos rfl, if_neg Bool.false_ne_true]
      omega
    rw [if_neg (by rintro ⟨⟩), if_neg (by rintro ⟨⟩)]
    omega
  | @complete w r hbusy =>
    dsimp only
    set busy' := Function.update p.busy w none with hbusy'
    have hlt := hbeyond w (Or.inr (by rw [hbusy]; exact Option.some_ne_none r))
    have hsum := sum_range_add (f := owed exited p.queues p.busy) (g := owed exited p.queues busy') hlt
      fun w' hw' => by rw [owed, hbusy', Function.update_of_ne hw', owed]
    have hold : owed exited p.queues p.busy w = owed exited p.queues busy' w + 1 := by
      rw [owed, owed, hbusy', Function.update_self, hbusy, Option.isSome_some, Option.isSome_none,
        if_pos rfl, if_neg Bool.false_ne_true]
      omega
    rw [if_neg (by rintro ⟨⟩), if_neg (by rintro ⟨⟩)]
    omega

/-- The same of either materializer; the single thread has one step to do for a change it took. -/
lemma todo_of_next (exited : Finset ℕ) (h : mat.InTurn embed stream order) {e : MaterializerEvent}
    (hstep : mat.next embed stream e = some mat') :
    todo mat' exited + (if e.takes then 0 else 1) ≤ todo mat exited + if e.takes then 2 else 0 := by
  unfold VectorMaterializer.next at hstep
  split at hstep
  · rename_i t e
    obtain ⟨t', ht', rfl⟩ := Option.map_eq_some_iff.mp hstep
    unfold Tailer.next at ht'
    split at ht'
    · split at ht'
      · obtain rfl := Option.some.inj ht'
        simp [todo, MaterializerEvent.takes]
      · cases ht'
    · split at ht'
      · cases ht'
      · rename_i r hbusy
        obtain rfl := Option.some.inj ht'
        simp [todo, MaterializerEvent.takes, hbusy]
  · rename_i workers p e
    obtain ⟨p', hp', rfl⟩ := Option.map_eq_some_iff.mp hstep
    have hpos : 0 < max workers 1 := Nat.lt_of_lt_of_le Nat.one_pos (le_max_right _ _)
    have hpool := todo_of_pool exited hpos h hp'
    have htakes : (MaterializerEvent.pool e).takes = decide (e = .send) := by
      cases e with
      | send => rfl
      | apply w => rfl
      | complete w => rfl
    simp only [htakes, decide_eq_true_eq]
    exact hpool.le
  · cases hstep

/-- The thread leaves its loop, and has at most to wait for its workers. -/
lemma remaining_leave (x : Lifetime V) : x.leave.remaining ≤ todo x.mat x.exited + 1 := by
  unfold remaining leave
  dsimp only
  by_cases hpool : x.mat.isPool = true
  · rw [if_pos hpool]
    exact (Nat.zero_add _).symm ▸ le_rfl
  · rw [if_neg hpool]
    exact (Nat.zero_add _).symm ▸ Nat.le_succ _

/-- Once the materializer or its store is dropped, each step of the threads gets something done, and
only what is published is to be done in addition. -/
lemma Kept.remaining (h : Kept embed x order) (hstop : x.stop = true ∨ x.connected = false)
    {e : LifetimeEvent} (hstep : Step embed x e y) :
    (y.stop = true ∨ y.connected = false) ∧
      y.remaining + (if e.own then 1 else 0) ≤ x.remaining + if e.publishes then 3 else 0 := by
  have htaken := h.follows.taken_le
  cases hstep with
  | publish r hconnected =>
    refine ⟨hstop, ?_⟩
    have hbacklog : ({ x with published := x.published ++ [r] } : Lifetime V).backlog ≤
        x.backlog + 3 := by
      unfold backlog
      dsimp only
      rw [List.length_append, List.length_singleton]
      split
      · exact Nat.zero_le _
      · omega
    have hrank : ({ x with published := x.published ++ [r] } : Lifetime V).rank = x.rank := rfl
    change _ + todo x.mat x.exited + _ + 0 ≤ x.backlog + todo x.mat x.exited + x.rank + 3
    omega
  | disconnect => exact ⟨Or.inr rfl, le_rfl⟩
  | drop =>
    refine ⟨Or.inl rfl, ?_⟩
    have hrank : ({ x with stop := true } : Lifetime V).rank ≤ x.rank := by
      unfold rank
      dsimp only
      split
      · exact le_rfl
      · rw [if_pos rfl]
        split
        · exact le_rfl
        · decide
      · exact le_rfl
      · exact le_rfl
    change x.backlog + todo x.mat x.exited + _ ≤ x.backlog + todo x.mat x.exited + x.rank
    omega
  | @work e mat hthread hmat =>
    refine ⟨hstop, ?_⟩
    have htodo := todo_of_next x.exited h.order hmat
    have htaken' := VectorMaterializer.taken_of_next hmat
    have hle := (h.follows.step hmat).taken_le
    have hrank : ({ x with mat } : Lifetime V).rank = x.rank := rfl
    have hbacklog : ({ x with mat } : Lifetime V).backlog + (if e.takes then 3 else 0) =
        x.backlog := by
      unfold backlog
      dsimp only
      by_cases htakes : e.takes = true
      · have hreceiving : x.thread = .receiving := hthread.resolve_right (by rw [htakes]; decide)
        have hrunning : x.thread.left = false := by rw [hreceiving]; rfl
        rw [if_pos htakes] at htaken' ⊢
        rw [hrunning, if_neg Bool.false_ne_true, if_neg Bool.false_ne_true]
        omega
      · rw [if_neg htakes] at htaken' ⊢
        rw [htaken', Nat.add_zero, Nat.add_zero]
    change _ + todo mat x.exited + _ + 1 ≤ x.backlog + todo x.mat x.exited + x.rank + 0
    by_cases htakes : e.takes = true
    · rw [if_pos htakes] at hbacklog htodo
      rw [if_pos htakes] at htodo
      omega
    · rw [if_neg htakes] at hbacklog htodo
      rw [if_neg htakes] at htodo
      omega
  | timeout hthread hwaiting hconnected =>
    have hstopped := hstop.resolve_right (by rw [hconnected]; decide)
    refine ⟨hstop, ?_⟩
    have hbacklog : ({ x with thread := .timedOut } : Lifetime V).backlog = x.backlog := by
      unfold backlog
      rw [hthread]
      rfl
    have hrank : ({ x with thread := .timedOut } : Lifetime V).rank + 1 = x.rank := by
      unfold rank
      rw [hthread]
      dsimp only
      rw [if_pos hstopped]
    change _ + todo x.mat x.exited + _ + 1 ≤ x.backlog + todo x.mat x.exited + x.rank + 0
    omega
  | check hthread hgo =>
    refine ⟨hstop, ?_⟩
    have hbacklog : ({ x with thread := .receiving } : Lifetime V).backlog = x.backlog := by
      unfold backlog
      rw [hthread]
      rfl
    have hrank : ({ x with thread := .receiving } : Lifetime V).rank + 1 = x.rank := by
      unfold rank
      rw [hthread]
      dsimp only
      rw [hgo, if_neg Bool.false_ne_true]
    change _ + todo x.mat x.exited + _ + 1 ≤ x.backlog + todo x.mat x.exited + x.rank + 0
    omega
  | stop hthread hstopped =>
    refine ⟨hstop, ?_⟩
    have hleave := x.remaining_leave
    have hrank : x.rank = 2 := by
      unfold rank
      rw [hthread]
      dsimp only
      rw [if_pos hstopped]
    change _ + 1 ≤ x.backlog + todo x.mat x.exited + x.rank + 0
    omega
  | disconnected hthread hwaiting hconnected =>
    refine ⟨hstop, ?_⟩
    have hleave := x.remaining_leave
    have hrank : x.rank = 3 := by
      unfold rank
      rw [hthread]
    change _ + 1 ≤ x.backlog + todo x.mat x.exited + x.rank + 0
    omega
  | @exit w hleft hidle hw =>
    refine ⟨hstop, ?_⟩
    have htodo : todo x.mat (insert w x.exited) + 1 = todo x.mat x.exited := by
      generalize x.mat = mat at hidle
      cases mat with
      | spawned t => cases hidle
      | pooled workers p =>
        simp only [VectorMaterializer.idle, Bool.and_eq_true, decide_eq_true_eq] at hidle
        have hsum := sum_range_add (f := owed x.exited p.queues p.busy)
          (g := owed (insert w x.exited) p.queues p.busy) hidle.1.1 fun w' hw' => by
            simp only [owed, Finset.mem_insert, hw', false_or]
        have hold : owed x.exited p.queues p.busy w =
            owed (insert w x.exited) p.queues p.busy w + 1 := by
          rw [owed, owed, if_neg hw, if_pos (Finset.mem_insert_self w x.exited)]
        unfold todo
        dsimp only
        omega
    change x.backlog + todo x.mat (insert w x.exited) + x.rank + 1 ≤ x.backlog + todo x.mat x.exited + x.rank + 0
    omega
  | join hthread hall =>
    refine ⟨hstop, ?_⟩
    have hrank : x.rank = 1 := by
      unfold rank
      rw [hthread]
    change 0 + todo x.mat x.exited + 0 + 1 ≤ x.backlog + todo x.mat x.exited + x.rank + 0
    omega

end Remaining

/-- A worker with something left can go on. -/
lemma exists_work {w : ℕ} {p : Pool V} (embed : Bytes → Option V) (workers : ℕ)
    (stream : List CdcRecord) (hw : p.queues w ≠ [] ∨ p.busy w ≠ none) :
    ∃ e p', MaterializerEvent.takes (.pool e) = false ∧
      p.next embed workers stream e = some p' := by
  cases hbusy : p.busy w with
  | some r => exact ⟨.complete w, _, rfl, by rw [Pool.next, hbusy]⟩
  | none =>
    cases hqueue : p.queues w with
    | nil =>
      rcases hw with hw | hw
      · exact absurd hqueue hw
      · exact absurd hbusy hw
    | cons r rest => exact ⟨.apply w, _, rfl, by rw [Pool.next, hbusy, hqueue]⟩

/-- A thread that does not wait can go on. -/
lemma exists_next_of_not_waiting {mat : VectorMaterializer V} {stream : List CdcRecord}
    (embed : Bytes → Option V) (htaken : mat.taken ≤ stream.length)
    (hwaiting : mat.waiting stream = false) : ∃ e mat', mat.next embed stream e = some mat' := by
  cases mat with
  | spawned t =>
    cases hbusy : t.busy with
    | some r =>
      refine ⟨.tail .store, .spawned { t with busy := none, watermark := r.seq.toNat }, ?_⟩
      rw [VectorMaterializer.next, Tailer.next, hbusy, Option.map_some]
    | none =>
      have hne : t.taken ≠ stream.length := by
        intro heq
        simp [VectorMaterializer.waiting, VectorMaterializer.taken, VectorMaterializer.resting, heq,
          hbusy] at hwaiting
      obtain ⟨r, hr⟩ : ∃ r, stream[t.taken]? = some r :=
        ⟨_, List.getElem?_eq_getElem (lt_of_le_of_ne htaken hne)⟩
      refine ⟨.tail .apply, .spawned { t with
        taken := t.taken + 1, busy := some r, index := applyChange embed t.index r }, ?_⟩
      rw [VectorMaterializer.next, Tailer.next, hbusy, hr, Option.map_some]
  | pooled workers p =>
    have hne : p.sent ≠ stream.length := by
      intro heq
      simp [VectorMaterializer.waiting, VectorMaterializer.taken, VectorMaterializer.resting, heq]
        at hwaiting
    obtain ⟨r, hr⟩ : ∃ r, stream[p.sent]? = some r :=
      ⟨_, List.getElem?_eq_getElem (lt_of_le_of_ne htaken hne)⟩
    refine ⟨.pool .send, .pooled workers { p with
      sent := p.sent + 1
      queues := Function.update p.queues (p.sent % max workers 1)
        (p.queues (p.sent % max workers 1) ++ [r]) }, ?_⟩
    rw [VectorMaterializer.next, Pool.next, hr]
    rfl

/-- As long as the threads have not ended one of them can go on. -/
lemma Kept.exists_next (h : Kept embed x order) (hended : x.thread ≠ .ended) :
    ∃ e y, LifetimeEvent.own e = true ∧ next embed x e = some y := by
  have htaken := h.follows.taken_le
  cases hthread : x.thread with
  | receiving =>
    by_cases hwaiting : x.mat.waiting x.published = true
    · by_cases hconnected : x.connected = true
      · exact ⟨.timeout, _, rfl, if_pos ⟨hthread, hwaiting, hconnected⟩⟩
      · exact ⟨.disconnected, _, rfl,
          if_pos ⟨hthread, hwaiting, Bool.not_eq_true _ ▸ hconnected⟩⟩
    · obtain ⟨e, mat, hmat⟩ := exists_next_of_not_waiting embed htaken
        (Bool.not_eq_true _ ▸ hwaiting)
      refine ⟨.work e, { x with mat }, rfl, ?_⟩
      rw [next, if_pos (Or.inl hthread), hmat, Option.map_some]
  | timedOut => exact ⟨.check, _, rfl, if_pos hthread⟩
  | joining =>
    by_cases hall : ∀ w < x.mat.workers, w ∈ x.exited
    · exact ⟨.join, _, rfl, if_pos ⟨hthread, hall⟩⟩
    · push Not at hall
      obtain ⟨w, hlt, hw⟩ := hall
      have hleft : x.thread.left = true := by rw [hthread]; rfl
      by_cases hidle : x.mat.idle w = true
      · exact ⟨.exit w, _, rfl, if_pos ⟨hleft, hidle, hw⟩⟩
      · have hpool := h.joining hthread
        cases hmat : x.mat with
        | spawned t =>
          rw [hmat] at hpool
          cases hpool
        | pooled workers p =>
          rw [hmat] at hidle hlt
          have hlt' : w < max workers 1 := hlt
          have hbusy : p.queues w ≠ [] ∨ p.busy w ≠ none := by
            by_contra hnone
            push Not at hnone
            refine hidle ?_
            rw [VectorMaterializer.idle, hnone.1, hnone.2, decide_eq_true hlt']
            rfl
          obtain ⟨e, p', htakes, hp'⟩ := exists_work embed (max workers 1) x.published hbusy
          refine ⟨.work (.pool e), { x with mat := .pooled workers p' }, rfl, ?_⟩
          rw [next, if_pos (Or.inr htakes), hmat, VectorMaterializer.next, hp']
          rfl
  | ended => exact absurd hthread hended

/-- Dropping a materializer returns, and so does dropping its store first.  From then on, whatever is
published and however the threads are interleaved, the threads can take at most as many steps as
there are left now and three for each change published, and as long as they have not ended one of
them can take a step. -/
theorem drop_returns {workers : ℕ} {hist hist' : List (Lifetime V × LifetimeEvent)}
    (h : Run (next embed) (spawn workers) hist x) (hstop : x.stop = true ∨ x.connected = false)
    (h' : Run (next embed) x hist' y) :
    hist'.countP (fun s => s.2.own) + y.remaining ≤
        x.remaining + 3 * hist'.countP (fun s => s.2.publishes) ∧
      (y.thread ≠ .ended → ∃ e z, LifetimeEvent.own e = true ∧ next embed y e = some z) := by
  suffices hall : (∃ order, Kept embed y order) ∧ (y.stop = true ∨ y.connected = false) ∧
      hist'.countP (fun s => s.2.own) + y.remaining ≤
        x.remaining + 3 * hist'.countP (fun s => s.2.publishes) by
    obtain ⟨⟨order, hkept⟩, -, hle⟩ := hall
    exact ⟨hle, hkept.exists_next⟩
  induction h' with
  | start => exact ⟨exists_kept h, hstop, by simp⟩
  | @step hist' y z e hrun hnext ih =>
    obtain ⟨⟨order, hkept⟩, hstop', hle⟩ := ih
    have hstep := step_of_next hnext
    obtain ⟨hstop'', hone⟩ := hkept.remaining hstop' hstep
    refine ⟨hkept.step hstep, hstop'', ?_⟩
    rw [List.countP_append, List.countP_append, List.countP_singleton, List.countP_singleton]
    dsimp only
    by_cases hpub : e.publishes = true
    · rw [if_pos hpub] at hone ⊢
      omega
    · rw [if_neg hpub] at hone ⊢
      omega

open Example in
/-- The pool ends with four steps after it is dropped. -/
theorem drop_returns_pool : ∃ hist x hist' y, Run (next some) (spawn 2) hist x ∧
    Run (next some) x hist' y ∧ hist'.countP (fun s => s.2.own) = 4 ∧ y.thread = .ended ∧
    4 + y.remaining ≤ x.remaining := by
  have hexec : ((exec (next some) (spawn 2) before).bind fun p =>
      (exec (next some) p.2 after).map fun q => (p.2.stop, q.1.countP fun s => s.2.own,
        q.1.countP fun s => s.2.publishes, q.2.thread)) = some (true, 4, 0, .ended) := by
    decide +kernel
  obtain ⟨⟨hist, x⟩, hrun, hexec⟩ := Option.bind_eq_some_iff.mp hexec
  obtain ⟨⟨hist', y⟩, hrun', heq⟩ := Option.map_eq_some_iff.mp hexec
  simp only [Prod.mk.injEq] at heq
  obtain ⟨hstop, hown, hpublishes, hended⟩ := heq
  have hbound := (drop_returns (run_of_exec hrun) (Or.inl hstop) (run_of_exec hrun')).1
  rw [hown, hpublishes] at hbound
  exact ⟨hist, x, hist', y, run_of_exec hrun, run_of_exec hrun', hown, hended, hbound⟩

end Lifetime

end GrainStore
