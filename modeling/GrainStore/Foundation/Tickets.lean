import Mathlib
import GrainStore.Foundation.Trace

/-!
# Numbers taken before a turn

A counter hands out numbers, and those who took one enter it in a log later, in any order: taking a
number and entering it are two steps, and steps of others may come between them.

No number is handed out twice or lost (`perm_range`).  The log is in the order of the numbers
exactly in the runs in which nobody enters a number while an earlier one is still waiting
(`inOrder_iff`).
-/

namespace Tickets

open Trace

/-- The next number, the numbers taken and not entered yet in the order they were taken, and the
log. -/
structure Desk where
  next : ℕ
  waiting : List ℕ
  log : List ℕ
  deriving DecidableEq, Repr

inductive Event where
  /-- Take the next number. -/
  | take
  /-- The `i`-th of those that wait enters its number. -/
  | enter (i : ℕ)
  deriving DecidableEq, Repr

namespace Desk

def start : Desk := ⟨0, [], []⟩

def step (d : Desk) : Event → Option Desk
  | .take => some { d with next := d.next + 1, waiting := d.waiting ++ [d.next] }
  | .enter i => d.waiting[i]?.map fun n =>
    { d with waiting := d.waiting.eraseIdx i, log := d.log ++ [n] }

/-- Every entry of the log is at the place of its number. -/
def InOrder (d : Desk) : Prop := d.log = List.range d.log.length

/-- A number is entered while a smaller one waits. -/
def Overtakes (d : Desk) : Event → Prop
  | .take => False
  | .enter i => ∃ n, d.waiting[i]? = some n ∧ ∃ m ∈ d.waiting, m < n

variable {d d' : Desk} {hist : List (Desk × Event)}

/-- What holds in every state: the numbers handed out are in the log or wait, and those that wait do
so in the order they were taken. -/
structure Inv (d : Desk) : Prop where
  perm : (d.log ++ d.waiting).Perm (List.range d.next)
  sorted : d.waiting.Pairwise (· < ·)

lemma inv_start : Inv start := ⟨List.Perm.refl _, List.Pairwise.nil⟩

lemma Inv.lt (h : Inv d) {n : ℕ} (hn : n ∈ d.waiting) : n < d.next :=
  List.mem_range.mp (h.perm.mem_iff.mp (List.mem_append_right _ hn))

lemma Inv.step {e : Event} (h : Inv d) (hstep : d.step e = some d') : Inv d' := by
  cases e with
  | take =>
    obtain rfl := Option.some.inj hstep
    refine ⟨?_, List.pairwise_append.mpr ⟨h.sorted, List.pairwise_singleton _ _, ?_⟩⟩
    · rw [← List.append_assoc, List.range_succ]
      exact h.perm.append_right _
    · intro n hn m hm
      rw [List.mem_singleton.mp hm]
      exact h.lt hn
  | enter i =>
    obtain ⟨n, hn, rfl⟩ := Option.map_eq_some_iff.mp hstep
    refine ⟨List.Perm.trans ?_ h.perm, h.sorted.sublist (List.eraseIdx_sublist _ _)⟩
    obtain ⟨hlt, rfl⟩ := List.getElem?_eq_some_iff.mp hn
    rw [List.append_assoc]
    exact (List.getElem_cons_eraseIdx_perm hlt).append_left _

/-- No number is handed out twice, and none is lost. -/
theorem perm_range (h : Run step start hist d) :
    (d.log ++ d.waiting).Perm (List.range d.next) :=
  (h.invariant inv_start fun _ _ _ hy hstep => hy.step hstep).perm

/-- All but the first of those that wait overtake somebody. -/
lemma Inv.overtakes_iff (h : Inv d) {i n : ℕ} (hn : d.waiting[i]? = some n) :
    d.Overtakes (.enter i) ↔ i ≠ 0 := by
  obtain ⟨hlt, hget⟩ := List.getElem?_eq_some_iff.mp hn
  have hsorted := List.pairwise_iff_getElem.mp h.sorted
  constructor
  · rintro ⟨n', hn', m, hm, hless⟩ rfl
    obtain rfl := Option.some.inj (hn.symm.trans hn')
    obtain ⟨j, hj, rfl⟩ := List.mem_iff_getElem.mp hm
    rcases Nat.eq_zero_or_pos j with rfl | hpos
    · exact hless.ne hget
    · exact lt_asymm hless (hget ▸ hsorted 0 j hlt hj hpos)
  · intro hi
    have hpos : 0 < d.waiting.length := by omega
    exact ⟨n, hn, d.waiting[0], List.getElem_mem hpos,
      hget ▸ hsorted 0 i hpos hlt (Nat.pos_of_ne_zero hi)⟩

/-- Nobody is overtaken: the log goes on with those that wait. -/
def Queued (d : Desk) : Prop := d.log ++ d.waiting = List.range d.next

lemma Queued.inv (h : d.Queued) : Inv d := by
  have hsub : d.waiting.Sublist (List.range d.next) := by
    rw [← h]
    exact List.sublist_append_right _ _
  exact ⟨List.Perm.of_eq h, List.pairwise_lt_range.sublist hsub⟩

lemma Queued.inOrder (h : d.Queued) : d.InOrder := by
  have htake := congrArg (List.take d.log.length) h
  have hlen := congrArg List.length h
  rw [List.length_append, List.length_range] at hlen
  rw [List.take_left, List.take_range, min_eq_left (by omega)] at htake
  exact htake

/-- A step that overtakes nobody keeps the queue. -/
lemma Queued.step {e : Event} (h : d.Queued) (hstep : d.step e = some d')
    (hfirst : ¬d.Overtakes e) : d'.Queued := by
  cases e with
  | take =>
    obtain rfl := Option.some.inj hstep
    rw [Queued, ← List.append_assoc, h, List.range_succ]
  | enter i =>
    obtain ⟨n, hn, rfl⟩ := Option.map_eq_some_iff.mp hstep
    obtain rfl := not_not.mp (mt (h.inv.overtakes_iff hn).mpr hfirst)
    rw [Queued, ← h, List.append_assoc]
    refine congrArg (d.log ++ ·) ?_
    cases hw : d.waiting with
    | nil => simp [hw] at hn
    | cons m rest =>
      rw [hw] at hn
      obtain rfl := Option.some.inj hn
      rfl

/-- Who overtakes another enters a number that is not the next one of the log. -/
lemma Inv.not_inOrder {e : Event} (h : Inv d) (hover : d.Overtakes e) (hstep : d.step e = some d') :
    ¬d'.InOrder := by
  cases e with
  | take => exact hover.elim
  | enter i =>
    obtain ⟨n, hn, rfl⟩ := Option.map_eq_some_iff.mp hstep
    obtain ⟨n', hn', m, hm, hless⟩ := hover
    obtain rfl := Option.some.inj (hn.symm.trans hn')
    intro horder
    rw [InOrder, List.length_append, List.length_singleton, List.range_succ] at horder
    obtain ⟨hlog, hnext⟩ := List.append_inj' horder rfl
    obtain rfl := List.singleton_inj.mp hnext
    -- the smaller number that waits is in the log already
    have hmem : m ∈ d.log := by
      rw [hlog]
      exact List.mem_range.mpr (by simpa using hless)
    exact (List.disjoint_of_nodup_append (h.perm.nodup_iff.mpr List.nodup_range)) hmem hm

/-- The log is in order throughout a run exactly when nobody is overtaken. -/
theorem inOrder_iff (h : Run step start hist d) :
    (∀ z ∈ states hist d, z.InOrder) ↔ ∀ x ∈ hist, ¬x.1.Overtakes x.2 :=
  h.forall_iff (J := Inv) (Q := Queued) inv_start rfl (fun _ hy => hy.inOrder)
    (fun _ _ _ hy hstep => hy.step hstep) (fun _ _ _ hy hstep hgood => hy.step hstep hgood)
    fun _ _ _ hy hstep hbad => hy.not_inOrder hbad hstep

end Desk

end Tickets
