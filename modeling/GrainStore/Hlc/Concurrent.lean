import Mathlib
import GrainStore.Foundation.CompareExchange
import GrainStore.Hlc

/-!
# The clock under contention

`HlcOracle::next` as the compare-exchange loop it is, run by any number of threads in any
interleaving: `timestamps_unique` says that the timestamps issued are one after the other, each
once.  `prev + 1` wraps here, as it does where overflow is not checked, so that both builds are
covered: where it is checked, a thread that panics at the end of the clock takes no more steps, and
that is an interleaving too.
-/

namespace GrainStore

open Trace CompareExchange

namespace HlcOracle

variable {T : Type*} [DecidableEq T]

/-- What `next` exchanges the last timestamp for, and what it returns. -/
def advance (prev : U64) : U64 × U64 :=
  let next := prev + 1
  (next, next)

/-- The oracle in a state of its threads. -/
def oracle (s : State T U64 U64) : HlcOracle := ⟨s.cell⟩

/-- The oracle as `resume_from` leaves it, with no thread in `next`. -/
def resumed (T : Type*) (highWatermark : U64) : State T U64 U64 :=
  State.start (resumeFrom highWatermark).last

/-- A call of `next` that is not interrupted is `HlcOracle.next`, before the end of the clock. -/
lemma next_eq_advance {o : HlcOracle} (h : o.last.toNat + 1 < 2 ^ 64) :
    o.next = some ((advance o.last).2, ⟨(advance o.last).1⟩) := next_of_lt h

lemma iterate_advance (v : U64) (n : ℕ) : (fun c => (advance c).1)^[n] v = v + BitVec.ofNat 64 n := by
  induction n with
  | zero => simp
  | succ n ih =>
    rw [Function.iterate_succ_apply', ih, BitVec.ofNat_add, ← BitVec.add_assoc]
    rfl

variable {s : State T U64 U64} {hist : List (State T U64 U64 × Event T)} {v : U64}

/-- The timestamps issued so far, in the order they were issued. -/
lemma issued_eq (h : Run (State.step advance) (resumed T v) hist s)
    (hfew : s.returned.length < 2 ^ 64 - v.toNat) :
    s.cell.toNat = v.toNat + s.returned.length ∧
      s.returned.map (fun r => r.2.toNat) = List.range' (v.toNat + 1) s.returned.length := by
  obtain ⟨hcell, hresults⟩ := State.returned_eq h
  have hadd : ∀ n, n ≤ s.returned.length → (v + BitVec.ofNat 64 n).toNat = v.toNat + n := by
    intro n hn
    rw [BitVec.toNat_add, BitVec.toNat_ofNat]
    omega
  refine ⟨?_, ?_⟩
  · rw [hcell]
    exact (congrArg BitVec.toNat (iterate_advance v _)).trans (hadd _ le_rfl)
  · have hnat := congrArg (List.map BitVec.toNat) hresults
    rw [List.map_map, List.map_map] at hnat
    rw [List.range'_eq_map_range]
    refine hnat.trans (List.map_congr_left fun i hi => ?_)
    have hlt := List.mem_range.mp hi
    calc (advance ((fun c => (advance c).1)^[i] v)).2.toNat
        = ((fun c => (advance c).1)^[i + 1] v).toNat := by
          rw [Function.iterate_succ_apply']
          rfl
      _ = v.toNat + (i + 1) := by rw [iterate_advance, hadd _ hlt]
      _ = v.toNat + 1 + i := by omega

/-- Timestamps are unique and gap-free.  Take any number of threads and any interleaving of the
loads, the successful and the failed compare-exchanges of their calls of `next`, from a last
timestamp `v`, with fewer than `2^64 - v` timestamps issued.  These are `v + 1` up to the current
one, each once and in this order, those of each thread are ascending, and `now` is not less than any
of them. -/
theorem timestamps_unique (h : Run (State.step advance) (resumed T v) hist s)
    (hfew : s.returned.length < 2 ^ 64 - v.toNat) :
    s.returned.map (fun r => r.2.toNat) = List.range' (v.toNat + 1) s.returned.length ∧
      (oracle s).now.toNat = v.toNat + s.returned.length ∧
      (s.returned.map Prod.snd).Nodup ∧
      (∀ t, ((s.returned.filter fun r => r.1 = t).map Prod.snd).Pairwise (· < ·)) ∧
      ∀ r ∈ s.returned, r.2 ≤ (oracle s).now := by
  obtain ⟨hcell, hissued⟩ := issued_eq h hfew
  have hsorted : s.returned.Pairwise fun r r' => r.2 < r'.2 := by
    have hpair : (List.range' (v.toNat + 1) s.returned.length).Pairwise (· < ·) :=
      List.pairwise_lt_range'
    rw [← hissued] at hpair
    exact (List.pairwise_map.mp hpair).imp BitVec.lt_def.mpr
  refine ⟨hissued, hcell, ?_, ?_, ?_⟩
  · exact List.pairwise_map.mpr (hsorted.imp fun hlt => ne_of_lt hlt)
  · intro t
    exact List.pairwise_map.mpr (hsorted.filter _)
  · intro r hr
    have hmem : r.2.toNat ∈ s.returned.map fun r => r.2.toNat := List.mem_map_of_mem hr
    rw [hissued, List.mem_range'_1] at hmem
    rw [BitVec.le_def, now, oracle, hcell]
    omega

/-- Two threads load the same timestamp; the second one fails, observes the first one's and
retries. -/
theorem timestamps_unique_two :
    ∃ hist, ∃ s : State Bool U64 U64, Run (State.step advance) (resumed Bool 5) hist s ∧
      s.returned = [(false, 6), (true, 7)] ∧
      s.returned.map (fun r => r.2.toNat) = List.range' (5 + 1) s.returned.length := by
  have hexec : (exec (State.step advance) (resumed Bool 5)
      [.load false, .load true, .exchange false, .fail true, .exchange true]).map
        (fun p => p.2.returned) = some [(false, 6), (true, 7)] := by decide
  obtain ⟨⟨hist, s⟩, hrun, hreturned⟩ := Option.map_eq_some_iff.mp hexec
  dsimp only at hreturned
  refine ⟨hist, s, run_of_exec hrun, hreturned,
    (timestamps_unique (v := 5) (run_of_exec hrun) ?_).1⟩
  rw [hreturned]
  decide

end HlcOracle

end GrainStore
