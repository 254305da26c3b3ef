import Mathlib
import GrainStore.Model

/-!
# Hybrid logical clock oracle

A single-node oracle is a monotonic counter that never issues a duplicate.
-/

namespace GrainStore

/-- Issues strictly increasing, unique timestamps. -/
structure HlcOracle where
  last : U64
  deriving DecidableEq, Repr

namespace HlcOracle

/-- A fresh oracle; the first `next` returns 1. -/
def new : HlcOracle := ⟨0⟩

/-- Resume after recovery so the clock never moves backwards. -/
def resumeFrom (highWatermark : U64) : HlcOracle := ⟨highWatermark⟩

/-- Allocate the next timestamp.  At the largest `u64` the addition `prev + 1` overflows: in a build
with overflow checks the calling thread panics and no timestamp is issued.  One without them would
start over at 0 there, and is not followed that far. -/
def next (o : HlcOracle) : Option (U64 × HlcOracle) :=
  if o.last.toNat + 1 < 2 ^ 64 then some (o.last + 1, ⟨o.last + 1⟩) else none

/-- The most recently issued timestamp. -/
def now (o : HlcOracle) : U64 := o.last

/-- An issued timestamp is the successor of the last one, without overflow, and becomes the
last one. -/
lemma next_eq_some {o : HlcOracle} {p : U64 × HlcOracle} (h : o.next = some p) :
    o.last.toNat + 1 < 2 ^ 64 ∧ p = (o.last + 1, ⟨o.last + 1⟩) := by
  unfold next at h
  split at h
  · exact ⟨‹_›, (Option.some.inj h).symm⟩
  · simp at h

/-- Below the largest `u64` a timestamp is issued. -/
lemma next_of_lt {o : HlcOracle} (h : o.last.toNat + 1 < 2 ^ 64) :
    o.next = some (o.last + 1, ⟨o.last + 1⟩) :=
  if_pos h

end HlcOracle

end GrainStore
