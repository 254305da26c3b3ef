import Mathlib

/-!
# Sizes

Arithmetic on `usize`s, and the room that vectors take.  A sum or a product that is too large panics
in a build with overflow checks and wraps around in one without; room for too many bytes panics in
every build.  No result is a panic.
-/

namespace GrainStore

/-- The largest `usize`. -/
def usizeMax : ℕ := 2 ^ 64 - 1

/-- The largest `isize`, and so the largest number of bytes of a vector. -/
def isizeMax : ℕ := 2 ^ 63 - 1

/-- `usize::saturating_mul`. -/
def saturatingMul (a b : ℕ) : ℕ := min (a * b) usizeMax

/-- The `usize` that an operation gives whose exact result is `n`. -/
def toUsize (overflowChecks : Bool) (n : ℕ) : Option ℕ :=
  if n ≤ usizeMax then some n
  else if overflowChecks then none
  else some (n % (usizeMax + 1))

/-- A sum of two `usize`s. -/
def addUsize (overflowChecks : Bool) (a b : ℕ) : Option ℕ := toUsize overflowChecks (a + b)

/-- A product of two `usize`s. -/
def mulUsize (overflowChecks : Bool) (a b : ℕ) : Option ℕ := toUsize overflowChecks (a * b)

/-- `Vec::with_capacity`, for items of `size` bytes; too many bytes panic. -/
def withCapacity (size n : ℕ) : Option ℕ := if n * size ≤ isizeMax then some n else none

variable {overflowChecks : Bool} {size n : ℕ}

lemma toUsize_of_le (h : n ≤ usizeMax) : toUsize overflowChecks n = some n := if_pos h

lemma withCapacity_eq_some_iff {m : ℕ} :
    withCapacity size n = some m ↔ n * size ≤ isizeMax ∧ n = m := by
  rw [withCapacity]
  split <;> simp_all

/-- Room for one more than `n` items: it is there when so many fit, and when one more than the
largest `usize` wraps around to none. -/
lemma addUsize_one_bind_withCapacity (h : n ≤ usizeMax) (hsize : 0 < size) {m : ℕ} :
    (addUsize overflowChecks n 1).bind (withCapacity size) = some m ↔
      (n + 1) * size ≤ isizeMax ∧ m = n + 1 ∨ overflowChecks = false ∧ n = usizeMax ∧ m = 0 := by
  by_cases hlast : n = usizeMax
  · have hlarge : ¬(usizeMax + 1) * size ≤ isizeMax := by
      have hle := Nat.le_mul_of_pos_right (usizeMax + 1) hsize
      have hlt : isizeMax < usizeMax + 1 := by decide
      omega
    subst hlast
    rw [addUsize, toUsize, if_neg (Nat.not_succ_le_self _), Nat.mod_self, and_iff_right rfl,
      or_iff_right fun h => hlarge h.1]
    cases overflowChecks with
    | true => simp
    | false => simp [withCapacity, eq_comm]
  · rw [addUsize, toUsize_of_le (by omega), Option.bind_some, withCapacity_eq_some_iff,
      or_iff_left fun h => hlast h.2.1, eq_comm (a := n + 1)]

end GrainStore
