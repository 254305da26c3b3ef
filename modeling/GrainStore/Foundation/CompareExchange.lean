import Mathlib
import GrainStore.Foundation.Trace

/-!
# Compare-exchange loops

A cell that any number of threads update in a loop: load the cell, compute its next value from what
was observed, and exchange it if the cell still holds that; otherwise observe the cell again and
retry.  An exchange may fail although the cell did not change.

The exchanges that succeed update the cell one after the other, each as it is at that moment: what
the loops return is what the update would return in as many calls made one after the other
(`returned_eq`), whatever the interleaving.
-/

namespace CompareExchange

open Trace

variable {T σ ρ : Type*}

/-- The cell, what each thread that is in the loop observed last, and what the loops have returned,
in the order of the exchanges. -/
structure State (T σ ρ : Type*) where
  cell : σ
  observed : T → Option σ
  returned : List (T × ρ)

inductive Event (T : Type*) where
  /-- Enter the loop with a load. -/
  | load (t : T)
  /-- The exchange succeeds; the loop returns. -/
  | exchange (t : T)
  /-- The exchange fails, because the cell has changed or spuriously. -/
  | fail (t : T)
  deriving DecidableEq, Repr

namespace State

/-- Nobody is in the loop. -/
def start (cell : σ) : State T σ ρ := ⟨cell, fun _ => none, []⟩

variable [DecidableEq T] [DecidableEq σ] (update : σ → σ × ρ)

def step (s : State T σ ρ) : Event T → Option (State T σ ρ)
  | .load t =>
    match s.observed t with
    | none => some { s with observed := Function.update s.observed t (some s.cell) }
    | some _ => none
  | .exchange t =>
    match s.observed t with
    | none => none
    | some prev =>
      if s.cell = prev then
        some { cell := (update prev).1, observed := Function.update s.observed t none,
               returned := s.returned ++ [(t, (update prev).2)] }
      else none
  | .fail t =>
    match s.observed t with
    | none => none
    | some _ => some { s with observed := Function.update s.observed t (some s.cell) }

variable {update} {s s' : State T σ ρ} {hist : List (State T σ ρ × Event T)} {cell : σ}

/-- What a step can do to the cell and to what was returned: nothing, or one update. -/
lemma step_cases {e : Event T} (h : s.step update e = some s') :
    s'.cell = s.cell ∧ s'.returned = s.returned ∨
      ∃ t, s'.cell = (update s.cell).1 ∧ s'.returned = s.returned ++ [(t, (update s.cell).2)] := by
  cases e with
  | load t =>
    simp only [step] at h
    split at h
    · obtain rfl := Option.some.inj h
      exact Or.inl ⟨rfl, rfl⟩
    · cases h
  | exchange t =>
    simp only [step] at h
    split at h
    · cases h
    · split at h
      · rename_i prev _ hcell
        obtain rfl := Option.some.inj h
        exact Or.inr ⟨t, by rw [hcell], by rw [hcell]⟩
      · cases h
  | fail t =>
    simp only [step] at h
    split at h
    · cases h
    · obtain rfl := Option.some.inj h
      exact Or.inl ⟨rfl, rfl⟩

/-- The cell and the results after `n` calls made one after the other. -/
def Serial (update : σ → σ × ρ) (cell : σ) (n : ℕ) (cell' : σ) (results : List ρ) : Prop :=
  cell' = (fun c => (update c).1)^[n] cell ∧
    results = (List.range n).map fun i => (update ((fun c => (update c).1)^[i] cell)).2

/-- The loops return what as many calls made one after the other would. -/
theorem returned_eq (h : Run (step update) (start cell) hist s) :
    Serial update cell s.returned.length s.cell (s.returned.map Prod.snd) := by
  refine h.invariant (I := fun s : State T σ ρ =>
    Serial update cell s.returned.length s.cell (s.returned.map Prod.snd)) ⟨rfl, rfl⟩ ?_
  rintro y e z ⟨hcell, hresults⟩ hstep
  rcases step_cases hstep with ⟨hc, hr⟩ | ⟨t, hc, hr⟩
  · rw [hc, hr]
    exact ⟨hcell, hresults⟩
  · rw [hc, hr, List.length_append, List.length_singleton]
    refine ⟨?_, ?_⟩
    · rw [Function.iterate_succ_apply', ← hcell]
    · rw [List.range_succ, List.map_append, List.map_append, ← hresults, List.map_singleton,
        List.map_singleton, ← hcell]

end State

end CompareExchange
