import Mathlib

/-!
# Runs of a labelled transition system

A system is a partial step function `next : σ → ε → Option σ`: the label `ε` resolves what the
environment chooses.  `Run next x hist y` says that the system goes from `x` to `y` through the
steps `hist`, each recorded as the state it starts in and its label.

`Run.invariant` is the invariant rule.  `Run.forall_iff` is the rule for an exact condition: when
a property of states is lost exactly at the bad steps, a run keeps it throughout exactly when no
step of the run is bad.
-/

namespace Trace

variable {σ ε : Type*}

/-- The runs of a system from a state. -/
inductive Run (next : σ → ε → Option σ) (x : σ) : List (σ × ε) → σ → Prop
  | start : Run next x [] x
  | step {hist : List (σ × ε)} {y z : σ} {e : ε} :
    Run next x hist y → next y e = some z → Run next x (hist ++ [(y, e)]) z

/-- The states a run goes through, the last one included. -/
def states (hist : List (σ × ε)) (y : σ) : List σ := hist.map Prod.fst ++ [y]

/-- Execute a list of labels, collecting the steps. -/
def exec (next : σ → ε → Option σ) (x : σ) : List ε → Option (List (σ × ε) × σ)
  | [] => some ([], x)
  | e :: es =>
    match next x e with
    | none => none
    | some y => (exec next y es).map fun p => ((x, e) :: p.1, p.2)

variable {next : σ → ε → Option σ} {x y z : σ} {hist : List (σ × ε)}

lemma mem_states_self : y ∈ states hist y :=
  List.mem_append_right _ List.mem_cons_self

lemma states_concat (e : ε) : states (hist ++ [(y, e)]) z = states hist y ++ [z] := by
  simp [states]

/-- A run can be continued by a run from its last state. -/
lemma Run.trans {hist' : List (σ × ε)} (h : Run next x hist y) (h' : Run next y hist' z) :
    Run next x (hist ++ hist') z := by
  induction h' with
  | start => rwa [List.append_nil]
  | step _ hstep ih =>
    rw [← List.append_assoc]
    exact ih.step hstep

/-- A state is reached from another when some run goes there. -/
def Reaches (next : σ → ε → Option σ) (x y : σ) : Prop := ∃ hist, Run next x hist y

lemma Reaches.refl (x : σ) : Reaches next x x := ⟨[], Run.start⟩

lemma Reaches.trans (h : Reaches next x y) (h' : Reaches next y z) : Reaches next x z := by
  obtain ⟨hist, hrun⟩ := h
  obtain ⟨hist', hrun'⟩ := h'
  exact ⟨hist ++ hist', hrun.trans hrun'⟩

lemma Reaches.head {e : ε} (hstep : next x e = some y) (h : Reaches next y z) :
    Reaches next x z :=
  Reaches.trans ⟨_, Run.start.step hstep⟩ h

/-- Executing a list of labels executes the first of them, and then the others. -/
lemma exists_of_exec_cons {e : ε} {es : List ε} (h : exec next x (e :: es) = some (hist, y)) :
    ∃ z hist', next x e = some z ∧ exec next z es = some (hist', y) ∧ hist = (x, e) :: hist' := by
  rw [exec] at h
  cases hstep : next x e with
  | none => simp [hstep] at h
  | some z =>
    rw [hstep] at h
    obtain ⟨⟨hist', y'⟩, hexec, heq⟩ := Option.map_eq_some_iff.mp h
    obtain ⟨rfl, rfl⟩ := Prod.mk.inj heq
    exact ⟨z, hist', rfl, hexec, rfl⟩

/-- Executing a list of labels is a run. -/
theorem run_of_exec {es : List ε} (h : exec next x es = some (hist, y)) :
    Run next x hist y := by
  induction es generalizing x hist with
  | nil =>
    obtain ⟨rfl, rfl⟩ := Prod.mk.inj (Option.some.inj h)
    exact Run.start
  | cons e es ih =>
    obtain ⟨z, hist', hstep, hexec, rfl⟩ := exists_of_exec_cons h
    exact (Run.start.step hstep).trans (ih hexec)

/-- Executing a list of labels takes the steps it says. -/
lemma map_snd_of_exec {es : List ε} (h : exec next x es = some (hist, y)) :
    hist.map Prod.snd = es := by
  induction es generalizing x hist with
  | nil =>
    obtain ⟨rfl, -⟩ := Prod.mk.inj (Option.some.inj h)
    rfl
  | cons e es ih =>
    obtain ⟨z, hist', -, hexec, rfl⟩ := exists_of_exec_cons h
    rw [List.map_cons, ih hexec]

/-- Every state of a run is reached by its first steps, and the run goes on from it. -/
lemma Run.exists_split (h : Run next x hist y) (hz : z ∈ states hist y) :
    ∃ hist₁ hist₂, hist = hist₁ ++ hist₂ ∧ Run next x hist₁ z ∧ Run next z hist₂ y := by
  induction h with
  | start =>
    obtain rfl := List.mem_singleton.mp hz
    exact ⟨[], [], rfl, Run.start, Run.start⟩
  | step hrun hstep ih =>
    rw [states_concat] at hz
    rcases List.mem_append.mp hz with hz | hz
    · obtain ⟨hist₁, hist₂, rfl, h₁, h₂⟩ := ih hz
      exact ⟨hist₁, _, List.append_assoc _ _ _, h₁, h₂.step hstep⟩
    · obtain rfl := List.mem_singleton.mp hz
      exact ⟨_, [], (List.append_nil _).symm, hrun.step hstep, Run.start⟩

/-- The last step of a run. -/
lemma Run.of_concat {s : σ × ε} (h : Run next x (hist ++ [s]) z) :
    Run next x hist s.1 ∧ next s.1 s.2 = some z := by
  generalize hx : hist ++ [s] = l at h
  cases h with
  | start => simp at hx
  | step hrun hstep =>
    obtain ⟨rfl, hs⟩ := List.append_inj' hx rfl
    obtain rfl := List.singleton_inj.mp hs
    exact ⟨hrun, hstep⟩

/-- A step of a run, with the run before it and the run after it. -/
lemma Run.of_append_cons {s : σ × ε} {hist' : List (σ × ε)}
    (h : Run next x (hist ++ s :: hist') z) :
    ∃ y, Run next x hist s.1 ∧ next s.1 s.2 = some y ∧ Run next y hist' z := by
  induction hist' using List.reverseRecOn generalizing z with
  | nil =>
    obtain ⟨hrun, hstep⟩ := h.of_concat
    exact ⟨z, hrun, hstep, Run.start⟩
  | append_singleton hist' s' ih =>
    rw [← List.cons_append, ← List.append_assoc] at h
    obtain ⟨hrun, hstep'⟩ := h.of_concat
    obtain ⟨y, hbefore, hstep, hafter⟩ := ih hrun
    exact ⟨y, hbefore, hstep, hafter.step hstep'⟩

/-- The invariant rule. -/
theorem Run.invariant {I : σ → Prop} (hstart : I x)
    (hstep : ∀ y e z, I y → next y e = some z → I z) (h : Run next x hist y) : I y := by
  induction h with
  | start => exact hstart
  | step _ hnext ih => exact hstep _ _ _ ih hnext

/-- What every step does between its ends holds between any two states of a run. -/
theorem Run.pairwise_states {R : σ → σ → Prop} (hrefl : ∀ y, R y y)
    (htrans : ∀ x y z, R x y → R y z → R x z) (hstep : ∀ y e z, next y e = some z → R y z)
    (h : Run next x hist y) : (states hist y).Pairwise R := by
  suffices hlast : (∀ w ∈ states hist y, R w y) ∧ (states hist y).Pairwise R from hlast.2
  induction h with
  | start => exact ⟨by simp [states, hrefl], List.pairwise_singleton R x⟩
  | @step hist y z e _ hnext ih =>
    have hbefore : ∀ w ∈ states hist y, R w z := fun w hw =>
      htrans w y z (ih.1 w hw) (hstep y e z hnext)
    rw [states_concat]
    refine ⟨fun w hw => ?_, List.pairwise_append.mpr ⟨ih.2, List.pairwise_singleton R z, ?_⟩⟩
    · rcases List.mem_append.mp hw with hw | hw
      · exact hbefore w hw
      · rw [List.mem_singleton.mp hw]
        exact hrefl z
    · intro w hw z' hz'
      rw [List.mem_singleton.mp hz']
      exact hbefore w hw

/-- A run of one system is a run of another that follows it step by step. -/
theorem Run.map {τ δ : Type*} {next' : τ → δ → Option τ} (f : σ → τ) (g : ε → δ)
    (hstep : ∀ y e z, next y e = some z → next' (f y) (g e) = some (f z))
    (h : Run next x hist y) : Run next' (f x) (hist.map fun s => (f s.1, g s.2)) (f y) := by
  induction h with
  | start => exact Run.start
  | step _ hnext ih =>
    rw [List.map_append]
    exact ih.step (hstep _ _ _ hnext)

/-- The rule for an exact condition.  `J` is an invariant of all runs.  `Q` is a strengthening of
the property `P` that every step keeps unless it is bad, and after a bad step `P` fails.  Then `P`
holds throughout a run exactly when no step of it is bad. -/
theorem Run.forall_iff {J P Q : σ → Prop} {B : σ → ε → Prop} (hJ : J x) (hQ : Q x)
    (hQP : ∀ y, Q y → P y) (hstepJ : ∀ y e z, J y → next y e = some z → J z)
    (hgood : ∀ y e z, Q y → next y e = some z → ¬B y e → Q z)
    (hbad : ∀ y e z, J y → next y e = some z → B y e → ¬P z) (h : Run next x hist y) :
    (∀ z ∈ states hist y, P z) ↔ ∀ s ∈ hist, ¬B s.1 s.2 := by
  constructor
  · intro hall s hs hs_bad
    induction h with
    | start => simp at hs
    | @step hist y z e hrun hnext ih =>
      rw [states_concat] at hall
      rcases List.mem_append.mp hs with hs | hs
      · exact ih (fun w hw => hall w (List.mem_append_left _ hw)) hs
      · obtain rfl := List.mem_singleton.mp hs
        exact hbad y e z (hrun.invariant hJ hstepJ) hnext hs_bad
          (hall z (List.mem_append_right _ List.mem_cons_self))
  · intro hall
    suffices hboth : Q y ∧ ∀ z ∈ states hist y, Q z from fun z hz => hQP z (hboth.2 z hz)
    induction h with
    | start => exact ⟨hQ, by simpa [states] using hQ⟩
    | @step hist y z e hrun hnext ih =>
      obtain ⟨hy, hbefore⟩ := ih fun s hs => hall s (List.mem_append_left _ hs)
      have hz : Q z := hgood y e z hy hnext (hall (y, e) (List.mem_append_right _ List.mem_cons_self))
      refine ⟨hz, ?_⟩
      intro w hw
      rw [states_concat] at hw
      rcases List.mem_append.mp hw with hw | hw
      · exact hbefore w hw
      · rwa [List.mem_singleton.mp hw]

end Trace
