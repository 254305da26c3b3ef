import Mathlib

/-!
# Exploring a graph

A worklist search keeps what it has seen and what of it is still to be expanded.  `Explored` is its
invariant: when nothing is left to expand, what was seen is what the start reaches
(`Explored.mem_iff`).

`Connected.insert` adds a node to a connected part of a graph.
-/

namespace Worklist

open Relation

variable {α : Type*} {edge edge' : α → α → Prop} {start x y : α} {seen seen' todo todo' : Set α}

/-- Everything seen is reached from the start, and its neighbours are seen unless it is still to be
expanded. -/
structure Explored (edge : α → α → Prop) (start : α) (seen todo : Set α) : Prop where
  start_mem : start ∈ seen
  reached : ∀ x ∈ seen, ReflTransGen edge start x
  closed : ∀ x ∈ seen, x ∉ todo → ∀ y, edge x y → y ∈ seen

lemma explored_start : Explored edge start {start} {start} where
  start_mem := rfl
  reached x hx := by
    obtain rfl := Set.mem_singleton_iff.mp hx
    exact ReflTransGen.refl
  closed x hx hnot := absurd hx hnot

/-- Expanding an item sees all its neighbours. -/
theorem Explored.expand (h : Explored edge start seen todo) (hx : x ∈ seen)
    (hseen : ∀ y, y ∈ seen' ↔ y ∈ seen ∨ edge x y) (htodo : ∀ y ∈ todo, y ≠ x → y ∈ todo')
    (hnew : ∀ y, edge x y → y ∉ seen → y ∈ todo') : Explored edge start seen' todo' where
  start_mem := (hseen start).mpr (Or.inl h.start_mem)
  reached y hy := by
    rcases (hseen y).mp hy with hy | hedge
    · exact h.reached y hy
    · exact (h.reached x hx).tail hedge
  closed y hy hnot z hedge := by
    rw [hseen]
    by_cases hold : y ∈ seen
    · by_cases hyx : y = x
      · exact Or.inr (hyx ▸ hedge)
      · exact Or.inl (h.closed y hold (fun ht => hnot (htodo y ht hyx)) z hedge)
    · exact absurd (hnew y (((hseen y).mp hy).resolve_left hold) hold) hnot

/-- When nothing is left to expand, what was seen is what is reached. -/
theorem Explored.mem_iff (h : Explored edge start seen ∅) :
    x ∈ seen ↔ ReflTransGen edge start x := by
  refine ⟨h.reached x, ?_⟩
  intro hreach
  induction hreach with
  | refl => exact h.start_mem
  | tail _ hedge ih => exact h.closed _ ih (Set.notMem_empty _) _ hedge

/-- What is closed under the edges contains all that one of its members reaches. -/
lemma mem_of_reaches (seen : Set α) (hclosed : ∀ x ∈ seen, ∀ y, edge x y → y ∈ seen) (hx : x ∈ seen)
    (h : ReflTransGen edge x y) : y ∈ seen := by
  induction h with
  | refl => exact hx
  | tail _ hedge ih => exact hclosed _ ih _ hedge

/-- All nodes of a set reach each other. -/
def Connected (edge : α → α → Prop) (nodes : Set α) : Prop :=
  ∀ x ∈ nodes, ∀ y ∈ nodes, ReflTransGen edge x y

variable {nodes : Set α}

lemma connected_singleton : Connected edge {x} := by
  rintro a rfl b rfl
  exact ReflTransGen.refl

lemma Connected.mono (h : Connected edge nodes) (hedge : ∀ x y, edge x y → edge' x y) :
    Connected edge' nodes :=
  fun x hx y hy => ReflTransGen.mono hedge _ _ (h x hx y hy)

/-- A node linked to a member in both directions. -/
theorem Connected.insert (h : Connected edge nodes) (hy : y ∈ nodes) (hxy : edge x y)
    (hyx : edge y x) : Connected edge (insert x nodes) := by
  rintro a (rfl | ha) b (rfl | hb)
  · exact ReflTransGen.refl
  · exact ReflTransGen.head hxy (h y hy b hb)
  · exact (h a ha y hy).tail hyx
  · exact h a ha b hb

end Worklist
