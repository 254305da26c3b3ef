import Mathlib

/-!
# Checked loops

Loops whose steps may have no result, and updates of a list at an index that is checked.  A loop
that keeps an invariant under which every step has a result has one.
-/

namespace Checked

variable {α β : Type*}

/-- A loop whose steps all have results has the result of the loop that does not check. -/
lemma foldlM_eq_some {f : β → α → Option β} {g : β → α → β} {P : β → Prop} {l : List α} {b : β}
    (hstep : ∀ b, ∀ a ∈ l, P b → f b a = some (g b a) ∧ P (g b a)) (hb : P b) :
    l.foldlM f b = some (l.foldl g b) ∧ P (l.foldl g b) := by
  induction l generalizing b with
  | nil => exact ⟨rfl, hb⟩
  | cons a l ih =>
    obtain ⟨heq, hnext⟩ := hstep b a List.mem_cons_self hb
    rw [List.foldlM_cons, heq]
    exact ih (fun b' a' ha' => hstep b' a' (List.mem_cons_of_mem _ ha')) hnext

/-- A loop whose steps all have results has one. -/
lemma exists_foldlM {f : β → α → Option β} {P : β → Prop} {l : List α} {b : β}
    (hstep : ∀ b, ∀ a ∈ l, P b → ∃ b', f b a = some b' ∧ P b') (hb : P b) :
    ∃ b', l.foldlM f b = some b' ∧ P b' := by
  induction l generalizing b with
  | nil => exact ⟨b, rfl, hb⟩
  | cons a l ih =>
    obtain ⟨b', heq, hnext⟩ := hstep b a List.mem_cons_self hb
    rw [List.foldlM_cons, heq]
    exact ih (fun b' a' ha' => hstep b' a' (List.mem_cons_of_mem _ ha')) hnext

lemma mapM_eq_filterMap {f : α → Option β} {l : List α} (h : ∀ a ∈ l, (f a).isSome) :
    l.mapM f = some (l.filterMap f) := by
  induction l with
  | nil => rfl
  | cons a l ih =>
    obtain ⟨b, hb⟩ := Option.isSome_iff_exists.mp (h a List.mem_cons_self)
    rw [List.mapM_cons, hb, ih fun a' ha' => h a' (List.mem_cons_of_mem _ ha'),
      List.filterMap_cons, hb]
    rfl

/-- A list is mapped, item by item. -/
lemma exists_mapM {f : α → Option β} {R : α → β → Prop} {l : List α}
    (h : ∀ a ∈ l, ∃ b, f a = some b ∧ R a b) : ∃ bs, l.mapM f = some bs ∧ List.Forall₂ R l bs := by
  induction l with
  | nil => exact ⟨[], rfl, .nil⟩
  | cons a l ih =>
    obtain ⟨b, hb, hR⟩ := h a List.mem_cons_self
    obtain ⟨bs, hbs, hall⟩ := ih fun a' ha' => h a' (List.mem_cons_of_mem _ ha')
    refine ⟨b :: bs, ?_, .cons hR hall⟩
    rw [List.mapM_cons, hb, hbs]
    rfl

lemma exists_of_forall₂ {R : α → β → Prop} {l : List α} {l' : List β} (h : List.Forall₂ R l l')
    {b : β} (hb : b ∈ l') : ∃ a ∈ l, R a b := by
  induction h with
  | nil => simp at hb
  | @cons a b' l l' hR _ ih =>
    rcases List.mem_cons.mp hb with rfl | hb
    · exact ⟨a, List.mem_cons_self, hR⟩
    · obtain ⟨a', ha', hR'⟩ := ih hb
      exact ⟨a', List.mem_cons_of_mem a ha', hR'⟩

/-- Change the item at an index, if there is one. -/
def modify (l : List α) (i : ℕ) (f : α → α) : Option (List α) :=
  if i < l.length then some (l.modify i f) else none

lemma modify_of_lt {l : List α} {i : ℕ} (h : i < l.length) (f : α → α) :
    modify l i f = some (l.modify i f) := if_pos h

end Checked
