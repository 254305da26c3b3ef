import Mathlib

/-!
# Seeking in an ordered map

`Std.ExtTreeMap` is an ordered finite map that is determined by its lookups.  This file
adds the range scan an ordered store needs: `seekGE? t k` is the first entry of `t`, in
key order, whose key is not below `k`.

`seekGE?_eq_some_iff` characterises the entry found: it is bound in the map, its key is not
below the target, and no bound key lies between.

`rangeGE t k` is all entries from there on.  What a class of keys without gaps takes up in key order
is one run of them (`takeWhile_filter_eq_filter`); the lists with one prefix are such a class
(`prefix_of_between`).

`firsts` walks a sorted list and keeps the first item of each group; `mem_firsts_iff` says which
items these are.
-/

namespace OrderedMap

open Std

lemma isLE_compare {α : Type*} [LinearOrder α] {a b : α} : (compare a b).isLE ↔ a ≤ b := by
  rw [Ordering.isLE_iff_ne_gt, ← ne_eq, compare_le_iff_le]

variable {α β : Type*} {cmp : α → α → Ordering} [TransCmp cmp]

/-- A lookup after an insertion, in terms of equality of keys. -/
lemma getElem?_insert_eq [LawfulEqCmp cmp] [DecidableEq α] (t : ExtTreeMap α β cmp) (k a : α)
    (v : β) : (t.insert k v)[a]? = if k = a then some v else t[a]? := by
  rw [ExtTreeMap.getElem?_insert]
  by_cases h : k = a
  · rw [if_pos h, if_pos (LawfulEqCmp.compare_eq_iff_eq.mpr h)]
  · rw [if_neg h, if_neg (mt LawfulEqCmp.compare_eq_iff_eq.mp h)]

/-- The second of two insertions under one key wins. -/
lemma insert_insert [LawfulEqCmp cmp] [DecidableEq α] (t : ExtTreeMap α β cmp) (k : α)
    (v w : β) : (t.insert k v).insert k w = t.insert k w := by
  refine ExtTreeMap.ext_getElem? ?_
  intro a
  rw [getElem?_insert_eq, getElem?_insert_eq, getElem?_insert_eq]
  split <;> rfl

/-- Inserting a key that is not bound, if it is not bound, inserts it. -/
lemma insertIfNew_of_none [LawfulEqCmp cmp] [DecidableEq α] {t : ExtTreeMap α β cmp} {k : α}
    (h : t[k]? = none) (v : β) : t.insertIfNew k v = t.insert k v := by
  have hk : k ∉ t := by simp [ExtTreeMap.mem_iff_isSome_getElem?, h]
  refine ExtTreeMap.ext_getElem? ?_
  intro a
  rw [ExtTreeMap.getElem?_insertIfNew, ExtTreeMap.getElem?_insert]
  simp [hk]

/-- The first entry, in key order, whose key is not below `k`. -/
def seekGE? (t : ExtTreeMap α β cmp) (k : α) : Option (α × β) :=
  t.toList.find? fun e => (cmp k e.1).isLE

/-- The entry found is bound in the map, is not below the target, and no bound key lies
between the target and it. -/
theorem seekGE?_eq_some_iff [LawfulEqCmp cmp] {t : ExtTreeMap α β cmp} {k a : α} {v : β} :
    seekGE? t k = some (a, v) ↔
      t[a]? = some v ∧ (cmp k a).isLE ∧
        ∀ b w, t[b]? = some w → (cmp k b).isLE → (cmp a b).isLE := by
  have hsorted := t.ordered_keys_toList
  rw [seekGE?]
  constructor
  · intro h
    obtain ⟨hle, as, bs, happ, has⟩ := List.find?_eq_some_iff_append.mp h
    have hmem : (a, v) ∈ t.toList := happ ▸ List.mem_append_right as List.mem_cons_self
    refine ⟨ExtTreeMap.mem_toList_iff_getElem?_eq_some.mp hmem, hle, fun b w hb hkb => ?_⟩
    have hbmem : (b, w) ∈ as ++ (a, v) :: bs :=
      happ ▸ ExtTreeMap.mem_toList_iff_getElem?_eq_some.mpr hb
    rw [happ, List.pairwise_append] at hsorted
    rcases List.mem_append.mp hbmem with hbas | hbrest
    · simpa [hkb] using has (b, w) hbas
    · rcases List.mem_cons.mp hbrest with heq | hbbs
      · obtain ⟨rfl, rfl⟩ := Prod.mk.inj heq
        simp [ReflCmp.compare_self]
      · have hlt := (List.pairwise_cons.mp hsorted.2.1).1 (b, w) hbbs
        rw [hlt]
        rfl
  · rintro ⟨ha, hka, hmin⟩
    have hmem : (a, v) ∈ t.toList := ExtTreeMap.mem_toList_iff_getElem?_eq_some.mpr ha
    obtain ⟨as, bs, happ⟩ := List.append_of_mem hmem
    refine List.find?_eq_some_iff_append.mpr ⟨hka, as, bs, happ, ?_⟩
    rintro ⟨b, w⟩ hb
    have hbt : t[b]? = some w :=
      ExtTreeMap.mem_toList_iff_getElem?_eq_some.mp (happ ▸ List.mem_append_left _ hb)
    rw [happ, List.pairwise_append] at hsorted
    have hlt : cmp b a = .lt := hsorted.2.2 (b, w) hb (a, v) List.mem_cons_self
    have hgt : cmp a b = .gt := OrientedCmp.gt_of_lt hlt
    by_contra hkb
    have hle : (cmp a b).isLE := hmin b w hbt (by
      simpa only [Bool.not_eq_true, Bool.not_eq_false'] using hkb)
    rw [hgt] at hle
    exact absurd hle (by decide)

/-- The entries, in key order, whose key is not below `k`. -/
def rangeGE (t : ExtTreeMap α β cmp) (k : α) : List (α × β) :=
  t.toList.filter fun e => (cmp k e.1).isLE

/-- From a bound on, the items of a class that starts there and has no gaps come first, and with no
others between them. -/
lemma takeWhile_filter_eq_filter {γ : Type*} {R : γ → γ → Prop} {P from_ : γ → Bool} {l : List γ}
    (hl : l.Pairwise R) (hfrom : ∀ a, P a → from_ a)
    (hgap : ∀ a b, from_ a → R a b → P b → P a) :
    (l.filter from_).takeWhile P = l.filter P := by
  induction l with
  | nil => rfl
  | cons a l ih =>
    obtain ⟨ha, hl⟩ := List.pairwise_cons.mp hl
    by_cases hP : P a
    · rw [List.filter_cons_of_pos (hfrom a hP), List.takeWhile_cons_of_pos hP,
        List.filter_cons_of_pos hP, ih hl]
    · rw [List.filter_cons_of_neg hP]
      by_cases hstart : from_ a
      · -- the class has not begun yet, so it does not begin later
        have hnone : l.filter P = [] :=
          List.filter_eq_nil_iff.mpr fun b hb hPb => hP (hgap a b hstart (ha b hb) hPb)
        rw [List.filter_cons_of_pos hstart, List.takeWhile_cons_of_neg hP, hnone]
      · rw [List.filter_cons_of_neg hstart, ih hl]

/-! ## Prefixes -/

section Prefixes

variable {α : Type*} [Ord α] {p l m : List α}

/-- A list is not below its prefixes. -/
lemma isLE_compare_of_prefix [ReflOrd α] (h : p <+: l) : (compare p l).isLE := by
  obtain ⟨a, rfl⟩ := h
  induction p with
  | nil =>
    cases a with
    | nil => rfl
    | cons x a => rfl
  | cons x p ih =>
    rw [List.cons_append, List.compare_cons_cons, compare_self]
    exact ih

/-- What lies between a list and one that starts with it starts with it. -/
theorem prefix_of_between [TransOrd α] [LawfulEqOrd α] (hp : (compare p l).isLE)
    (hl : (compare l m).isLE) (hm : p <+: m) : p <+: l := by
  induction p generalizing l m with
  | nil => exact List.nil_prefix
  | cons x p ih =>
    obtain ⟨a, rfl⟩ := hm
    cases l with
    | nil => simp at hp
    | cons y l =>
      rw [List.cons_append, List.compare_cons_cons] at hl
      rw [List.compare_cons_cons] at hp
      rcases Ordering.isLE_then_iff_or.mp hp with hlt | ⟨heq, hpl⟩
      · -- a larger first item would put the middle list above both
        have hle := Ordering.isLE_left_of_isLE_then hl
        rw [OrientedCmp.gt_of_lt hlt] at hle
        exact absurd hle (by decide)
      · obtain rfl := LawfulEqCmp.eq_of_compare heq
        rw [compare_self] at hl
        exact List.cons_prefix_cons.mpr ⟨rfl, ih hpl hl (List.prefix_append p a)⟩

end Prefixes

/-! ## The first of each group -/

section Firsts

variable {α γ : Type*} [LinearOrder γ] (group : α → γ)

/-- The items of a list that start a new group, when the items before it ended in group `last`. -/
def firsts (last : Option γ) : List α → List α
  | [] => []
  | a :: l => if last = some (group a) then firsts last l else a :: firsts (some (group a)) l

variable {group} {last : Option γ} {l : List α} {a : α}

lemma mem_of_mem_firsts (h : a ∈ firsts group last l) : a ∈ l := by
  induction l generalizing last with
  | nil => simp [firsts] at h
  | cons b l ih =>
    rw [firsts] at h
    split at h
    · exact List.mem_cons_of_mem _ (ih h)
    · rcases List.mem_cons.mp h with rfl | h
      · exact List.mem_cons_self
      · exact List.mem_cons_of_mem _ (ih h)

/-- In a sorted list the first items are in groups of their own, none of them the last one of
before. -/
lemma pairwise_firsts (last : Option γ) (hl : l.Pairwise fun a b => group a ≤ group b)
    (hlast : ∀ c, last = some c → ∀ b ∈ l, c ≤ group b) :
    (firsts group last l).Pairwise (fun a b => group a < group b) ∧
      ∀ c, last = some c → ∀ b ∈ firsts group last l, c < group b := by
  induction l generalizing last with
  | nil => exact ⟨List.Pairwise.nil, by simp [firsts]⟩
  | cons a l ih =>
    obtain ⟨ha, hl⟩ := List.pairwise_cons.mp hl
    rw [firsts]
    by_cases heq : last = some (group a)
    · rw [if_pos heq]
      exact ih last hl fun c hc b hb => hlast c hc b (List.mem_cons_of_mem _ hb)
    · rw [if_neg heq]
      obtain ⟨hpair, hlt⟩ := ih (some (group a)) hl fun c hc b hb =>
        Option.some.inj hc ▸ ha b hb
      refine ⟨List.pairwise_cons.mpr ⟨hlt _ rfl, hpair⟩, ?_⟩
      intro c hc b hb
      have hca : c < group a := by
        refine (hlast c hc a List.mem_cons_self).lt_of_ne fun h => heq ?_
        rw [hc, h]
      rcases List.mem_cons.mp hb with rfl | hb
      · exact hca
      · exact hca.trans (hlt _ rfl b hb)

variable (group) in
/-- Every group of the list has a first item, unless it is the last one of before; in the list it
is followed by the others. -/
lemma exists_firsts {R : α → α → Prop} (last : Option γ) (hR : l.Pairwise R) (ha : a ∈ l)
    (hlast : last ≠ some (group a)) :
    ∃ b ∈ firsts group last l, group b = group a ∧ (b = a ∨ R b a) := by
  induction l generalizing last with
  | nil => simp at ha
  | cons b l ih =>
    obtain ⟨hb, hR⟩ := List.pairwise_cons.mp hR
    rw [firsts]
    by_cases heq : last = some (group b)
    · rw [if_pos heq]
      rcases List.mem_cons.mp ha with rfl | ha
      · exact absurd heq hlast
      · exact ih last hR ha hlast
    · rw [if_neg heq]
      by_cases hgroup : group b = group a
      · refine ⟨b, List.mem_cons_self, hgroup, ?_⟩
        rcases List.mem_cons.mp ha with rfl | ha
        · exact Or.inl rfl
        · exact Or.inr (hb a ha)
      · have hmem : a ∈ l := (List.mem_cons.mp ha).resolve_left fun h => hgroup (h ▸ rfl)
        obtain ⟨c, hc, hrest⟩ := ih (some (group b)) hR hmem fun h =>
          hgroup (Option.some.inj h)
        exact ⟨c, List.mem_cons_of_mem _ hc, hrest⟩

/-- In a list sorted by group, an item is the first of its group exactly when all others of the
group come after it. -/
theorem mem_firsts_iff {R : α → α → Prop} (hl : l.Pairwise fun a b => group a ≤ group b)
    (hR : l.Pairwise R) (hasymm : ∀ a b, R a b → ¬R b a) :
    a ∈ firsts group none l ↔ a ∈ l ∧ ∀ b ∈ l, group b = group a → b = a ∨ R a b := by
  constructor
  · intro h
    refine ⟨mem_of_mem_firsts h, ?_⟩
    intro b hb hgroup
    obtain ⟨c, hc, hcb, hrest⟩ := exists_firsts group none hR hb (by simp)
    -- two first items of one group are one
    have hca : c = a := by
      by_contra hne
      have hpair := (pairwise_firsts none hl (by simp)).1.imp fun hlt => hlt.ne
      have hsymm : Std.Symm fun a b => group a ≠ group b := ⟨fun _ _ hab => hab.symm⟩
      exact hpair.forall hc h hne (hcb.trans hgroup)
    rw [← hca]
    exact hrest.imp Eq.symm id
  · rintro ⟨ha, hfirst⟩
    obtain ⟨c, hc, hca, hrest⟩ := exists_firsts group none hR ha (by simp)
    rcases hrest with rfl | hRca
    · exact hc
    · rcases hfirst c (mem_of_mem_firsts hc) hca with rfl | hRac
      · exact hc
      · exact absurd hRca (hasymm _ _ hRac)

end Firsts

end OrderedMap
