import Mathlib

/-!
# Rankings

A ranking keeps the nearest of a set of items.  `Nearest dist S k out` says that `out` is the `k`
nearest items of `S`, in order, up to ties; the first `k` of a sorted enumeration are
(`nearest_take`).

Insertion sort is stable: it commutes with a partial map that keeps the order
(`insertionSort_filterMap`).

`smallest k l` is the list of the `k` smallest numbers of `l`.  It can be found in parts
(`smallest_append_smallest`, `smallest_flatMap`), and numbers that cannot be among them may be left
out (`smallest_append_of_le`).
-/

namespace Ranking

section Sorting

variable {α β : Type*} {r : α → α → Prop} {s : β → β → Prop} [DecidableRel r] [DecidableRel s]
  {f : α → Option β}

/-- An item below all others is inserted in front. -/
lemma orderedInsert_of_forall {x : β} {l : List β} (h : ∀ y ∈ l, s x y) :
    l.orderedInsert s x = x :: l := by
  cases l with
  | nil => rfl
  | cons y l => exact if_pos (h y List.mem_cons_self)

/-- Inserting into a sorted list, under a partial map that keeps the order. -/
lemma filterMap_orderedInsert [IsTrans α r]
    (hf : ∀ a b x y, f a = some x → f b = some y → (s x y ↔ r a b)) (a : α) {l : List α}
    (hl : l.Pairwise r) :
    (l.orderedInsert r a).filterMap f =
      (f a).elim (l.filterMap f) fun x => (l.filterMap f).orderedInsert s x := by
  induction l with
  | nil =>
    cases hfa : f a with
    | none => simp [hfa]
    | some x => simp [hfa]
  | cons b l ih =>
    obtain ⟨hb, hl⟩ := List.pairwise_cons.mp hl
    rw [List.orderedInsert_cons]
    by_cases hab : r a b
    · rw [if_pos hab, List.filterMap_cons]
      cases hfa : f a with
      | none => rfl
      | some x =>
        refine (orderedInsert_of_forall fun y hy => ?_).symm
        obtain ⟨c, hc, hfc⟩ := List.mem_filterMap.mp hy
        rw [hf a c x y hfa hfc]
        rcases List.mem_cons.mp hc with rfl | hc
        · exact hab
        · exact IsTrans.trans _ _ _ hab (hb c hc)
    · rw [if_neg hab, List.filterMap_cons, List.filterMap_cons, ih hl]
      cases hfa : f a with
      | none => rfl
      | some x =>
        cases hfb : f b with
        | none => rfl
        | some y =>
          have hxy : ¬s x y := fun h => hab ((hf a b x y hfa hfb).mp h)
          exact (if_neg hxy).symm

/-- Sorting and then mapping is mapping and then sorting. -/
theorem insertionSort_filterMap [IsTrans α r] [Std.Total r]
    (hf : ∀ a b x y, f a = some x → f b = some y → (s x y ↔ r a b)) (l : List α) :
    (l.filterMap f).insertionSort s = (l.insertionSort r).filterMap f := by
  induction l with
  | nil => rfl
  | cons a l ih =>
    rw [List.insertionSort_cons, filterMap_orderedInsert hf a (List.pairwise_insertionSort r l),
      ← ih, List.filterMap_cons]
    cases f a with
    | none => rfl
    | some x => rfl

end Sorting

section Nearest

variable {α D : Type*} [LinearOrder D]

/-- `out` is the `k` nearest items of `S`, in ascending order, up to ties. -/
structure Nearest (dist : α → D) (S : Set α) (k : ℕ) (out : List α) : Prop where
  sorted : out.Pairwise fun a b => dist a ≤ dist b
  nodup : out.Nodup
  mem : ∀ a ∈ out, a ∈ S
  length_le : out.length ≤ k
  /-- An item is left out only for `k` items that are no farther. -/
  full : ∀ a ∈ S, a ∉ out → out.length = k ∧ ∀ b ∈ out, dist b ≤ dist a

variable {dist : α → D} {S : Set α} {k : ℕ} {all : List α}

/-- The first items of a sorted enumeration are the nearest. -/
theorem nearest_take (hsorted : all.Pairwise fun a b => dist a ≤ dist b) (hnodup : all.Nodup)
    (hmem : ∀ a, a ∈ all ↔ a ∈ S) : Nearest dist S k (all.take k) where
  sorted := hsorted.sublist (List.take_sublist k all)
  nodup := hnodup.sublist (List.take_sublist k all)
  mem a ha := (hmem a).mp (List.mem_of_mem_take ha)
  length_le := List.length_take_le k all
  full a ha hnot := by
    have hdrop : a ∈ all.drop k := by
      have hall := (hmem a).mpr ha
      rw [← List.take_append_drop k all] at hall
      exact (List.mem_append.mp hall).resolve_left hnot
    have hlen : k < all.length := by
      by_contra hle
      rw [List.drop_eq_nil_of_le (not_lt.mp hle)] at hdrop
      simp at hdrop
    refine ⟨List.length_take_of_le hlen.le, ?_⟩
    intro b hb
    rw [← List.take_append_drop k all] at hsorted
    exact (List.pairwise_append.mp hsorted).2.2 b hb a hdrop

/-- Two sorted enumerations of the same items have the same distances, place by place. -/
theorem map_take_congr {all' : List α} (hsorted : all.Pairwise fun a b => dist a ≤ dist b)
    (hsorted' : all'.Pairwise fun a b => dist a ≤ dist b) (hnodup : all.Nodup)
    (hnodup' : all'.Nodup) (hmem : ∀ a, a ∈ all ↔ a ∈ all') (k : ℕ) :
    (all.take k).map dist = (all'.take k).map dist := by
  have hperm : (all.map dist).Perm (all'.map dist) :=
    ((List.perm_ext_iff_of_nodup hnodup hnodup').mpr hmem).map dist
  have heq : all.map dist = all'.map dist :=
    hperm.eq_of_pairwise' (List.pairwise_map.mpr hsorted) (List.pairwise_map.mpr hsorted')
  rw [List.map_take, List.map_take, heq]

/-- With room for more, nothing is left out. -/
lemma Nearest.mem_of_lt {out : List α} (h : Nearest dist S k out) (hlt : out.length < k) {a : α} :
    a ∈ out ↔ a ∈ S := by
  refine ⟨h.mem a, ?_⟩
  intro ha
  by_contra hnot
  exact hlt.ne (h.full a ha hnot).1

/-- The last item of a list that is sorted by a key is the one with the largest key. -/
lemma getLast?_eq_some_iff {key : α → D} {l : List α}
    (h : l.Pairwise fun a b => key a < key b) {a : α} :
    l.getLast? = some a ↔ a ∈ l ∧ ∀ b ∈ l, key b ≤ key a := by
  constructor
  · intro hlast
    obtain ⟨l', rfl⟩ := List.getLast?_eq_some_iff.mp hlast
    refine ⟨List.mem_append_right _ List.mem_cons_self, ?_⟩
    intro b hb
    rcases List.mem_append.mp hb with hb | hb
    · exact ((List.pairwise_append.mp h).2.2 b hb a List.mem_cons_self).le
    · rw [List.mem_singleton.mp hb]
  · rintro ⟨ha, hmax⟩
    obtain ⟨l₁, l₂, rfl⟩ := List.append_of_mem ha
    cases l₂ with
    | nil => rw [List.getLast?_append]; rfl
    | cons b l₂ =>
      have hlt := (List.pairwise_cons.mp (List.pairwise_append.mp h).2.1).1 b List.mem_cons_self
      exact absurd hlt (not_lt.mpr (hmax b (by simp)))

end Nearest

section Cut

variable {α β γ : Type*} {x₁ x₂ : α → Option β} {view : β → Option γ} {l : List α} {k : ℕ}

lemma filterMap_eq_of_forall₂ {l₁ l₂ : List β}
    (h : List.Forall₂ (fun a b => view a = view b) l₁ l₂) :
    l₁.filterMap view = l₂.filterMap view := by
  induction h with
  | nil => rfl
  | cons hab _ ih => rw [List.filterMap_cons, List.filterMap_cons, hab, ih]

/-- Where two partial maps agree up to what is viewed, so do their images. -/
lemma forall₂_filterMap
    (h : ∀ c ∈ l, Option.Rel (fun a b => view a = view b) (x₁ c) (x₂ c)) :
    List.Forall₂ (fun a b => view a = view b) (l.filterMap x₁) (l.filterMap x₂) := by
  have hself : List.Forall₂ (fun a b => a = b ∧ a ∈ l) l l :=
    List.forall₂_same.mpr fun a ha => ⟨rfl, ha⟩
  refine List.rel_filterMap ?_ hself
  rintro a b ⟨rfl, ha⟩
  exact h a ha

/-- Two rankings drawn from one list are viewed the same after the cut, if the first item where
they disagree comes after `k` items of the ranking. -/
theorem take_filterMap_congr {agree : α → Prop} [DecidablePred agree]
    (hagree : ∀ c ∈ l, agree c → Option.Rel (fun a b => view a = view b) (x₁ c) (x₂ c))
    (hcut : ∀ before c after, l = before ++ c :: after → (∀ b ∈ before, agree b) → ¬agree c →
      k ≤ (before.filterMap x₁).length) :
    ((l.filterMap x₁).take k).filterMap view = ((l.filterMap x₂).take k).filterMap view := by
  refine filterMap_eq_of_forall₂ ?_
  cases hfind : l.find? fun c => ¬agree c with
  | none =>
    refine List.forall₂_take k (forall₂_filterMap fun c hc => hagree c hc ?_)
    simpa using List.find?_eq_none.mp hfind c hc
  | some c =>
    -- everything is decided before the first disagreement
    obtain ⟨hc, before, after, hl, hbefore⟩ := List.find?_eq_some_iff_append.mp hfind
    have hall : ∀ b ∈ before, agree b := fun b hb => by simpa using hbefore b hb
    have hrel := forall₂_filterMap (l := before) fun b hb =>
      hagree b (hl ▸ List.mem_append_left _ hb) (hall b hb)
    have hk := hcut before c after hl hall (by simpa using hc)
    rw [hl, List.filterMap_append, List.filterMap_append, List.take_append_of_le_length hk,
      List.take_append_of_le_length (hrel.length_eq ▸ hk)]
    exact List.forall₂_take k hrel

/-- The cut is viewed differently when an item that is ranked first before the cut shows something
that the second ranking shows nowhere. -/
theorem take_filterMap_ne {before after : List α} {c : α} {b : β} {v : γ} {P : γ → Prop}
    (hl : l = before ++ c :: after) (hk : (before.filterMap x₁).length < k) (hc : x₁ c = some b)
    (hv : view b = some v) (hP : P v)
    (hnot : ∀ c' ∈ l, ∀ b', x₂ c' = some b' → ∀ v', view b' = some v' → ¬P v') :
    ((l.filterMap x₁).take k).filterMap view ≠ ((l.filterMap x₂).take k).filterMap view := by
  intro heq
  have hmem : b ∈ (l.filterMap x₁).take k := by
    obtain ⟨n, hn⟩ := Nat.exists_eq_add_of_lt hk
    rw [hl, List.filterMap_append, List.filterMap_cons, hc, List.take_append, List.mem_append]
    right
    have hpos : k - (before.filterMap x₁).length = n + 1 := by omega
    rw [hpos]
    exact List.mem_cons_self
  have hshown : v ∈ ((l.filterMap x₁).take k).filterMap view :=
    List.mem_filterMap.mpr ⟨b, hmem, hv⟩
  rw [heq] at hshown
  obtain ⟨b', hb', hv'⟩ := List.mem_filterMap.mp hshown
  obtain ⟨c', hc', hx⟩ := List.mem_filterMap.mp (List.mem_of_mem_take hb')
  exact hnot c' hc' b' hx v hv' hP

end Cut

section Smallest

variable {α D : Type*} [LinearOrder D] {k : ℕ} {l l' s r : List D}

/-- The `k` smallest numbers of a list, ascending. -/
def smallest (k : ℕ) (l : List D) : List D := (l.insertionSort (· ≤ ·)).take k

lemma length_smallest (k : ℕ) (l : List D) : (smallest k l).length = min k l.length := by
  rw [smallest, List.length_take, List.length_insertionSort]

lemma pairwise_smallest (k : ℕ) (l : List D) : (smallest k l).Pairwise (· ≤ ·) :=
  (List.pairwise_insertionSort _ l).sublist (List.take_sublist _ _)

lemma smallest_congr (h : l.Perm l') (k : ℕ) : smallest k l = smallest k l' := by
  have hsort : l.insertionSort (· ≤ ·) = l'.insertionSort (· ≤ ·) :=
    ((List.perm_insertionSort _ l).trans (h.trans
      (List.perm_insertionSort _ l').symm)).eq_of_pairwise'
        (List.pairwise_insertionSort _ l) (List.pairwise_insertionSort _ l')
  rw [smallest, hsort, smallest]

/-- A sorted part of a list that the rest does not undercut is the beginning of the sorted list. -/
lemma smallest_eq (h : l.Perm (s ++ r)) (hs : s.Pairwise (· ≤ ·)) (hle : ∀ a ∈ s, ∀ b ∈ r, a ≤ b)
    (hk : s.length = k ∨ r = [] ∧ s.length ≤ k) : smallest k l = s := by
  have hsort : l.insertionSort (· ≤ ·) = s ++ r.insertionSort (· ≤ ·) := by
    have hperm : (l.insertionSort (· ≤ ·)).Perm (s ++ r.insertionSort (· ≤ ·)) :=
      (List.perm_insertionSort _ l).trans
        (h.trans ((List.Perm.refl s).append (List.perm_insertionSort _ r).symm))
    refine hperm.eq_of_pairwise' (List.pairwise_insertionSort _ l)
      (List.pairwise_append.mpr ⟨hs, List.pairwise_insertionSort _ r, fun a ha b hb => ?_⟩)
    exact hle a ha b ((List.mem_insertionSort _).mp hb)
  rw [smallest, hsort]
  rcases hk with rfl | ⟨rfl, hlen⟩
  · exact List.take_left
  · rw [List.insertionSort_nil, List.append_nil]
    exact List.take_of_length_le hlen

/-- A list is its smallest numbers and others, which do not undercut them. -/
lemma exists_rest (k : ℕ) (l : List D) : ∃ r, l.Perm (smallest k l ++ r) ∧
    (∀ a ∈ smallest k l, ∀ b ∈ r, a ≤ b) ∧
    ((smallest k l).length = k ∨ r = [] ∧ (smallest k l).length ≤ k) := by
  refine ⟨(l.insertionSort (· ≤ ·)).drop k, ?_, ?_, ?_⟩
  · rw [smallest, List.take_append_drop]
    exact (List.perm_insertionSort _ l).symm
  · have hsorted := List.pairwise_insertionSort (· ≤ ·) l
    rw [← List.take_append_drop k (l.insertionSort (· ≤ ·))] at hsorted
    exact (List.pairwise_append.mp hsorted).2.2
  · rw [length_smallest]
    rcases le_total k l.length with hle | hle
    · exact Or.inl (min_eq_left hle)
    · refine Or.inr ⟨List.drop_eq_nil_of_le ?_, min_le_left _ _⟩
      rwa [List.length_insertionSort]

/-- Numbers that do not undercut the `k` smallest ones are not among them. -/
theorem smallest_append_of_le (hlen : k ≤ l.length) (h : ∀ a ∈ smallest k l, ∀ b ∈ l', a ≤ b) :
    smallest k (l ++ l') = smallest k l := by
  obtain ⟨r, hperm, hle, -⟩ := exists_rest k l
  refine smallest_eq (r := r ++ l') ?_ (pairwise_smallest k l) (fun a ha b hb => ?_) (Or.inl ?_)
  · rw [← List.append_assoc]
    exact hperm.append_right l'
  · exact (List.mem_append.mp hb).elim (hle a ha b) (h a ha b)
  · rw [length_smallest, min_eq_left hlen]

/-- Of the first list only its own smallest numbers matter. -/
theorem smallest_append_smallest (k : ℕ) (l l' : List D) :
    smallest k (smallest k l ++ l') = smallest k (l ++ l') := by
  obtain ⟨r, hperm, hle, hlen⟩ := exists_rest k l
  obtain ⟨q, hperm', hle', hlen'⟩ := exists_rest k (smallest k l ++ l')
  refine (smallest_eq (r := q ++ r) ?_ (pairwise_smallest k _) (fun a ha b hb => ?_) ?_).symm
  · calc (l ++ l').Perm (smallest k l ++ r ++ l') := hperm.append_right l'
      _ |>.Perm (smallest k l ++ (l' ++ r)) := by
        rw [List.append_assoc]
        exact (List.Perm.refl _).append List.perm_append_comm
      _ |>.Perm (smallest k (smallest k l ++ l') ++ q ++ r) := by
        rw [← List.append_assoc]
        exact hperm'.append_right r
      _ |>.Perm (smallest k (smallest k l ++ l') ++ (q ++ r)) := by rw [List.append_assoc]
  · rcases List.mem_append.mp hb with hb | hb
    · exact hle' a ha b hb
    · -- either one of the first list's smallest was left out, or there are no others
      have hfull : (smallest k l).length = k := hlen.resolve_right fun h => by
        rw [h.1] at hb
        cases hb
      by_cases hsub : (smallest k l).Subperm (smallest k (smallest k l ++ l'))
      · have hall := hsub.perm_of_length_le (by
          rw [hfull, length_smallest]
          exact min_le_left _ _)
        exact hle a (hall.mem_iff.mpr ha) b hb
      · obtain ⟨c, hc⟩ : ∃ c, (smallest k (smallest k l ++ l')).count c <
            (smallest k l).count c := by
          by_contra hnone
          push Not at hnone
          exact hsub (List.subperm_ext_iff.mpr fun c _ => hnone c)
        have hcount := hperm'.count_eq c
        rw [List.count_append, List.count_append] at hcount
        have hq : c ∈ q := List.count_pos_iff.mp (by omega)
        have hs : c ∈ smallest k l := List.count_pos_iff.mp (by omega)
        exact (hle' a ha c hq).trans (hle c hs b hb)
  · rcases hlen' with hfull | ⟨rfl, hlen'⟩
    · exact Or.inl hfull
    · rcases hlen with hfull | ⟨rfl, hlen⟩
      · left
        have hge := hperm'.length_eq
        rw [List.append_nil, List.length_append] at hge
        omega
      · exact Or.inr ⟨rfl, hlen'⟩

/-- The smallest numbers of several lists are among the smallest numbers of each. -/
theorem smallest_flatMap (k : ℕ) (f : α → List D) (parts : List α) :
    smallest k (parts.flatMap fun p => smallest k (f p)) = smallest k (parts.flatMap f) := by
  induction parts with
  | nil => rfl
  | cons p parts ih =>
    rw [List.flatMap_cons, List.flatMap_cons, smallest_append_smallest,
      smallest_congr List.perm_append_comm, ← smallest_append_smallest, ih,
      smallest_append_smallest, smallest_congr List.perm_append_comm]

/-- The distances of the nearest items are the smallest distances. -/
lemma map_take_insertionSort (dist : α → D) (k : ℕ) (l : List α) :
    ((l.insertionSort fun a b => dist a ≤ dist b).take k).map dist = smallest k (l.map dist) := by
  let le := fun a b => dist a ≤ dist b
  have : Std.Total le := ⟨fun a b => le_total (dist a) (dist b)⟩
  have : IsTrans α le := ⟨fun _ _ _ => le_trans⟩
  have hperm : ((l.insertionSort le).map dist).Perm ((l.map dist).insertionSort (· ≤ ·)) :=
    ((List.perm_insertionSort le l).map dist).trans (List.perm_insertionSort _ _).symm
  rw [smallest, List.map_take]
  exact congrArg (List.take k) (hperm.eq_of_pairwise'
    (List.pairwise_map.mpr (List.pairwise_insertionSort le l)) (List.pairwise_insertionSort _ _))

end Smallest

end Ranking
