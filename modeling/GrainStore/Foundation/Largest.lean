import Mathlib

/-!
# The largest members of a set

`keep cap s` are the members of a finite set with fewer than `cap` members above them: the `cap`
largest ones, or all if there are no more (`card_keep`).  To keep the largest members of a set that
grows it is enough to remember the ones kept so far (`keep_insert_keep`).

`evict cap t` removes the least key of an ordered map as long as there are more than `cap`.
`getElem?_evict` says that this keeps the largest keys.  `Bounded cap l t` says that `t` is what is
left of the insertions `l` when each one is followed by an eviction (`Bounded.insert`).
-/

namespace Largest

open Finset
open Std (ExtTreeMap)

variable {α β : Type*} [LinearOrder α]

/-- The members of a set above `a`. -/
def above (s : Finset α) (a : α) : Finset α := s.filter (a < ·)

/-- The members of a set with fewer than `cap` members above them. -/
def keep (cap : ℕ) (s : Finset α) : Finset α := s.filter fun a => (above s a).card < cap

variable {cap : ℕ} {s t : Finset α} {a b : α}

lemma mem_keep : a ∈ keep cap s ↔ a ∈ s ∧ (above s a).card < cap := mem_filter

lemma keep_subset : keep cap s ⊆ s := filter_subset _ _

lemma above_subset (h : s ⊆ t) (a : α) : above s a ⊆ above t a := filter_subset_filter _ h

lemma above_anti (h : a ≤ b) : above s b ⊆ above s a := by
  intro c hc
  obtain ⟨hmem, hlt⟩ := mem_filter.mp hc
  exact mem_filter.mpr ⟨hmem, h.trans_lt hlt⟩

/-- Nothing has to go from a set that is small enough. -/
lemma keep_of_card_le (h : s.card ≤ cap) : keep cap s = s := by
  refine filter_true_of_mem fun a ha => lt_of_lt_of_le (card_lt_card ?_) h
  exact (filter_ssubset).mpr ⟨a, ha, lt_irrefl a⟩

/-- A new least member is above nothing. -/
lemma above_insert_of_lt (h : b < a) : above (insert b s) a = above s a := by
  rw [above, filter_insert, if_neg h.not_gt, above]

/-- The least member goes first. -/
lemma keep_insert_of_forall_lt (h : ∀ b ∈ s, a < b) (hcap : cap ≤ s.card) :
    keep cap (insert a s) = keep cap s := by
  ext b
  rw [mem_keep, mem_keep, mem_insert]
  constructor
  · rintro ⟨rfl | hb, hlt⟩
    · have hall : above (insert b s) b = s := by
        rw [above, filter_insert, if_neg (lt_irrefl b)]
        exact filter_true_of_mem h
      rw [hall] at hlt
      exact absurd hlt (not_lt.mpr hcap)
    · exact ⟨hb, by rwa [above_insert_of_lt (h b hb)] at hlt⟩
  · rintro ⟨hb, hlt⟩
    exact ⟨Or.inr hb, by rwa [above_insert_of_lt (h b hb)]⟩

/-- How many members are kept. -/
theorem card_keep (cap : ℕ) (s : Finset α) : (keep cap s).card = min s.card cap := by
  induction s using Finset.induction_on_min with
  | empty => simp [keep]
  | insert a s hmin ih =>
    have hnot : a ∉ s := fun ha => lt_irrefl a (hmin a ha)
    by_cases hcap : cap ≤ s.card
    · rw [keep_insert_of_forall_lt hmin hcap, ih, card_insert_of_notMem hnot, min_eq_right hcap,
        min_eq_right (hcap.trans (Nat.le_succ _))]
    · have hle : (insert a s).card ≤ cap := by
        rw [card_insert_of_notMem hnot]
        omega
      rw [keep_of_card_le hle, min_eq_left hle]

/-- A member that goes has all kept ones above it. -/
lemma above_keep_of_le (h : cap ≤ (above s a).card) : above (keep cap s) a = keep cap s := by
  refine filter_true_of_mem ?_
  intro b hb
  by_contra hle
  have hsub := card_le_card (above_anti (s := s) (not_lt.mp hle))
  exact absurd (mem_keep.mp hb).2 (not_lt.mpr (h.trans hsub))

/-- Above a member that is kept nothing is missing. -/
lemma above_keep_of_lt (h : (above s a).card < cap) : above (keep cap s) a = above s a := by
  refine (above_subset keep_subset a).antisymm ?_
  intro b hb
  obtain ⟨hmem, hlt⟩ := mem_filter.mp hb
  refine mem_filter.mpr ⟨mem_keep.mpr ⟨hmem, ?_⟩, hlt⟩
  exact (card_le_card (above_anti hlt.le)).trans_lt h

/-- To keep the largest members when one more arrives, the ones kept so far are enough. -/
theorem keep_insert_keep (cap : ℕ) (s : Finset α) (a : α) :
    keep cap (insert a (keep cap s)) = keep cap (insert a s) := by
  have hsub : insert a (keep cap s) ⊆ insert a s := insert_subset_insert a keep_subset
  ext b
  rw [mem_keep, mem_keep]
  constructor
  · rintro ⟨hb, hlt⟩
    refine ⟨hsub hb, ?_⟩
    by_cases hlarge : cap ≤ (above s b).card
    · -- then the `cap` kept ones are above `b`
      have hcard : cap ≤ (above (insert a (keep cap s)) b).card := by
        refine le_trans ?_ (card_le_card (above_subset (subset_insert a _) b))
        rw [above_keep_of_le hlarge, card_keep, min_eq_right]
        exact hlarge.trans (card_le_card (filter_subset _ _))
      exact absurd hlt (not_lt.mpr hcard)
    · have hsame : above (insert a (keep cap s)) b = above (insert a s) b := by
        have hkeep := above_keep_of_lt (not_le.mp hlarge)
        rw [above, above, filter_insert, filter_insert]
        unfold above at hkeep
        rw [hkeep]
      rwa [← hsame]
  · rintro ⟨hb, hlt⟩
    refine ⟨?_, (card_le_card (above_subset hsub b)).trans_lt hlt⟩
    rcases mem_insert.mp hb with rfl | hb
    · exact mem_insert_self _ _
    · refine mem_insert_of_mem (mem_keep.mpr ⟨hb, ?_⟩)
      exact (card_le_card (above_subset (subset_insert a s) b)).trans_lt hlt

/-! ## Eviction from an ordered map -/

/-- The keys of a map. -/
def keys (t : ExtTreeMap α β) : Finset α := t.keys.toFinset

lemma mem_keys {t : ExtTreeMap α β} : a ∈ keys t ↔ a ∈ t := by
  rw [keys, List.mem_toFinset, ExtTreeMap.mem_keys]

lemma card_keys (t : ExtTreeMap α β) : (keys t).card = t.size := by
  rw [keys, List.toFinset_card_of_nodup ExtTreeMap.nodup_keys, ExtTreeMap.length_keys]

lemma keys_insert (t : ExtTreeMap α β) (a : α) (v : β) : keys (t.insert a v) = insert a (keys t) := by
  ext b
  rw [mem_keys, ExtTreeMap.mem_insert, mem_insert, mem_keys, compare_eq_iff_eq, eq_comm]

lemma keys_erase (t : ExtTreeMap α β) (a : α) : keys (t.erase a) = (keys t).erase a := by
  ext b
  rw [mem_keys, ExtTreeMap.mem_erase, mem_erase, mem_keys, ne_eq, compare_eq_iff_eq, eq_comm]

/-- Remove the least key as long as there are more than `cap`. -/
def evict (cap : ℕ) (t : ExtTreeMap α β) : ExtTreeMap α β :=
  if _h : cap < t.size then
    match _hmin : t.minKey? with
    | some oldest => evict cap (t.erase oldest)
    | none => t
  else t
termination_by t.size
decreasing_by
  have hmem := (ExtTreeMap.minKey?_eq_some_iff_mem_and_forall.mp _hmin).1
  rw [ExtTreeMap.size_erase, if_pos (ExtTreeMap.contains_iff_mem.mpr hmem)]
  omega

/-- Eviction keeps the largest keys, with what is bound to them. -/
theorem getElem?_evict (cap : ℕ) (t : ExtTreeMap α β) (a : α) :
    (evict cap t)[a]? = if a ∈ keep cap (keys t) then t[a]? else none := by
  induction hsize : t.size using Nat.strong_induction_on generalizing t with
  | _ n ih =>
    have hnone : a ∉ keys t → t[a]? = none := by
      intro ha
      rw [mem_keys] at ha
      exact ExtTreeMap.getElem?_eq_none ha
    rw [evict]
    split
    · rename_i hlarge
      split
      · rename_i oldest hmin
        obtain ⟨hmem, hleast⟩ := ExtTreeMap.minKey?_eq_some_iff_mem_and_forall.mp hmin
        have hsmaller : (t.erase oldest).size < n := by
          rw [ExtTreeMap.size_erase, if_pos (ExtTreeMap.contains_iff_mem.mpr hmem)]
          omega
        have hkeys : keys t = insert oldest (keys (t.erase oldest)) := by
          rw [keys_erase, insert_erase (mem_keys.mpr hmem)]
        have hbelow : ∀ b ∈ keys (t.erase oldest), oldest < b := by
          intro b hb
          rw [keys_erase, mem_erase, mem_keys] at hb
          exact (compare_le_iff_le.mp (Ordering.isLE_iff_ne_gt.mp (hleast b hb.2))).lt_of_ne hb.1.symm
        have hcap : cap ≤ (keys (t.erase oldest)).card := by
          rw [card_keys, ExtTreeMap.size_erase, if_pos (ExtTreeMap.contains_iff_mem.mpr hmem)]
          omega
        rw [ih _ hsmaller _ rfl, hkeys, keep_insert_of_forall_lt hbelow hcap]
        by_cases ha : a ∈ keep cap (keys (t.erase oldest))
        · have hne : oldest ≠ a := (hbelow a (keep_subset ha)).ne
          rw [if_pos ha, if_pos ha, ExtTreeMap.getElem?_erase, if_neg (mt compare_eq_iff_eq.mp hne)]
        · rw [if_neg ha, if_neg ha]
      · rename_i hmin
        have hempty : t.size = 0 := by
          rw [ExtTreeMap.minKey?_eq_none_iff] at hmin
          rw [hmin]
          exact ExtTreeMap.size_empty
        omega
    · rename_i hsmall
      have hkeep : keep cap (keys t) = keys t :=
        keep_of_card_le (by rw [card_keys]; exact not_lt.mp hsmall)
      rw [hkeep]
      split
      · rfl
      · exact hnone ‹_›

/-- Eviction leaves no more than `cap` keys. -/
lemma size_evict_le (cap : ℕ) (t : ExtTreeMap α β) : (evict cap t).size ≤ cap := by
  have hkeys : keys (evict cap t) ⊆ keep cap (keys t) := by
    intro a ha
    by_contra hnot
    rw [mem_keys, ExtTreeMap.mem_iff_isSome_getElem?, getElem?_evict, if_neg hnot] at ha
    simp at ha
  rw [← card_keys]
  refine (card_le_card hkeys).trans ?_
  rw [card_keep]
  exact min_le_right _ _

/-! ## Bounded maps -/

/-- What was inserted last under a key. -/
def latest (l : List (α × β)) (a : α) : Option β :=
  (l.reverse.find? fun p => p.1 = a).map Prod.snd

lemma latest_concat (l : List (α × β)) (p : α × β) (a : α) :
    latest (l ++ [p]) a = if p.1 = a then some p.2 else latest l a := by
  rw [latest, List.reverse_append, List.reverse_singleton, List.singleton_append, List.find?_cons]
  by_cases h : p.1 = a
  · simp [h]
  · simp [h, latest]

lemma latest_eq_none_iff {l : List (α × β)} : latest l a = none ↔ a ∉ l.map Prod.fst := by
  rw [latest, Option.map_eq_none_iff, List.find?_eq_none]
  simp only [List.mem_reverse, decide_eq_true_eq, List.mem_map, not_exists, not_and]

/-- What was inserted last, of the items of a list. -/
lemma latest_map {γ : Type*} (l : List γ) (key : γ → α) (val : γ → β) (a : α) :
    latest (l.map fun c => (key c, val c)) a = (l.reverse.find? fun c => key c = a).map val := by
  rw [latest, ← List.map_reverse, List.find?_map, Option.map_map]
  rfl

/-- The map holds what was inserted last under each of the `cap` largest keys of `l`. -/
def Bounded (cap : ℕ) (l : List (α × β)) (t : ExtTreeMap α β) : Prop :=
  ∀ a, t[a]? = if a ∈ keep cap (l.map Prod.fst).toFinset then latest l a else none

namespace Bounded

variable {l : List (α × β)} {m : ExtTreeMap α β}

lemma empty : Bounded cap [] (∅ : ExtTreeMap α β) := by
  intro a
  rw [ExtTreeMap.getElem?_empty]
  split
  · rfl
  · rfl

/-- Which keys are left. -/
lemma keys_eq (h : Bounded cap l m) : keys m = keep cap (l.map Prod.fst).toFinset := by
  ext a
  rw [mem_keys, ExtTreeMap.mem_iff_isSome_getElem?, h a]
  by_cases ha : a ∈ keep cap (l.map Prod.fst).toFinset
  · have hmem : a ∈ l.map Prod.fst := List.mem_toFinset.mp (keep_subset ha)
    rw [if_pos ha, Option.isSome_iff_ne_none, ne_eq, latest_eq_none_iff, not_not]
    exact ⟨fun _ => ha, fun _ => hmem⟩
  · rw [if_neg ha]
    simp [ha]

/-- One more insertion, and what it evicts. -/
lemma insert (h : Bounded cap l m) (p : α × β) :
    Bounded cap (l ++ [p]) (evict cap (m.insert p.1 p.2)) := by
  intro a
  have hids : ((l ++ [p]).map Prod.fst).toFinset =
      Insert.insert p.1 (l.map Prod.fst).toFinset := by
    ext b
    simp only [List.map_append, List.map_singleton, List.mem_toFinset, List.mem_append,
      List.mem_singleton, mem_insert]
    exact or_comm
  rw [getElem?_evict, keys_insert, h.keys_eq, keep_insert_keep, ← hids]
  by_cases ha : a ∈ keep cap ((l ++ [p]).map Prod.fst).toFinset
  · rw [if_pos ha, if_pos ha, latest_concat, ExtTreeMap.getElem?_insert]
    by_cases hkey : p.1 = a
    · rw [if_pos (compare_eq_iff_eq.mpr hkey), if_pos hkey]
    · rw [if_neg (mt compare_eq_iff_eq.mp hkey), if_neg hkey, h a, if_pos]
      -- it was kept before
      rw [hids] at ha
      obtain ⟨hmem, hlt⟩ := mem_keep.mp ha
      refine mem_keep.mpr ⟨(mem_insert.mp hmem).resolve_left (Ne.symm hkey), ?_⟩
      exact (card_le_card (above_subset (subset_insert _ _) a)).trans_lt hlt
  · rw [if_neg ha, if_neg ha]

/-- How many entries are left. -/
lemma size_eq (h : Bounded cap l m) : m.size = min (l.map Prod.fst).toFinset.card cap := by
  rw [← card_keys, h.keys_eq, card_keep]

/-- A key is not there exactly when it was never inserted or `cap` larger ones were. -/
lemma eq_none_iff (h : Bounded cap l m) (a : α) : m[a]? = none ↔
    a ∉ l.map Prod.fst ∨ cap ≤ (above (l.map Prod.fst).toFinset a).card := by
  rw [h a]
  by_cases ha : a ∈ keep cap (l.map Prod.fst).toFinset
  · obtain ⟨hmem, hlt⟩ := mem_keep.mp ha
    rw [if_pos ha, latest_eq_none_iff]
    exact ⟨Or.inl, fun hor => hor.resolve_right (not_le.mpr hlt)⟩
  · rw [if_neg ha]
    rw [mem_keep, List.mem_toFinset, not_and, not_lt] at ha
    exact ⟨fun _ => or_iff_not_imp_left.mpr fun hmem => ha (not_not.mp hmem), fun _ => rfl⟩

end Bounded

end Largest
