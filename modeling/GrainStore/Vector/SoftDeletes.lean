import Mathlib
import GrainStore.Vector.Soundness

/-!
# How many results a search returns

Deleted nodes stay in the graph, and a search drops them only after its beam was cut.  So a beam
needs room for the deleted nodes besides the results asked for (`search_length`); without it an
index with a live vector may answer nothing (`starved`).
-/

namespace GrainStore

namespace Hnsw

variable {V D : Type*} {dist : V → V → D} {s : State V} {m : VectorMap V}

/-- The number of nodes that were deleted or superseded. -/
def State.softDeleted (s : State V) : ℕ := s.deleted.count true

/-! ## Counting -/

/-- Places that carry a flag, each named once, are no more than there are. -/
lemma length_le_count {α : Type*} [DecidableEq α] {flags : List α} {a : α} {l : List ℕ}
    (hnodup : l.Nodup) (h : ∀ i ∈ l, flags[i]? = some a) : l.length ≤ flags.count a := by
  have hsub : l ⊆ (flags.zipIdx.filter fun p => p.1 = a).map Prod.snd := fun i hi =>
    List.mem_map.mpr ⟨(a, i), List.mem_filter.mpr
      ⟨List.mk_mem_zipIdx_iff_getElem?.mpr (h i hi), decide_eq_true rfl⟩, rfl⟩
  calc l.length ≤ ((flags.zipIdx.filter fun p => p.1 = a).map Prod.snd).length :=
        (List.subperm_of_subset hnodup hsub).length_le
    _ = flags.zipIdx.countP fun p => p.1 = a := by
        rw [List.length_map, List.countP_eq_length_filter]
    _ = (flags.zipIdx.map Prod.fst).countP fun b => b = a := by
        rw [List.countP_map]
        rfl
    _ = flags.count a := by
        rw [List.zipIdx_map_fst, List.count_eq_countP]
        exact List.countP_congr fun b _ => by simp

/-- A list without repetitions counts the set it enumerates. -/
lemma ncard_eq_length {α : Type*} {S : Set α} {l : List α} (hnodup : l.Nodup)
    (h : ∀ a, a ∈ l ↔ a ∈ S) : S.ncard = l.length := by
  classical
  have hS : S = (l.toFinset : Set α) := Set.ext fun a => by
    rw [List.coe_toFinset]
    exact (h a).symm
  rw [hS, Set.ncard_coe_finset, List.toFinset_card_of_nodup hnodup]

variable [LinearOrder D]

section Search

variable {q : V} {ep ef : ℕ}

/-- What the beam holds is live or was deleted. -/
lemma State.Indexed.length_searchLayer_le (dist : V → V → D) (q : V) (ef : ℕ) (h : s.Indexed m)
    (hwired : s.Wired) (hep : s.baseEntry dist q = some ep) :
    (s.searchLayer dist q [ep] ef 0).length ≤
      (s.found dist q ep ef).length + s.softDeleted := by
  have hlt := hwired.baseEntry_lt hep
  obtain ⟨-, honce, -⟩ := searchLayer_full hwired.linked hlt dist q ef 0
  set w := s.searchLayer dist q [ep] ef 0 with hw
  have hnode : ∀ c ∈ w, c.idx < s.nodes.length := fun c hc =>
    State.lt_of_measured (reaches_of_mem_searchLayer hlt hc).2
  have hlive : (s.found dist q ep ef).length =
      (w.filter fun c => s.deleted[c.idx]? = some false).length := by
    rw [State.found, List.length_filterMap_eq_countP, List.countP_eq_length]
    intro c hc
    rw [Option.isSome_map, List.getElem?_eq_getElem (hnode c (List.mem_filter.mp hc).1)]
    rfl
  have hdead : ((w.filter fun c => ¬s.deleted[c.idx]? = some false).map DistIdx.idx).length ≤
      s.softDeleted := by
    refine length_le_count (honce.sublist (List.filter_sublist.map _)) ?_
    intro i hi
    obtain ⟨c, hc, rfl⟩ := List.mem_map.mp hi
    obtain ⟨hin, hnot⟩ := List.mem_filter.mp hc
    have hflag : c.idx < s.deleted.length := by
      rw [h.length, State.rows, List.length_map]
      exact hnode c hin
    rw [List.getElem?_eq_getElem hflag] at hnot ⊢
    simpa using hnot
  rw [List.length_map] at hdead
  rw [hlive, List.length_eq_length_filter_add fun c => decide (s.deleted[c.idx]? = some false)]
  refine Nat.add_le_add_left (le_of_eq_of_le ?_ hdead) _
  simp only [decide_not]

/-- A beam with room for the deleted nodes finds as many live nodes as are asked for, if so many
are reached. -/
lemma State.Indexed.min_length_found (k n : ℕ) (h : s.Indexed m) (hwired : s.Wired)
    (hep : s.baseEntry dist q = some ep) (hreached : (s.reached dist q).ncard ≤ n)
    (hroom : min k n + s.softDeleted ≤ ef) :
    min k (s.found dist q ep ef).length = min k (s.reached dist q).ncard := by
  have hlt := hwired.baseEntry_lt hep
  obtain ⟨-, hnodup, hsound⟩ := h.found_sound dist q ef hwired hep
  obtain ⟨-, hnodup', hmem⟩ := h.found hwired hep le_rfl
  have hcard := ncard_eq_length hnodup' hmem
  have hle : (s.found dist q ep ef).length ≤ (s.reached dist q).ncard := by
    rw [hcard]
    exact (List.subperm_of_subset (hnodup.of_map _) fun r hr =>
      (hmem r).mpr (hsound r hr)).length_le
  by_cases hfew : (s.searchLayer dist q [ep] ef 0).length < ef
  · -- the beam was never full, and everything reached is in it
    obtain ⟨-, -, hall⟩ := searchLayer_full hwired.linked hlt dist q ef 0
    have hge : (s.reached dist q).ncard ≤ (s.found dist q ep ef).length := by
      rw [hcard]
      refine (List.subperm_of_subset hnodup' fun r hr => ?_).length_le
      obtain ⟨i, v, hlive, ⟨ep', hep', hreach⟩, hdist⟩ := (hmem r).mp hr
      obtain rfl := Option.some.inj (hep.symm.trans hep')
      obtain ⟨c, hc, rfl⟩ := List.mem_map.mp (hall hfew i hreach)
      have hmeasured : s.Measured dist q ⟨r.dist, c.idx⟩ :=
        measured_iff.mpr ⟨r.sid, v, hlive.1, hdist⟩
      have hsame := hmeasured.eq (reaches_of_mem_searchLayer hlt hc).2 rfl
      exact mem_found.mpr ⟨c.idx, v, hsame ▸ hc, hlive⟩
    rw [hle.antisymm hge]
  · have hlen := h.length_searchLayer_le dist q ef hwired hep
    omega

end Search

/-! ## Every search -/

/-- The live nodes that a query reaches are no more than the entries, and all entries are reached
on a whole base layer. -/
lemma Built.ncard_reached (dist : V → V → D) {cfg : HnswConfig} {ops : List (Op V)}
    (h : Built cfg ops s) (q : V) :
    (s.reached dist q).ncard ≤ (liveSids ops).length ∧
      (s.Whole → (s.reached dist q).ncard = (liveSids ops).length) := by
  obtain ⟨found, -, -, hnodup, hmem⟩ := h.indexed.search dist q 0 h.wired le_rfl
  have hsub : found.map Candidate.sid ⊆ liveSids ops := by
    intro sid hsid
    obtain ⟨c, hc, rfl⟩ := List.mem_map.mp hsid
    obtain ⟨i, v, hlive, -⟩ := (hmem c).mp hc
    rw [mem_liveSids, ← getElem?_exact, (h.indexed.map _ _).mpr ⟨i, hlive⟩]
    rfl
  have hsids : (found.map Candidate.sid).Nodup := by
    refine (List.nodup_map_iff_inj_on hnodup).mpr ?_
    intro c hc c' hc' heq
    obtain ⟨i, v, hlive, -, hdist⟩ := (hmem c).mp hc
    obtain ⟨i', v', hlive', -, hdist'⟩ := (hmem c').mp hc'
    rw [← heq] at hlive'
    have hentry := (h.indexed.map _ _).mpr ⟨i, hlive⟩
    have hentry' := (h.indexed.map _ _).mpr ⟨i', hlive'⟩
    obtain rfl := Option.some.inj (hentry.symm.trans hentry')
    obtain ⟨sid, d⟩ := c
    obtain ⟨sid', d'⟩ := c'
    obtain rfl : sid = sid' := heq
    obtain rfl : d = d' := hdist.trans hdist'.symm
    rfl
  have hle := (List.subperm_of_subset hsids hsub).length_le
  rw [List.length_map] at hle
  rw [ncard_eq_length hnodup hmem]
  refine ⟨hle, fun hwhole => hle.antisymm ?_⟩
  have hall : liveSids ops ⊆ found.map Candidate.sid := by
    intro sid hsid
    rw [mem_liveSids, ← getElem?_exact] at hsid
    obtain ⟨v, hv⟩ := Option.isSome_iff_exists.mp hsid
    exact List.mem_map.mpr ⟨⟨sid, dist q v⟩,
      (hmem _).mpr ((hwhole.mem_reached h.indexed h.wired).mpr ⟨v, hv, rfl⟩), rfl⟩
  have hge := (List.subperm_of_subset ((List.nodup_dedup _).filter _) hall).length_le
  rwa [List.length_map] at hge

/-- How many results a search returns.  Take any tunables, any sequence of inserts, with any levels
that leave room for their lists, and removals.  There is an index, in any build.  If the beam has
room for the results asked for, as far as there are live vectors, and for all deleted and superseded
nodes, a search returns as many results as asked for, or all the live nodes that the base layer
reaches from the node where the descent ends.  While at most `m0 + 1` nodes were inserted, these are
all live vectors. -/
theorem search_length (dist : V → V → D) (overflowChecks : Bool) (cfg : HnswConfig)
    (ops : List (Op V)) (hroomy : ∀ level ∈ levels ops, Roomy level) :
    ∃ s, build dist overflowChecks cfg ops = some s ∧
      ∀ (q : V) (k ef : ℕ), min k s.len + s.softDeleted ≤ max ef k →
        (s.search dist q k ef).length = min k (s.reached dist q).ncard ∧
          (inserted ops ≤ cfg.m0 + 1 → (s.search dist q k ef).length = min k s.len) := by
  obtain ⟨s, hs⟩ := exists_build dist overflowChecks cfg hroomy
  refine ⟨s, hs, ?_⟩
  intro q k ef hroom
  have hbuilt := built_of_build hs
  have hlen : s.len = (liveSids ops).length := (live_build hs).trans (size_exact ops)
  obtain ⟨hle, hwhole⟩ := hbuilt.ncard_reached dist q
  have hcount : (s.search dist q k ef).length = min k (s.reached dist q).ncard := by
    cases hbase : s.baseEntry dist q with
    | none =>
      have hnil := search_of_none hbase k ef
      have hempty : s.reached dist q = ∅ := by
        refine Set.eq_empty_of_forall_notMem ?_
        rintro c ⟨i, v, -, ⟨ep, hep, -⟩, -⟩
        rw [hbase] at hep
        cases hep
      rw [hnil, hempty, Set.ncard_empty, Nat.min_zero]
      rfl
    | some ep =>
      rw [search_eq hbuilt.wired hbase k ef, List.length_take]
      exact hbuilt.indexed.min_length_found k _ hbuilt.wired hbase (hle.trans_eq hlen.symm) hroom
  refine ⟨hcount, ?_⟩
  intro hfew
  rw [hcount, hwhole (hbuilt.whole hroomy hfew), hlen]

namespace StarvedExample

open OutlierExample

/-- Vectors at 0 and at 10; the one at 0 is removed. -/
def churn : List (Op (List ℤ)) := [.insert 1 [0] 0, .insert 2 [10] 0, .remove 1]

lemma roomy_churn : ∀ level ∈ levels churn, Roomy level := by
  simp [churn, levels, Op.level?, Roomy, isizeMax]

end StarvedExample

open OutlierExample StarvedExample in
/-- The deleted node at 0 fills a beam of width one, and the live one is not found.  Without deleted
nodes a vector is missed that no link leads to any more. -/
theorem starved :
    (∃ s, build l2Sq true ⟨2, 2, 200⟩ churn = some s ∧ s.len = 1 ∧
      (s.search l2Sq [0] 1 1).length ≠ min 1 1) ∧
    ∃ s, build l2Sq true ⟨2, 1, 200⟩ line = some s ∧ s.len = 3 ∧
      (s.search l2Sq [10] 3 3).length ≠ min 3 3 := by
  have hchurn : (build l2Sq true ⟨2, 2, 200⟩ churn).map
      (fun s => (s.len, (s.search l2Sq [0] 1 1).length)) = some (1, 0) := by
    decide +kernel
  have hline : (build l2Sq true ⟨2, 1, 200⟩ line).map
      (fun s => (s.len, (s.search l2Sq [10] 3 3).length)) = some (3, 2) := by
    decide +kernel
  obtain ⟨s, hs, hfound⟩ := Option.map_eq_some_iff.mp hchurn
  obtain ⟨s', hs', hfound'⟩ := Option.map_eq_some_iff.mp hline
  obtain ⟨hlen, hcount⟩ := Prod.mk.inj hfound
  obtain ⟨hlen', hcount'⟩ := Prod.mk.inj hfound'
  refine ⟨⟨s, hs, hlen, ?_⟩, s', hs', hlen', ?_⟩
  · rw [hcount]
    decide
  · rw [hcount']
    decide

open OutlierExample StarvedExample in
/-- With room for the deleted node the live one is found. -/
theorem search_length_churn :
    ∃ s, build l2Sq true ⟨2, 2, 200⟩ churn = some s ∧
      (s.search l2Sq [0] 1 2).length = min 1 s.len := by
  obtain ⟨s, hs, hlength⟩ := search_length l2Sq true ⟨2, 2, 200⟩ churn roomy_churn
  have hroom : (build l2Sq true ⟨2, 2, 200⟩ churn).map
      (fun s => min 1 s.len + s.softDeleted) = some 2 := by
    decide +kernel
  rw [hs] at hroom
  exact ⟨s, hs, (hlength [0] 1 2 (Option.some.inj hroom).le).2 (by decide)⟩

end Hnsw

end GrainStore
