import Mathlib
import GrainStore.Foundation.Ranking
import GrainStore.Block.Partition

/-!
# Pruned search

A nearest-neighbour search skips a block whose lower bound exceeds the `k`-th best distance so far.
When the distance is a metric the bound is right (`minPossibleDist_le`), so a block that is skipped
holds none of the `k` nearest records (`scan_spec`), and the search returns their distances
(`near_exact`).
-/

namespace GrainStore

open FixedWidth Block Ranking

section Field

variable {K : Type*} [Field K] [LinearOrder K]

/-- The distance is a metric, on vectors of one dimension. -/
structure FloatOps.IsMetric (ops : FloatOps K) : Prop where
  nonneg : ∀ a b : List K, 0 ≤ l2 ops a b
  triangle : ∀ a b c : List K, a.length = b.length → b.length = c.length →
    l2 ops a c ≤ l2 ops a b + l2 ops b c

variable {ops : FloatOps K} {recs : List (GrainRec K)} {b : Block K} {q : List K} {k : ℕ}

/-! ## One block -/

/-- A block's grains, as candidates. -/
def candidateOf (ops : FloatOps K) (q : List K) (r : GrainRec K) : Candidate K :=
  ⟨r.sid, l2 ops q r.vector⟩

lemma candidates_eq (h : Describes ops recs b) (q : List K) :
    b.candidates ops q = recs.map (candidateOf ops q) := by
  obtain ⟨descriptor, sids, cats, vectors, hcats, hvectors⟩ := b
  obtain rfl : sids = recs.map GrainRec.sid := h.sids
  obtain rfl : vectors = recs.map GrainRec.vector := h.vectors
  refine List.ext_getElem (by simp [candidates]) ?_
  intro i _ _
  simp [candidates, candidateOf]

lemma flatMap_candidates {groups : List (List (GrainRec K))} {blocks : List (Block K)}
    (h : List.Forall₂ (Describes ops) groups blocks) :
    (blocks.flatMap fun b => b.candidates ops q) = groups.flatten.map (candidateOf ops q) := by
  induction h with
  | nil => rfl
  | cons hd hall ih =>
    rw [List.flatMap_cons, List.flatten_cons, List.map_append, ih, candidates_eq hd]

variable [IsStrictOrderedRing K]

/-- A block's lower bound does not exceed the distance to any of its grains. -/
lemma sub_radius_le (hmetric : ops.IsMetric) (h : Describes ops recs b)
    (hdim : ∀ r ∈ recs, r.vector.length = q.length) {r : GrainRec K} (hr : r ∈ recs) :
    l2 ops q b.descriptor.centroid - b.descriptor.radius ≤ l2 ops q r.vector := by
  have hcentroid : b.descriptor.centroid.length = q.length := h.dim _ hdim
  have htriangle := hmetric.triangle q r.vector b.descriptor.centroid (hdim r hr).symm
    ((hdim r hr).trans hcentroid.symm)
  have hradius := h.radius r hr
  linarith

lemma minPossibleDist_le (hmetric : ops.IsMetric) (h : Describes ops recs b)
    (hdim : ∀ r ∈ recs, r.vector.length = q.length) {v : List K} (hv : v ∈ b.vectors) :
    b.descriptor.minPossibleDist ops q ≤ l2 ops q v := by
  rw [h.vectors] at hv
  obtain ⟨r, hr, rfl⟩ := List.mem_map.mp hv
  exact max_le (sub_radius_le hmetric h hdim hr) (hmetric.nonneg q _)

namespace BlockStore

/-! ## The loop over the blocks -/

/-- The best candidates of those seen so far. -/
structure Best (k : ℕ) (seen best : List (Candidate K)) : Prop where
  dist : best.map Candidate.dist = smallest k (seen.map Candidate.dist)
  subperm : best.Subperm seen

omit [Field K] [IsStrictOrderedRing K] in
lemma best_nil (k : ℕ) : Best k ([] : List (Candidate K)) [] :=
  ⟨by simp [smallest], List.Subperm.refl []⟩

omit [Field K] [IsStrictOrderedRing K] in
lemma Best.length {seen best : List (Candidate K)} (h : Best k seen best) :
    best.length = min k seen.length := by
  have hlen := congrArg List.length h.dist
  rwa [List.length_map, length_smallest, List.length_map] at hlen

omit [Field K] [IsStrictOrderedRing K] in
lemma Best.perm {seen seen' best : List (Candidate K)} (h : Best k seen best)
    (hperm : seen.Perm seen') : Best k seen' best :=
  ⟨h.dist.trans (smallest_congr (hperm.map _) k), h.subperm.trans hperm.subperm⟩

omit [Field K] [IsStrictOrderedRing K] in
/-- When a distance exceeds the bound of the search, there are `k` candidates that are as near. -/
lemma exists_kth (hk : 1 ≤ k) {seen best : List (Candidate K)} (h : Best k seen best) :
    ∃ bound, kth k best = some bound ∧ ∀ d : K, bound < d →
      k ≤ seen.length ∧ ∀ a ∈ smallest k (seen.map Candidate.dist), a ≤ d := by
  unfold kth
  have hlen := h.length
  by_cases hfull : k ≤ best.length
  · have hlast : k - 1 < best.length := by omega
    rw [if_pos hfull, if_neg (by omega), List.getElem?_eq_getElem hlast]
    refine ⟨_, rfl, fun d hd => ⟨by omega, fun a ha => ?_⟩⟩
    have hsorted := pairwise_smallest k (seen.map Candidate.dist)
    rw [← h.dist] at ha hsorted
    obtain ⟨i, hi, rfl⟩ := List.mem_iff_getElem.mp ha
    have hi' : i < best.length := by simpa using hi
    have hle : best[i].dist ≤ best[k - 1].dist := by
      rcases eq_or_lt_of_le (show i ≤ k - 1 by omega) with rfl | hlt
      · exact le_rfl
      · exact List.pairwise_iff_getElem.mp (List.pairwise_map.mp hsorted) i (k - 1) hi' hlast hlt
    rw [List.getElem_map]
    exact hle.trans (WithTop.coe_lt_coe.mp hd).le
  · rw [if_neg hfull]
    exact ⟨⊤, rfl, fun d hd => absurd hd not_top_lt⟩

/-- A block that is looked at, or is skipped because its lower bound exceeds the `k`-th best
distance, is taken into account. -/
lemma exists_visit (hmetric : ops.IsMetric) (hk : 1 ≤ k) (hd : Describes ops recs b)
    (hdim : ∀ r ∈ recs, r.vector.length = q.length) {seen best : List (Candidate K)}
    (h : Best k seen best) (touched : ℕ) :
    ∃ acc, visit ops q k (best, touched) (l2 ops q b.descriptor.centroid, b) = some acc ∧
      Best k (seen ++ b.candidates ops q) acc.1 := by
  obtain ⟨bound, hbound, hbest⟩ := exists_kth hk h
  unfold visit
  dsimp only
  rw [hbound, Option.map_some]
  refine ⟨_, rfl, ?_⟩
  split
  · rename_i hskip
    obtain ⟨hlen, hle⟩ := hbest _ hskip
    refine ⟨?_, h.subperm.trans (List.sublist_append_left _ _).subperm⟩
    rw [List.map_append, smallest_append_of_le (by rwa [List.length_map]) fun a ha d hcand => ?_]
    · exact h.dist
    · rw [candidates_eq hd] at hcand
      obtain ⟨c, hc, rfl⟩ := List.mem_map.mp hcand
      obtain ⟨r, hr, rfl⟩ := List.mem_map.mp hc
      exact (hle a ha).trans (sub_radius_le hmetric hd hdim hr)
  · refine ⟨?_, ?_⟩
    · dsimp only
      rw [map_take_insertionSort, List.map_append, h.dist, smallest_append_smallest,
        List.map_append]
    · have hsort := List.perm_insertionSort (fun a c : Candidate K => a.dist ≤ c.dist)
        (best ++ b.candidates ops q)
      exact (List.take_sublist _ _).subperm.trans
        (hsort.subperm.trans (h.subperm.append (List.Subperm.refl _)))

/-- Whatever the order of the blocks, the search ends with the best candidates of all of them. -/
theorem exists_scan (hmetric : ops.IsMetric) (hk : 1 ≤ k) {order : List (K × Block K)}
    (horder : ∀ p ∈ order, p.1 = l2 ops q p.2.descriptor.centroid ∧ ∃ recs,
      Describes ops recs p.2 ∧ ∀ r ∈ recs, r.vector.length = q.length)
    {seen : List (Candidate K)} {acc : List (Candidate K) × ℕ} (h : Best k seen acc.1) :
    ∃ acc', order.foldlM (visit ops q k) acc = some acc' ∧
      Best k (seen ++ order.flatMap fun p => p.2.candidates ops q) acc'.1 := by
  induction order generalizing seen acc with
  | nil => exact ⟨acc, rfl, by simpa using h⟩
  | cons p order ih =>
    obtain ⟨⟨hp, recs, hd, hdim⟩, hrest⟩ := List.forall_mem_cons.mp horder
    obtain ⟨acc₁, hvisit, hbest⟩ := exists_visit hmetric hk hd hdim h acc.2
    obtain ⟨acc', hfold, hbest'⟩ := ih hrest hbest
    refine ⟨acc', ?_, ?_⟩
    · rw [List.foldlM_cons, show p = (l2 ops q p.2.descriptor.centroid, p.2) by rw [← hp], hvisit]
      exact hfold
    · rw [List.flatMap_cons, ← List.append_assoc]
      exact hbest'

/-- Candidates are the `k` nearest of some records. -/
structure KNearest (ops : FloatOps K) (recs : List (GrainRec K)) (q : List K) (k : ℕ)
    (best : List (Candidate K)) : Prop where
  length : best.length = min k recs.length
  sorted : best.Pairwise (DistLE Candidate.dist)
  /-- Their distances are the `k` smallest ones of a full scan. -/
  dist : best.map Candidate.dist = smallest k (recs.map fun r => l2 ops q r.vector)
  /-- Each is a record, and no record is used twice. -/
  subperm : best.Subperm (recs.map (candidateOf ops q))

omit [IsStrictOrderedRing K] in
lemma Best.kNearest {best : List (Candidate K)} (h : Best k (recs.map (candidateOf ops q)) best) :
    KNearest ops recs q k best := by
  have hdist : best.map Candidate.dist = smallest k (recs.map fun r => l2 ops q r.vector) := by
    rw [h.dist, List.map_map]
    rfl
  refine ⟨by rw [h.length, List.length_map], ?_, hdist, h.subperm⟩
  have hsorted := pairwise_smallest k (recs.map fun r => l2 ops q r.vector)
  rw [← hdist] at hsorted
  have hpair := List.pairwise_map.mp hsorted
  exact hpair

/-- The blocks of some records are searched exactly: the `k` nearest records are found, and would be
in whatever order the blocks were visited; and no block's lower bound exceeds the distance to one of
its points. -/
lemma exists_nearest (hmetric : ops.IsMetric) (hne : recs ≠ [])
    (hdim : ∀ r ∈ recs, r.vector.length = q.length) {nBlocks : ℕ} (hblocks : 1 ≤ nBlocks)
    (iters : ℕ) (hk : 1 ≤ k) :
    ∃ store, clustered ops recs nBlocks iters = some store ∧
      (∃ best stats, store.nearest ops q k = some (best, stats) ∧ KNearest ops recs q k best) ∧
      (∀ visited : List (K × Block K), visited.Perm (store.order ops q) → ∃ best touched,
        visited.foldlM (visit ops q k) ([], 0) = some (best, touched) ∧
        KNearest ops recs q k best) ∧
      ∀ b ∈ store.blocks, ∀ v ∈ b.vectors, b.descriptor.minPossibleDist ops q ≤ l2 ops q v := by
  obtain ⟨-, groups, store, -, -, -, hperm, hbuild, hall⟩ :=
    exists_clustered ops hne hblocks iters
  have hflat : (groups.filter fun g => !g.isEmpty).flatten.Perm recs := by
    rw [List.flatten_filter_not_isEmpty]
    exact hperm
  have hblock : ∀ b ∈ store.blocks,
      ∃ g, Describes ops g b ∧ ∀ r ∈ g, r.vector.length = q.length := by
    intro b hb
    obtain ⟨g, hg, hd⟩ := Checked.exists_of_forall₂ hall hb
    exact ⟨g, hd, fun r hr => hdim r (hflat.mem_iff.mp (List.mem_flatten_of_mem hg hr))⟩
  have hscan : ∀ visited : List (K × Block K), visited.Perm (store.order ops q) →
      ∃ best touched, visited.foldlM (visit ops q k) ([], 0) = some (best, touched) ∧
        KNearest ops recs q k best := by
    intro visited hvisited
    have hpairs : visited.Perm (store.blocks.map fun b => (l2 ops q b.descriptor.centroid, b)) :=
      hvisited.trans (List.perm_insertionSort _ _)
    have horder : ∀ p ∈ visited, p.1 = l2 ops q p.2.descriptor.centroid ∧ ∃ g,
        Describes ops g p.2 ∧ ∀ r ∈ g, r.vector.length = q.length := by
      intro p hp
      obtain ⟨b, hb, rfl⟩ := List.mem_map.mp (hpairs.mem_iff.mp hp)
      exact ⟨rfl, hblock b hb⟩
    have hstart : Best k [] (([], 0) : List (Candidate K) × ℕ).1 := best_nil k
    obtain ⟨acc, hfold, hbest⟩ := exists_scan hmetric hk horder hstart
    refine ⟨acc.1, acc.2, hfold, (hbest.perm ?_).kNearest⟩
    rw [List.nil_append]
    refine (hpairs.flatMap_right _).trans ?_
    rw [List.flatMap_map, flatMap_candidates hall]
    exact hflat.map _
  refine ⟨store, hbuild, ?_, hscan, ?_⟩
  · obtain ⟨best, touched, hfold, hbest⟩ := hscan _ (List.Perm.refl _)
    refine ⟨best, ⟨touched, store.blocks.length⟩, ?_, hbest⟩
    rw [nearest, hfold]
    rfl
  · intro b hb v hv
    obtain ⟨g, hd, hg⟩ := hblock b hb
    exact minPossibleDist_le hmetric hd hg hv

/-- The pruned search of a store is exact. -/
structure NearExact (ops : FloatOps K) (size : ℕ) (recs : List (GrainRec K)) (q : List K) (k : ℕ)
    (store : BlockStore K) : Prop where
  /-- It returns the `k` nearest records, -/
  near : ∃ best stats, store.near ops size q k = some (best, stats) ∧ KNearest ops recs q k best
  /-- and would find them in whatever order it visited the blocks. -/
  order : ∀ visited : List (K × Block K), visited.Perm (store.order ops q) → ∃ best touched,
    visited.foldlM (visit ops q k) ([], 0) = some (best, touched) ∧ KNearest ops recs q k best
  /-- No block's lower bound exceeds the distance to one of its points. -/
  bound : ∀ b ∈ store.blocks, ∀ v ∈ b.vectors, b.descriptor.minPossibleDist ops q ≤ l2 ops q v

omit [Field K] [LinearOrder K] [IsStrictOrderedRing K] in
/-- There is room for one more than `k` candidates when they fit, and when `k` is the largest `usize`
and the sum wraps around. -/
lemma room_isSome_iff {size : ℕ} (hsize : 0 < size) (hmax : k ≤ usizeMax) :
    ((addUsize false k 1).bind (withCapacity size)).isSome ↔
      (k + 1) * size ≤ isizeMax ∨ k = usizeMax := by
  rw [Option.isSome_iff_exists]
  simp only [addUsize_one_bind_withCapacity hmax hsize, exists_or, exists_and_left, exists_eq,
    and_true, true_and]

/-- Take any records and any query of one dimension, a distance that is a metric, any number of
blocks and of passes, and any number of results.  A store is built whose pruned search is exact,
exactly when there is room for the groups and for one more candidate than results (of which there is
none to be taken when the number wraps around). -/
theorem near_exact (hmetric : ops.IsMetric) (hne : recs ≠ [])
    (hdim : ∀ r ∈ recs, r.vector.length = q.length) {nBlocks size : ℕ} (hblocks : 1 ≤ nBlocks)
    (iters : ℕ) (hsize : 0 < size) (hk : 1 ≤ k) (hmax : k ≤ usizeMax) :
    (∃ store, buildClustered ops recs nBlocks iters = some store ∧
      store.NearExact ops size recs q k) ↔
      nBlocks * 24 ≤ isizeMax ∧ ((k + 1) * size ≤ isizeMax ∨ k = usizeMax) := by
  rw [← room_isSome_iff hsize hmax]
  constructor
  · rintro ⟨store, hbuild, ⟨best, stats, hnear, -⟩, -, -⟩
    obtain ⟨room, hroom, -⟩ := Option.bind_eq_some_iff.mp hnear
    exact ⟨room_of_buildClustered ops hbuild, Option.isSome_of_eq_some hroom⟩
  · rintro ⟨hgroups, hcandidates⟩
    obtain ⟨store, hbuild, ⟨best, stats, hnearest, hbest⟩, horder, hbound⟩ :=
      exists_nearest hmetric hne hdim hblocks iters hk
    obtain ⟨room, hroom⟩ := Option.isSome_iff_exists.mp hcandidates
    refine ⟨store, (buildClustered_of_room ops hgroups iters).trans hbuild,
      ⟨best, stats, ?_, hbest⟩, horder, hbound⟩
    rw [BlockStore.near, hroom]
    exact hnearest

end BlockStore

end Field

/-! ## The Euclidean distance -/

/-- A list of numbers as a point of Euclidean space. -/
noncomputable def toPoint (n : ℕ) (a : List ℝ) : EuclideanSpace ℝ (Fin n) :=
  WithLp.toLp 2 fun i => a.getD i 0

lemma l2_eq_dist {ops : FloatOps ℝ} (hsqrt : ops.sqrt = Real.sqrt) {a b : List ℝ} {n : ℕ}
    (ha : a.length = n) (hb : b.length = n) : l2 ops a b = dist (toPoint n a) (toPoint n b) := by
  have hzip : a.zipWith (fun x y => (x - y) * (x - y)) b =
      List.ofFn fun i : Fin n => (a.getD i 0 - b.getD i 0) * (a.getD i 0 - b.getD i 0) := by
    refine List.ext_getElem (by simp [ha, hb]) ?_
    intro i hi _
    have hlt : i < a.length ∧ i < b.length := by simpa using hi
    rw [List.getElem_zipWith, List.getElem_ofFn, List.getD_eq_getElem _ _ hlt.1,
      List.getD_eq_getElem _ _ hlt.2]
  rw [l2, hsqrt, hzip, List.sum_ofFn, EuclideanSpace.dist_eq]
  congr 1
  refine Finset.sum_congr rfl ?_
  intro i _
  rw [Real.dist_eq, sq_abs, sq]
  rfl

/-- With real numbers and exact square roots the distance is a metric. -/
lemma isMetric_of_sqrt {ops : FloatOps ℝ} (hsqrt : ops.sqrt = Real.sqrt) : ops.IsMetric where
  nonneg a b := by
    rw [l2, hsqrt]
    exact Real.sqrt_nonneg _
  triangle a b c hab hbc := by
    rw [l2_eq_dist hsqrt rfl (hab.trans hbc).symm, l2_eq_dist hsqrt rfl hab.symm,
      l2_eq_dist hsqrt hab.symm (hab.trans hbc).symm]
    exact dist_triangle _ _ _

namespace PruningExample

noncomputable def ops : FloatOps ℝ :=
  ⟨Real.sqrt, fun x => ⌊x⌋₊, fun n => (BitVec.ofNat 64 (10 * n), 7#32)⟩

/-- Two near the origin, two far from it. -/
def recs : List (GrainRec ℝ) :=
  [⟨1, 1, 7, [0, 0], 1, 1⟩, ⟨2, 1, 8, [0, 1], 2, 1⟩, ⟨3, 1, 9, [50, 50], 3, 1⟩,
    ⟨4, 1, 9, [50, 51], 4, 1⟩]

end PruningExample

namespace BlockStore

open PruningExample in
/-- Candidates take 32 bytes.  There is no room for `2^59` of them, while four records are stored. -/
theorem many_not_near :
    (∃ store, buildClustered ops recs 2 3 = some store ∧
      store.near ops 32 [1, 1] (2 ^ 59) = none) ∧
    ¬∃ store, buildClustered ops recs 2 3 = some store ∧
      store.NearExact ops 32 recs [1, 1] (2 ^ 59) := by
  have hroom : (addUsize false (2 ^ 59) 1).bind (withCapacity 32) = none := by decide
  have hnone : ∀ store : BlockStore ℝ, store.near ops 32 [1, 1] (2 ^ 59) = none := by
    intro store
    rw [BlockStore.near, hroom]
    rfl
  refine ⟨?_, ?_⟩
  · have hne : recs ≠ [] := List.cons_ne_nil _ _
    have hmetric : ops.IsMetric := isMetric_of_sqrt rfl
    obtain ⟨store, hbuild, -⟩ := exists_nearest (q := [1, 1]) hmetric hne (by simp [recs]) one_le_two 3
      (le_refl 1)
    exact ⟨store, (buildClustered_of_room ops (by decide) 3).trans hbuild, hnone store⟩
  · rintro ⟨store, -, ⟨best, stats, hnear, -⟩, -, -⟩
    rw [hnone store] at hnear
    cases hnear

open PruningExample in
/-- The two nearest of four records in two blocks. -/
theorem near_exact_two : ∃ store, buildClustered ops recs 2 3 = some store ∧
    store.NearExact ops 32 recs [1, 1] 2 :=
  (near_exact (isMetric_of_sqrt rfl) (List.cons_ne_nil _ _) (by simp) (by decide) 3
    (by decide) (by decide) (by decide)).mpr ⟨by decide, Or.inl (by decide)⟩

end BlockStore

end GrainStore
