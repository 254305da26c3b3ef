import Mathlib
import GrainStore.Engine.Writes
import GrainStore.Planner.Margin

/-!
# What a plan is worth

A planned query filters after it has cut off the candidates, so it may return fewer grains than
there are.  Over the exact index more candidates never lose a result: `queryPlanned_mono` says that a
higher recall target, or a lower estimate of the selectivity, only adds results behind the ones there
are.  `queryPlanned_nearest` says when there is nothing to add: an answer with `k` grains is the `k`
nearest matches, and so is every answer whose candidate budget covers `k` entries besides those that
do not match.
-/

namespace GrainStore

open List

/-! ## Filtering after a cutoff -/

section Cutoff

variable {α β : Type*} {f : α → Option β} {l : List α} {n n' k : ℕ}

/-- More candidates only add results. -/
lemma take_filterMap_prefix (f : α → Option β) (l : List α) (k : ℕ) (h : n ≤ n') :
    ((l.take n).filterMap f).take k <+: ((l.take n').filterMap f).take k :=
  ((List.take_prefix_take_left h).filterMap f).take k

/-- What is left of the candidates are at least those that are not rejected. -/
lemma le_length_filterMap_take (f : α → Option β) (hn : n ≤ l.length) :
    n + (l.filterMap f).length ≤ ((l.take n).filterMap f).length + l.length := by
  have hsplit : (l.filterMap f).length =
      ((l.take n).filterMap f).length + ((l.drop n).filterMap f).length := by
    rw [← List.length_append, ← List.filterMap_append, List.take_append_drop]
  have hdrop := List.length_filterMap_le f (l.drop n)
  rw [List.length_drop] at hdrop
  omega

/-- A cutoff behind `k` candidates and all that are rejected changes nothing in the first `k`
results. -/
lemma take_filterMap_eq (h : k + l.length ≤ n + (l.filterMap f).length) :
    ((l.take n).filterMap f).take k = (l.filterMap f).take k := by
  by_cases hn : n ≤ l.length
  · have hlen := le_length_filterMap_take f hn
    have hfirst := (List.take_prefix n l).filterMap f
    exact (hfirst.take k).eq_of_length_le (by
      rw [List.length_take, List.length_take]
      omega)
  · rw [List.take_of_length_le (not_le.mp hn).le]

end Cutoff

namespace GrainEngine

variable {V Q D : Type*} [LinearOrder D] (iter : VectorMap V → List (Sid × V)) (dist : Q → V → D)
  (embed : Bytes → Option V) (disk : Bytes) (index : VectorMap V) (hist : WriteHistory)
  (pred : PredId) (query : Q) (k : ℕ) {t u : F64}

/-- The candidates of a plan are what its query fetches. -/
lemma estCandidates_le_fetch (selectivity : ℚ) (ef : ℕ) :
    (Planner.plan selectivity k t).estCandidates ≤
      (⟨pred, query, k, ef, (Planner.plan selectivity k t).overFetch⟩ : MixedQuery Q).fetch := by
  refine le_trans ?_ (le_max_left _ _)
  exact min_le_min_right _ (Nat.mul_le_mul_left k (le_max_left _ _))

/-- A planned query over the exact index, whatever the catalog has counted. -/
lemma queryPlanned_eq (c : SelectivityCatalog) (filter : Filter) (t : F64) :
    let e := { behind BruteForceIndex.writer embed disk index hist with catalog := c }
    let plan := Planner.plan (e.selectivity filter) k t
    e.queryPlanned (BruteForceIndex.search iter dist) pred query filter k t =
      .ok ((((BruteForceIndex.ranked iter dist e.index query).take
        (⟨pred, query, k, plan.ef, plan.overFetch⟩ : MixedQuery Q).fetch).filterMap fun c =>
          (((WriteHistory.store disk hist).read c.sid pred).filter filter.eval).map fun g =>
            (⟨g, c.dist⟩ : Ranked D)).take k, plan) := by
  intro e plan
  have hread : ∀ sid, e.truth.read sid pred = .ok ((WriteHistory.store disk hist).read sid pred) :=
    fun sid => (shows_behind BruteForceIndex.writer embed disk index hist).read sid pred
  have hquery := nearJoinSelect_eq_take iter dist e.index filter.eval
    ⟨pred, query, k, plan.ef, plan.overFetch⟩ hread
  rw [queryPlanned, hquery]

/-- Behind any history of writes, failing ones included: asking for a higher recall, or on a lower
estimate of the selectivity, loses no result.  The results are those there were, in the same order,
and possibly more behind them; if there were `k` they are the same. -/
theorem queryPlanned_mono (c : SelectivityCatalog) (filter : Filter)
    (hsel : ({ behind BruteForceIndex.writer embed disk index hist with
      catalog := c }).selectivity filter ≤
        (behind BruteForceIndex.writer embed disk index hist).selectivity filter)
    (h : t.le u = true) :
    let e := behind BruteForceIndex.writer embed disk index hist
    let e' := { e with catalog := c }
    ∃ out out' plan plan',
      e.queryPlanned (BruteForceIndex.search iter dist) pred query filter k t = .ok (out, plan) ∧
      e'.queryPlanned (BruteForceIndex.search iter dist) pred query filter k u = .ok (out', plan') ∧
      plan.estCandidates ≤ plan'.estCandidates ∧ out <+: out' ∧ (out.length = k → out = out') := by
  intro e e'
  have hmono := Planner.plan_mono k hsel h
  have hfetch : (⟨pred, query, k, (Planner.plan (e.selectivity filter) k t).ef,
      (Planner.plan (e.selectivity filter) k t).overFetch⟩ : MixedQuery Q).fetch ≤
        (⟨pred, query, k, (Planner.plan (e'.selectivity filter) k u).ef,
          (Planner.plan (e'.selectivity filter) k u).overFetch⟩ : MixedQuery Q).fetch :=
    max_le_max_right _ (min_le_min_right _ (Nat.mul_le_mul_left k (max_le_max_right _ hmono.1)))
  have hfirst := take_filterMap_prefix
    (fun c => (((WriteHistory.store disk hist).read c.sid pred).filter filter.eval).map fun g =>
      (⟨g, c.dist⟩ : Ranked D)) (BruteForceIndex.ranked iter dist e.index query) k hfetch
  refine ⟨_, _, _, _,
    queryPlanned_eq iter dist embed disk index hist pred query k e.catalog filter t,
    queryPlanned_eq iter dist embed disk index hist pred query k c filter u, hmono.2.2, hfirst,
    fun hlen => hfirst.eq_of_length_le ?_⟩
  rw [hlen]
  exact List.length_take_le _ _

namespace PlannedExample

/-- Four grains, the farthest of which has the header byte 7. -/
def grains : WriteHistory :=
  [(.putRaw 1 0 [0, 1] ⟨0, 0, 1⟩, none), (.putRaw 2 0 [0, 2] ⟨0, 0, 2⟩, none),
    (.putRaw 3 0 [0, 3] ⟨0, 0, 3⟩, none), (.putRaw 4 0 [7, 4] ⟨0, 0, 4⟩, none)]

/-- The vector of a value is its second byte. -/
def secondByte (value : Bytes) : Option ℕ := value[1]?.map BitVec.toNat

def engine : GrainEngine (VectorMap ℕ) := behind BruteForceIndex.writer secondByte [] ∅ grains

/-- The nearest grain with the header byte 7. -/
def nearest (t : F64) : Except Error (List (Ranked ℕ) × Plan) :=
  engine.queryPlanned (BruteForceIndex.search Std.ExtTreeMap.toList fun q v => (q - v) + (v - q)) 0
    0 (.headerByteEq 0 7) 1 t

/-- How many grains are found. -/
def count (t : F64) : Option ℕ := (nearest t).toOption.map fun p => p.1.length

lemma count_half : count (.finite (1 / 2)) = some 0 := by decide +kernel

lemma count_one : count (.finite 1) = some 1 := by decide +kernel

lemma length_of_count {t : F64} {n : ℕ} {out : List (Ranked ℕ)} {plan : Plan}
    (hcount : count t = some n) (h : nearest t = .ok (out, plan)) : out.length = n := by
  rw [count, h] at hcount
  exact Option.some.inj hcount

end PlannedExample

open PlannedExample in
/-- A low target misses the grain, and a high one finds it. -/
theorem queryPlanned_mono_higher : ∃ out out' plan plan',
    nearest (.finite (1 / 2)) = .ok (out, plan) ∧ nearest (.finite 1) = .ok (out', plan') ∧
    out.length = 0 ∧ out'.length = 1 ∧ out <+: out' := by
  obtain ⟨out, out', plan, plan', hlow, hhigh, -, hfirst, -⟩ :=
    queryPlanned_mono Std.ExtTreeMap.toList (fun q v => (q - v) + (v - q)) secondByte [] ∅ grains 0 0 1
      engine.catalog (.headerByteEq 0 7) (t := .finite (1 / 2)) (u := .finite 1) le_rfl
      (by decide +kernel)
  exact ⟨out, out', plan, plan', hlow, hhigh, length_of_count count_half hlow,
    length_of_count count_one hhigh, hfirst⟩

/-- Behind any history of writes the answer of a planned query starts like the list of all matches,
nearest first.  It is the first `k` of them when it has `k` grains, and when its candidate budget
covers `k` entries and all that do not match: `size - matches.length` entries do not. -/
theorem queryPlanned_nearest (hiter : ∀ m, (iter m).Perm m.toList) (filter : Filter) (t : F64) :
    let e := behind BruteForceIndex.writer embed disk index hist
    let found := fun sid => (WriteHistory.store disk hist).read sid pred
    let found' := matching iter dist e.index found query filter.eval
    ∃ out plan,
      e.queryPlanned (BruteForceIndex.search iter dist) pred query filter k t = .ok (out, plan) ∧
      out <+: found' ∧
      (out.length = k ∨ k + e.index.size ≤ plan.estCandidates + found'.length →
        out = found'.take k) := by
  intro e found found'
  have hquery := queryPlanned_eq iter dist embed disk index hist pred query k e.catalog filter t
  set plan := Planner.plan (e.selectivity filter) k t with hplan
  set fetch := (⟨pred, query, k, plan.ef, plan.overFetch⟩ : MixedQuery Q).fetch with hfetch
  have hfirst : ((BruteForceIndex.ranked iter dist e.index query).take fetch).filterMap
      (fun c => ((found c.sid).filter filter.eval).map fun g => (⟨g, c.dist⟩ : Ranked D)) <+:
        found' := (List.take_prefix fetch _).filterMap _
  refine ⟨_, plan, hquery, (List.take_prefix k _).trans hfirst, ?_⟩
  rintro (hlen | hcover)
  · refine (hfirst.take k).eq_of_length_le ?_
    rw [hlen]
    exact List.length_take_le _ _
  · refine take_filterMap_eq ?_
    have hbudget : plan.estCandidates ≤ fetch :=
      estCandidates_le_fetch pred query k (e.selectivity filter) plan.ef
    have hsize : (BruteForceIndex.ranked iter dist e.index query).length = e.index.size := by
      rw [BruteForceIndex.ranked, List.length_insertionSort, List.length_map,
        (hiter e.index).length_eq, Std.ExtTreeMap.length_toList]
    rw [hsize]
    exact hcover.trans (Nat.add_le_add_right hbudget _)

open PlannedExample in
/-- The grain that a high target finds is the nearest match. -/
theorem queryPlanned_nearest_one : ∃ out plan, nearest (.finite 1) = .ok (out, plan) ∧
    out = (matching Std.ExtTreeMap.toList (fun q v => (q - v) + (v - q)) engine.index
      (fun sid => (WriteHistory.store [] grains).read sid 0) 0
        (Filter.headerByteEq 0 7).eval).take 1 := by
  obtain ⟨out, plan, hquery, -, hexact⟩ := queryPlanned_nearest Std.ExtTreeMap.toList
    (fun q v => (q - v) + (v - q)) secondByte [] ∅ grains 0 0 1 (fun _ => List.Perm.refl _)
    (.headerByteEq 0 7) (.finite 1)
  exact ⟨out, plan, hquery, hexact (Or.inl (length_of_count count_one hquery))⟩

end GrainEngine

end GrainStore
