import Mathlib
import GrainStore.Planner
import GrainStore.Truth
import GrainStore.Vector.Brute

/-!
# The mixed query

`near ⋈ select`: pull candidates from the vector index, join each to the truth store, filter on
the joined grain, rank and truncate.  The filter comes after the candidate cutoff.
-/

namespace GrainStore

/-- Parameters of a mixed query. -/
structure MixedQuery (Q : Type*) where
  pred : PredId
  query : Q
  k : ℕ
  ef : ℕ
  overFetch : ℕ

/-- A ranked result: the joined grain and its distance to the query. -/
structure Ranked (D : Type*) where
  grain : Grain
  dist : D

variable {I Q D : Type*}

/-- Join each candidate to the truth store; keep the grains the predicate holds of. -/
def joinCandidates (get : Sid → Except Error (Option Grain)) (predicate : Grain → Bool) :
    List (Candidate D) → Except Error (List (Ranked D))
  | [] => .ok []
  | c :: cs =>
    match get c.sid with
    | .error e => .error e
    | .ok grain =>
      match joinCandidates get predicate cs with
      | .error e => .error e
      | .ok out =>
        match grain with
        | none => .ok out
        | some g => .ok (if predicate g then ⟨g, c.dist⟩ :: out else out)

/-- How many candidates a query pulls before it filters. -/
def MixedQuery.fetch (q : MixedQuery Q) : ℕ := max (saturatingMul q.k (max q.overFetch 1)) q.k

/-- Execute `near(query, k) ⋈ get(pred) WHERE predicate`, post-filtered. -/
def nearJoinSelect [LE D] [DecidableLE D] (get : Sid → PredId → Except Error (Option Grain))
    (vectors : VectorIndex I Q D) (index : I) (q : MixedQuery Q) (predicate : Grain → Bool) :
    Except Error (List (Ranked D)) :=
  let candidates := vectors.search index q.query q.fetch q.ef
  match joinCandidates (fun sid => get sid q.pred) predicate candidates with
  | .error e => .error e
  | .ok out => .ok ((out.insertionSort fun a b => a.dist ≤ b.dist).take q.k)

/-- Joining never fails where reading does not, and keeps the order of the candidates. -/
lemma joinCandidates_ok {get : Sid → Except Error (Option Grain)} {found : Sid → Option Grain}
    (hget : ∀ sid, get sid = .ok (found sid)) (predicate : Grain → Bool)
    (cs : List (Candidate D)) :
    joinCandidates get predicate cs =
      .ok (cs.filterMap fun c => ((found c.sid).filter predicate).map fun g => ⟨g, c.dist⟩) := by
  induction cs with
  | nil => rfl
  | cons c cs ih =>
    rw [joinCandidates, hget, ih, List.filterMap_cons]
    dsimp only
    cases hfound : found c.sid with
    | none => rfl
    | some g =>
      by_cases hg : predicate g
      · simp [Option.filter, hg]
      · simp [Option.filter, hg]

/-- Joining fails exactly when some candidate cannot be read. -/
lemma joinCandidates_error_iff (get : Sid → Except Error (Option Grain))
    (predicate : Grain → Bool) (cs : List (Candidate D)) :
    (∃ err, joinCandidates get predicate cs = .error err) ↔
      ∃ c ∈ cs, ∃ err, get c.sid = .error err := by
  induction cs with
  | nil => simp [joinCandidates]
  | cons c cs ih =>
    rw [List.exists_mem_cons_iff, ← ih, joinCandidates]
    cases hget : get c.sid with
    | error err => simp
    | ok grain =>
      cases hjoin : joinCandidates get predicate cs with
      | error err => simp
      | ok out => cases grain <;> simp

/-! ## The exact index -/

section Exact

variable {V : Type*} [LinearOrder D]

/-- Everything a query matches, nearest first, when nothing is cut off: the candidates of the
whole index, joined with what the store has and filtered. -/
def matching (iter : VectorMap V → List (Sid × V)) (dist : Q → V → D) (index : VectorMap V)
    (found : Sid → Option Grain) (query : Q) (predicate : Grain → Bool) : List (Ranked D) :=
  (BruteForceIndex.ranked iter dist index query).filterMap fun c =>
    ((found c.sid).filter predicate).map fun g => ⟨g, c.dist⟩

variable {iter : VectorMap V → List (Sid × V)} {dist : Q → V → D} {index : VectorMap V}
  {found : Sid → Option Grain} {query : Q} {predicate : Grain → Bool}

lemma pairwise_matching :
    (matching iter dist index found query predicate).Pairwise (DistLE Ranked.dist) := by
  refine BruteForceIndex.pairwise_ranked.filterMap _ ?_
  intro a b hab r hr r' hr'
  obtain ⟨g, -, rfl⟩ := Option.map_eq_some_iff.mp hr
  obtain ⟨g', -, rfl⟩ := Option.map_eq_some_iff.mp hr'
  exact hab

variable (iter dist index predicate) in
/-- Over the exact index a query returns the first of the matches among its candidates. -/
lemma nearJoinSelect_eq_take {get : Sid → PredId → Except Error (Option Grain)}
    (q : MixedQuery Q) (hget : ∀ sid, get sid q.pred = .ok (found sid)) :
    nearJoinSelect get (BruteForceIndex.search iter dist) index q predicate =
      .ok ((((BruteForceIndex.ranked iter dist index q.query).take q.fetch).filterMap fun c =>
        ((found c.sid).filter predicate).map fun g => (⟨g, c.dist⟩ : Ranked D)).take q.k) := by
  have hjoin := joinCandidates_ok hget predicate
    ((BruteForceIndex.ranked iter dist index q.query).take q.fetch)
  have hprefix := (List.take_prefix q.fetch (BruteForceIndex.ranked iter dist index q.query)).filterMap
    fun c => ((found c.sid).filter predicate).map fun g => (⟨g, c.dist⟩ : Ranked D)
  have hall : (matching iter dist index found q.query predicate).Pairwise (DistLE Ranked.dist) :=
    pairwise_matching
  have hsort := (hall.sublist hprefix.sublist).insertionSort_eq
  rw [nearJoinSelect, BruteForceIndex.search, hjoin]
  dsimp only
  rw [hsort]

variable (iter dist index predicate) in
/-- When the candidates cover the exact index a query returns the first of all matches. -/
lemma nearJoinSelect_of_covered {get : Sid → PredId → Except Error (Option Grain)}
    (q : MixedQuery Q) (hget : ∀ sid, get sid q.pred = .ok (found sid))
    (hcover : (iter index).length ≤ q.fetch) :
    nearJoinSelect get (BruteForceIndex.search iter dist) index q predicate =
      .ok ((matching iter dist index found q.query predicate).take q.k) := by
  have hlen : (BruteForceIndex.ranked iter dist index q.query).length ≤ q.fetch := by
    rwa [BruteForceIndex.ranked, List.length_insertionSort, List.length_map]
  rw [nearJoinSelect_eq_take iter dist index predicate q hget, List.take_of_length_le hlen,
    matching]

variable (iter dist index predicate) in
/-- Over the exact index a query returns the first of its matches. -/
theorem nearJoinSelect_brute {get : Sid → PredId → Except Error (Option Grain)}
    (q : MixedQuery Q) (hget : ∀ sid, get sid q.pred = .ok (found sid)) :
    ∃ out, nearJoinSelect get (BruteForceIndex.search iter dist) index q predicate = .ok out ∧
      out <+: matching iter dist index found q.query predicate ∧
      ((iter index).length ≤ q.fetch →
        (matching iter dist index found q.query predicate).length ≤ q.k →
        out = matching iter dist index found q.query predicate) := by
  have htake := nearJoinSelect_eq_take iter dist index predicate q hget
  have hprefix := (List.take_prefix q.fetch (BruteForceIndex.ranked iter dist index q.query)).filterMap
    fun c => ((found c.sid).filter predicate).map fun g => (⟨g, c.dist⟩ : Ranked D)
  refine ⟨_, htake, (List.take_prefix _ _).trans hprefix, ?_⟩
  intro hcover hk
  have hcovered := nearJoinSelect_of_covered iter dist index predicate q hget hcover
  rw [List.take_of_length_le hk] at hcovered
  exact Except.ok.inj (htake.symm.trans hcovered)

/-- A match is a vector of the index joined with a grain that the predicate holds of. -/
lemma mem_matching (hiter : (iter index).Perm index.toList) {r : Ranked D} :
    r ∈ matching iter dist index found query predicate ↔
      ∃ sid v, index[sid]? = some v ∧ found sid = some r.grain ∧ predicate r.grain ∧
        r.dist = dist query v := by
  rw [matching, List.mem_filterMap]
  constructor
  · rintro ⟨c, hc, hr⟩
    obtain ⟨v, hv, hdist⟩ := (BruteForceIndex.mem_ranked hiter).mp hc
    obtain ⟨g, hg, rfl⟩ := Option.map_eq_some_iff.mp hr
    obtain ⟨hfound, hpred⟩ := Option.filter_eq_some_iff.mp hg
    exact ⟨c.sid, v, hv, hfound, hpred, hdist⟩
  · rintro ⟨sid, v, hv, hfound, hpred, hdist⟩
    refine ⟨⟨sid, dist query v⟩, (BruteForceIndex.mem_ranked hiter).mpr ⟨v, hv, rfl⟩, ?_⟩
    dsimp only
    rw [hfound, Option.filter_some, if_pos hpred, Option.map_some, ← hdist]

/-- There are no more matches than entries. -/
lemma length_matching_le (hiter : (iter index).Perm index.toList) :
    (matching iter dist index found query predicate).length ≤ index.size := by
  refine (List.length_filterMap_le _ _).trans ?_
  rw [BruteForceIndex.ranked, List.length_insertionSort, List.length_map, hiter.length_eq,
    Std.ExtTreeMap.length_toList]

/-- No grain id is matched twice. -/
lemma pairwise_sid_matching (hiter : (iter index).Perm index.toList)
    (hfound : ∀ sid g, found sid = some g → g.sid = sid) :
    (matching iter dist index found query predicate).Pairwise
      fun a b => a.grain.sid ≠ b.grain.sid := by
  have hranked := BruteForceIndex.pairwise_sid_ranked dist query hiter
  refine hranked.filterMap _ ?_
  intro a b hab r hr r' hr'
  obtain ⟨g, hg, rfl⟩ := Option.map_eq_some_iff.mp hr
  obtain ⟨g', hg', rfl⟩ := Option.map_eq_some_iff.mp hr'
  dsimp only
  rw [hfound _ _ (Option.filter_eq_some_iff.mp hg).1,
    hfound _ _ (Option.filter_eq_some_iff.mp hg').1]
  exact hab

end Exact

end GrainStore
