import Mathlib
import GrainStore.Engine.Writes
import GrainStore.Foundation.Ranking

/-!
# The mixed query on several predicates

The truth store is keyed by `(sid, pred)` and the vector index by `sid` alone: the index entry of a
grain id is what its last commit leaves, whatever predicate that was under.
`nearJoinSelect_nearest_iff` says when a mixed query over the exact index answers for the predicate
it names all the same.
-/

namespace GrainStore

open Ranking

/-- The vector of a grain's own value. -/
def Grain.embedding {V : Type*} (embed : Bytes → Option V) (g : Grain) : Option V :=
  match g.val with
  | .bytes b => embed b
  | .tombstone => none

/-- The vector that the last commit of a grain id leaves. -/
def WalLog.vector {V : Type*} (embed : Bytes → Option V) (recs : List WalRecord) (sid : Sid) :
    Option V :=
  ((recs.filter fun r => r.sid = sid).getLast?).bind fun r => effect embed r.cdc

namespace GrainEngine

/-- What a query should match: the live grains under `pred` that the predicate holds of, each
ranked by the vector of its own value. -/
def Eligible {I V Q D : Type*} (embed : Bytes → Option V) (dist : Q → V → D) (e : GrainEngine I)
    (pred : PredId) (query : Q) (predicate : Grain → Bool) : Set (Ranked D) :=
  {r | ∃ sid v, e.truth.read sid pred = .ok (some r.grain) ∧ predicate r.grain ∧
    r.grain.embedding embed = some v ∧ r.dist = dist query v}

/-- The engine behind a history on an empty log, its exact index fully materialized. -/
def exact {V : Type*} (embed : Bytes → Option V) (hist : WriteHistory) :
    GrainEngine (VectorMap V) :=
  behind BruteForceIndex.writer embed [] ∅ hist

end GrainEngine

/-! ## The index of a history -/

section Entries

variable {V : Type*} {embed : Bytes → Option V}

lemma getElem?_applyAll_log (embed : Bytes → Option V) (recs : List WalRecord) (sid : Sid) :
    (applyAll embed (recs.map WalRecord.cdc))[sid]? = WalLog.vector embed recs sid := by
  have hfilter : (recs.map WalRecord.cdc).filter (fun r => r.sid = sid) =
      (recs.filter fun r => r.sid = sid).map WalRecord.cdc := List.filter_map
  rw [getElem?_applyAll, hfilter, List.getLast?_map, WalLog.vector, Option.bind_map]
  rfl

/-- An index has no more entries than changes were applied to it. -/
lemma size_applyAll_le (embed : Bytes → Option V) (changes : List CdcRecord) :
    (applyAll embed changes).size ≤ changes.length := by
  induction changes using List.reverseRecOn with
  | nil => exact le_rfl
  | append_singleton changes r ih =>
    have hfold : applyAll embed (changes ++ [r]) = applyChange embed (applyAll embed changes) r := by
      simp [applyAll]
    have herase : ((applyAll embed changes).erase r.sid).size ≤ changes.length + 1 :=
      Std.ExtTreeMap.size_erase_le.trans (ih.trans (Nat.le_succ _))
    rw [hfold, List.length_append, List.length_singleton, applyChange]
    split
    · exact herase
    · split
      · exact Std.ExtTreeMap.size_insert_le.trans (Nat.succ_le_succ ih)
      · exact herase

/-- The vector of a grain id is that of its live grain under `pred` when its last commit is under
`pred`. -/
lemma vector_eq_embedding {s : LogStore} (hsorted : s.log.Pairwise fun a b => a.seq < b.seq)
    (embed : Bytes → Option V) {sid : Sid} {pred : PredId} {g : Grain}
    (hg : s.read sid pred = some g)
    (hlast : ∀ r, (s.log.filter fun r => r.sid = sid).getLast? = some r → r.pred = pred) :
    WalLog.vector embed s.log sid = g.embedding embed := by
  rw [LogStore.read] at hg
  obtain ⟨r₀, hr₀, -⟩ := Option.bind_eq_some_iff.mp hg
  obtain ⟨hmem, hsid, -⟩ := WalLog.mem_of_newest hr₀
  cases hr : (s.log.filter fun r => r.sid = sid).getLast? with
  | none =>
    have hnil := List.filter_eq_nil_iff.mp (List.getLast?_eq_none_iff.mp hr) r₀ hmem
    exact absurd (decide_eq_true hsid) hnil
  | some r =>
    rw [WalLog.newest_of_last hsorted hr (hlast r hr), Option.bind_some] at hg
    rw [WalLog.vector, hr, Option.bind_some]
    unfold WalLog.grainOf at hg
    split at hg
    · simp at hg
    · rename_i hop
      obtain rfl := Option.some.inj hg
      have hput : r.cdc.isDelete = false := decide_eq_false hop
      rw [effect, hput]
      rfl

variable (embed) (hist : WriteHistory)

lemma exact_index : (GrainEngine.exact embed hist).index =
    applyAll embed ((WriteHistory.store [] hist).added.map WalRecord.cdc) := by
  rw [GrainEngine.exact, GrainEngine.index_behind, BruteForceIndex.apply_writer, applyAll,
    List.foldl_map]

lemma shows_exact :
    (GrainEngine.exact embed hist).truth.Shows [] (WriteHistory.store [] hist) :=
  GrainEngine.shows_behind _ _ _ _ hist

/-- The exact index of a history has fewer entries than there are timestamps. -/
lemma size_exact_index_le : (GrainEngine.exact embed hist).index.size ≤ usizeMax := by
  have hgrown := (shows_exact embed hist).grown
  have hclock := hgrown.clock_toNat
  have hlt := (WalLog.clock ((WriteHistory.store [] hist).base ++
    (WriteHistory.store [] hist).added)).isLt
  have hsize := size_applyAll_le embed ((WriteHistory.store [] hist).added.map WalRecord.cdc)
  rw [List.length_map] at hsize
  rw [exact_index, usizeMax]
  omega

end Entries

/-! ## Queries over the exact index -/

section Nearest

variable {V Q D : Type*} [LinearOrder D]

/-- A query with as many candidates as the index has entries returns the nearest matches. -/
lemma nearJoinSelect_eq_matching {iter : VectorMap V → List (Sid × V)} {index : VectorMap V}
    (hiter : (iter index).Perm index.toList) (dist : Q → V → D)
    {get : Sid → PredId → Except Error (Option Grain)} {found : Sid → Option Grain} {pred : PredId}
    (hget : ∀ sid, get sid pred = .ok (found sid)) (hsize : index.size ≤ usizeMax) (query : Q)
    (predicate : Grain → Bool) {k overFetch : ℕ} (ef : ℕ) (hcover : index.size ≤ k * overFetch) :
    nearJoinSelect get (BruteForceIndex.search iter dist) index
        { pred, query, k, ef, overFetch } predicate =
      .ok ((matching iter dist index found query predicate).take k) := by
  refine nearJoinSelect_of_covered iter dist index predicate _ hget ?_
  have hmul : k * overFetch ≤ k * max overFetch 1 := Nat.mul_le_mul_left k (le_max_left _ _)
  rw [hiter.length_eq, Std.ExtTreeMap.length_toList, MixedQuery.fetch, saturatingMul]
  exact le_max_of_le_left (le_min (hcover.trans hmul) hsize)

omit [LinearOrder D] in
/-- The index matches what is eligible exactly when every live grain that the predicate holds of is
as far from the query by the vector of its grain id as by its own. -/
lemma forall_match_iff (embed : Bytes → Option V) (dist : Q → V → D) (s : LogStore) (pred : PredId)
    (query : Q) (predicate : Grain → Bool) :
    (∀ r : Ranked D,
      (∃ sid v, WalLog.vector embed s.log sid = some v ∧ s.read sid pred = some r.grain ∧
        predicate r.grain ∧ r.dist = dist query v) ↔
      ∃ sid v, s.read sid pred = some r.grain ∧ predicate r.grain ∧
        r.grain.embedding embed = some v ∧ r.dist = dist query v) ↔
    ∀ sid g, s.read sid pred = some g → predicate g →
      (WalLog.vector embed s.log sid).map (dist query) =
        (g.embedding embed).map (dist query) := by
  constructor
  · intro hsame sid g hg hpred
    cases hv : WalLog.vector embed s.log sid with
    | some v =>
      obtain ⟨-, v', -, -, hv', hdist⟩ := (hsame ⟨g, dist query v⟩).mp ⟨sid, v, hv, hg, hpred, rfl⟩
      have hdist' : dist query v = dist query v' := hdist
      rw [hv', Option.map_some, Option.map_some, hdist']
    | none =>
      have hnone := hv
      cases hv' : g.embedding embed with
      | none => rfl
      | some v' =>
        obtain ⟨sid', v, hv, hg', -⟩ :=
          (hsame ⟨g, dist query v'⟩).mpr ⟨sid, v', hg, hpred, hv', rfl⟩
        rw [← (LogStore.key_of_read hg').1, (LogStore.key_of_read hg).1, hnone] at hv
        simp at hv
  · intro h r
    refine exists_congr ?_
    intro sid
    constructor
    · rintro ⟨v, hv, hg, hpred, hdist⟩
      have hmap := h sid r.grain hg hpred
      rw [hv, Option.map_some] at hmap
      obtain ⟨v', hv', heq⟩ := Option.map_eq_some_iff.mp hmap.symm
      exact ⟨v', hg, hpred, hv', hdist.trans heq.symm⟩
    · rintro ⟨v', hg, hpred, hv', hdist⟩
      have hmap := h sid r.grain hg hpred
      rw [hv', Option.map_some] at hmap
      obtain ⟨v, hv, heq⟩ := Option.map_eq_some_iff.mp hmap
      exact ⟨v, hv, hg, hpred, hdist.trans heq.symm⟩

/-- When the mixed query answers for the predicate it names.  Take any history of write calls on an
empty log, the exact index that the materializer makes of it, a query vector and a predicate on
grains.  Whatever `k`, beam width and over-fetch are, if the candidates cover the index, the query
returns, up to ties, exactly the `k` nearest live grains under `pred` that the predicate holds of,
ranked by the vector of their own value: that is so exactly when, for each such grain, the last
commit of its grain id under any predicate leaves a vector as far from the query as the grain's
own, or none where the grain has none. -/
theorem nearJoinSelect_nearest_iff {iter : VectorMap V → List (Sid × V)}
    (hiter : ∀ m, (iter m).Perm m.toList) (embed : Bytes → Option V) (dist : Q → V → D)
    (hist : WriteHistory) (pred : PredId) (query : Q) (predicate : Grain → Bool) :
    (∀ k ef overFetch, (GrainEngine.exact embed hist).index.size ≤ k * overFetch →
      ∃ out, nearJoinSelect (GrainEngine.exact embed hist).truth.read
          (BruteForceIndex.search iter dist) (GrainEngine.exact embed hist).index
          { pred, query, k, ef, overFetch } predicate = .ok out ∧
        Nearest Ranked.dist
          ((GrainEngine.exact embed hist).Eligible embed dist pred query predicate) k out) ↔
    ∀ sid g, (GrainEngine.exact embed hist).truth.read sid pred = .ok (some g) → predicate g →
      (WalLog.vector embed (WriteHistory.store [] hist).log sid).map (dist query) =
        (g.embedding embed).map (dist query) := by
  set e := GrainEngine.exact embed hist with he
  set s := WriteHistory.store [] hist with hs
  have hread : ∀ sid, e.truth.read sid pred = .ok (s.read sid pred) := fun sid =>
    (shows_exact embed hist).read sid pred
  have hbase : s.log = s.added := by
    rw [LogStore.log, (shows_exact embed hist).base, logOf_of_none rfl, List.nil_append]
  have hentry : ∀ sid, e.index[sid]? = WalLog.vector embed s.log sid := by
    intro sid
    rw [he, exact_index, getElem?_applyAll_log, hbase]
  set all := matching iter dist e.index (fun sid => s.read sid pred) query predicate with hall
  have hmem : ∀ r : Ranked D, r ∈ all ↔ ∃ sid v, WalLog.vector embed s.log sid = some v ∧
      s.read sid pred = some r.grain ∧ predicate r.grain ∧ r.dist = dist query v := by
    intro r
    simp only [hall, mem_matching (hiter e.index), hentry]
  have hnodup : all.Nodup :=
    (pairwise_sid_matching (hiter e.index) fun sid g hg => (LogStore.key_of_read hg).1).imp
      fun hne heq => hne (congrArg (fun r => r.grain.sid) heq)
  have hlength : all.length ≤ e.index.size := length_matching_le (hiter e.index)
  have hanswer : ∀ k ef overFetch, e.index.size ≤ k * overFetch →
      nearJoinSelect e.truth.read (BruteForceIndex.search iter dist) e.index
        { pred, query, k, ef, overFetch } predicate = .ok (all.take k) :=
    fun k ef overFetch hcover => nearJoinSelect_eq_matching (hiter e.index) dist hread
      (size_exact_index_le embed hist) query predicate ef hcover
  have helig : ∀ r : Ranked D, r ∈ e.Eligible embed dist pred query predicate ↔
      ∃ sid v, s.read sid pred = some r.grain ∧ predicate r.grain ∧
        r.grain.embedding embed = some v ∧ r.dist = dist query v := by
    intro r
    simp only [GrainEngine.Eligible, Set.mem_ofPred_eq, hread, Except.ok.injEq]
  have hmatch := forall_match_iff embed dist s pred query predicate
  constructor
  · intro h sid g hg hpred
    rw [hread, Except.ok.injEq] at hg
    -- a query with room for the whole index returns all matches
    have hcover : e.index.size ≤ (e.index.size + 1) * 1 := by omega
    obtain ⟨out, hout, hnearest⟩ := h (e.index.size + 1) 0 1 hcover
    rw [hanswer _ _ _ hcover, Except.ok.injEq, List.take_of_length_le (by omega)] at hout
    subst hout
    refine hmatch.mp (fun r => ?_) sid g hg hpred
    rw [← hmem, ← helig]
    exact hnearest.mem_of_lt (Nat.lt_succ_of_le hlength)
  · intro h k ef overFetch hcover
    refine ⟨_, hanswer k ef overFetch hcover, nearest_take pairwise_matching hnodup fun r => ?_⟩
    rw [hmem, helig]
    exact hmatch.mpr (fun sid g hg => h sid g (by rw [hread, hg])) r

end Nearest

namespace JoinExample

/-- An embedder: the first byte is the coordinate. -/
def coordinate (value : Bytes) : Option ℤ := value.head?.map fun b => (b.toNat : ℤ)

/-- The squared distance. -/
def squared (query v : ℤ) : ℤ := (query - v) ^ 2

/-- A put of one coordinate under its own idempotency key. -/
def putAt (sid : Sid) (pred : PredId) (x : FixedWidth.Byte) (key : U128) :
    EngineWrite × Option (IoError × ℕ) :=
  (.putRaw sid pred [x] ⟨0, 0, key⟩, none)

/-- The answer to a query for 0 under predicate 0. -/
def nearZero (hist : WriteHistory) (k overFetch : ℕ) : Except Error (List (Ranked ℤ)) :=
  nearJoinSelect (GrainEngine.exact coordinate hist).truth.read
    (BruteForceIndex.search (fun m => m.toList) squared)
    (GrainEngine.exact coordinate hist).index { pred := 0, query := 0, k, ef := 0, overFetch }
    fun _ => true

end JoinExample

open JoinExample in
/-- A grain under predicate 0 at coordinate 0; a put of its id under predicate 1 at coordinate 2.
The query for 0 under predicate 0 returns the grain at distance 4, not 0. -/
theorem nearJoinSelect_other_predicate :
    (GrainEngine.exact coordinate [putAt 1 0 0 1, putAt 1 1 2 2]).index.size ≤ 1 * 1 ∧
      ¬∃ out, nearZero [putAt 1 0 0 1, putAt 1 1 2 2] 1 1 = .ok out ∧
        Nearest Ranked.dist ((GrainEngine.exact coordinate [putAt 1 0 0 1, putAt 1 1 2 2]).Eligible
          coordinate squared 0 0 fun _ => true) 1 out := by
  refine ⟨by decide +kernel, ?_⟩
  rintro ⟨out, hout, hnearest⟩
  have hdists : (nearZero [putAt 1 0 0 1, putAt 1 1 2 2] 1 1).map
      (fun out => out.map fun r => (r.grain.sid, r.dist)) = .ok [(1, 4)] := by decide +kernel
  have hread : (GrainEngine.exact coordinate [putAt 1 0 0 1, putAt 1 1 2 2]).truth.read 1 0 =
      .ok (some ⟨1, 0, .bytes [0], 0, 0, 1⟩) := by decide +kernel
  rw [hout, Except.map, Except.ok.injEq] at hdists
  obtain ⟨r, hr, heq⟩ := List.mem_map.mp (hdists ▸ List.mem_singleton_self (1, 4))
  obtain ⟨hsid, hdist⟩ := Prod.mk.inj heq
  obtain ⟨sid, v, hget, -, hembed, hrank⟩ := hnearest.mem r hr
  -- the only live grain under predicate 0 is the one at coordinate 0
  rw [(shows_exact coordinate _).read, Except.ok.injEq] at hget
  rw [← (LogStore.key_of_read hget).1, hsid] at hget
  rw [(shows_exact coordinate _).read, hget, Except.ok.injEq, Option.some.injEq] at hread
  have hcoord : r.grain.embedding coordinate = some 0 := by rw [hread]; rfl
  rw [hcoord] at hembed
  obtain rfl := Option.some.inj hembed
  rw [hrank] at hdist
  exact absurd hdist (by decide)

open JoinExample in
/-- The same grain and an overwrite of another id, all under predicate 0. -/
theorem nearJoinSelect_nearest_iff_single :
    ∃ out, nearZero [putAt 1 0 0 1, putAt 2 0 3 2, putAt 2 0 1 3] 1 2 = .ok out ∧
      Nearest Ranked.dist ((GrainEngine.exact coordinate
        [putAt 1 0 0 1, putAt 2 0 3 2, putAt 2 0 1 3]).Eligible coordinate squared 0 0
          fun _ => true) 1 out := by
  have hone : ∀ r ∈ (WriteHistory.store [] [putAt 1 0 0 1, putAt 2 0 3 2, putAt 2 0 1 3]).log,
      r.pred = 0 := by decide +kernel
  have hsorted : (WriteHistory.store [] [putAt 1 0 0 1, putAt 2 0 3 2, putAt 2 0 1 3]).log.Pairwise
      fun a b => a.seq < b.seq := by decide +kernel
  refine (nearJoinSelect_nearest_iff (fun m => List.Perm.refl m.toList) coordinate squared _ 0 0
    fun _ => true).mpr (fun sid g hg _ => ?_) 1 0 2 (by decide +kernel)
  rw [(shows_exact coordinate _).read, Except.ok.injEq] at hg
  rw [vector_eq_embedding hsorted coordinate hg fun r hr =>
    hone r (List.mem_filter.mp (List.mem_of_getLast? hr)).1]

end GrainStore
