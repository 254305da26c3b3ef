import Mathlib
import GrainStore.Query.Predicates
import GrainStore.Truth.Scan

/-!
# Rebuilding the index

The vector index does not persist: after a reopen it is rebuilt from the live grains.
`rebuilt_eq_iff` compares the rebuilt index with the one the materializer had made of the change
stream before.  Both hold one vector for each grain id: the rebuilt one that of the live grain under
the largest predicate, the incremental one that of the last commit.
-/

namespace GrainStore

namespace GrainEngine

variable {I V : Type*}

/-- The loop over the live grains, with the index and the number of vectors inserted so far. -/
def rebuildFrom (writer : IndexWriter I V) (embed : Bytes → Option V) (index : I) (n : ℕ) :
    List Grain → I × ℕ
  | [] => (index, n)
  | g :: rest =>
    match g.val with
    | .tombstone => rebuildFrom writer embed index n rest
    | .bytes b =>
      match embed b with
      | some v => rebuildFrom writer embed (writer.insert index g.sid v) (n + 1) rest
      | none => rebuildFrom writer embed index n rest

/-- Rebuild the vector index from the durable truth; returns the number of vectors inserted. -/
def rebuildIndexFromTruth (writer : IndexWriter I V) (embed : Bytes → Option V)
    (e : GrainEngine I) : GrainEngine I × Except Error ℕ :=
  match TruthStore.scanLive e.truth.committer.kv with
  | .error err => (e, .error err)
  | .ok live =>
    let rebuilt := rebuildFrom writer embed e.index 0 live
    ({ e with index := rebuilt.1 }, .ok rebuilt.2)

/-- What the log file holds: the synced frames and what a failed write left behind them. -/
def disk (e : GrainEngine I) : Bytes := e.truth.committer.file ++ e.truth.committer.tail

/-- The engine that reopening the log file gives, its exact index rebuilt. -/
def reopened (embed : Bytes → Option V) (e : GrainEngine I) : GrainEngine (VectorMap V) :=
  ((openWith e.disk ∅).rebuildIndexFromTruth BruteForceIndex.writer embed).1

end GrainEngine

/-! ## The rebuilt map -/

section Rebuilt

variable {V : Type*} {embed : Bytes → Option V}

/-- The grains of one id that have a vector. -/
def embeddable (embed : Bytes → Option V) (sid : Sid) (live : List Grain) : List Grain :=
  live.filter fun g => g.sid = sid ∧ g.embedding embed ≠ none

/-- A grain with a vector is inserted, any other is passed over. -/
lemma rebuildFrom_cons (m : VectorMap V) (n : ℕ) (g : Grain) (rest : List Grain) :
    GrainEngine.rebuildFrom BruteForceIndex.writer embed m n (g :: rest) =
      (g.embedding embed).elim (GrainEngine.rebuildFrom BruteForceIndex.writer embed m n rest)
        fun v => GrainEngine.rebuildFrom BruteForceIndex.writer embed (m.insert g.sid v) (n + 1)
          rest := by
  rw [GrainEngine.rebuildFrom, Grain.embedding]
  cases g.val with
  | tombstone => rfl
  | bytes b =>
    dsimp only
    cases embed b with
    | none => rfl
    | some v => rfl

lemma mem_embeddable {sid : Sid} {live : List Grain} {g : Grain} :
    g ∈ embeddable embed sid live ↔ g ∈ live ∧ g.sid = sid ∧ g.embedding embed ≠ none := by
  rw [embeddable, List.mem_filter, decide_eq_true_iff]

/-- The entry of a grain id after the loop is the vector of the last of its grains that has one. -/
lemma getElem?_rebuildFrom (m : VectorMap V) (n : ℕ) (live : List Grain) (sid : Sid) :
    (GrainEngine.rebuildFrom BruteForceIndex.writer embed m n live).1[sid]? =
      ((embeddable embed sid live).getLast?.bind fun g => g.embedding embed).or m[sid]? := by
  induction live generalizing m n with
  | nil => rfl
  | cons g rest ih =>
    rw [rebuildFrom_cons, embeddable, List.filter_cons]
    cases hg : g.embedding embed with
    | none =>
      rw [if_neg (by simp)]
      exact ih m n
    | some v =>
      rw [Option.elim_some, ih, OrderedMap.getElem?_insert_eq]
      by_cases hsid : g.sid = sid
      · rw [if_pos hsid, if_pos (by simp [hsid]), List.getLast?_cons, Option.bind_some]
        cases hlast : (embeddable embed sid rest).getLast? with
        | none =>
          rw [embeddable] at hlast
          rw [hlast, Option.getD_none, hg]
          rfl
        | some g' =>
          have hsome := (mem_embeddable.mp (List.mem_of_getLast? hlast)).2.2
          obtain ⟨w, hw⟩ := Option.ne_none_iff_exists'.mp hsome
          rw [embeddable] at hlast
          rw [hlast, Option.getD_some, Option.bind_some, hw]
          rfl
      · rw [if_neg hsid, if_neg (by simp [hsid])]
        rfl

end Rebuilt

/-! ## Rebuilt and incremental -/

/-- The vector a rebuild leaves for a grain id: that of the live grain under the largest predicate,
among those that have one. -/
def GrainEngine.RebuiltVector {I V : Type*} (embed : Bytes → Option V) (e : GrainEngine I)
    (sid : Sid) (v : V) : Prop :=
  ∃ pred g, e.truth.read sid pred = .ok (some g) ∧ g.embedding embed = some v ∧
    ∀ pred' g', e.truth.read sid pred' = .ok (some g') → g'.embedding embed ≠ none → pred' ≤ pred

section Compare

variable {V : Type*} (embed : Bytes → Option V)

lemma tail_exact {hist : WriteHistory} (h : ∀ w ∈ hist, w.2 = none) :
    (GrainEngine.exact embed hist).truth.committer.tail = [] := by
  have htail : ((GrainEngine.openWith [] (∅ : VectorMap V)).writeAll hist).truth.committer.tail =
      [] := by
    induction hist using List.reverseRecOn with
    | nil => rfl
    | append_singleton hist w ih =>
      rw [GrainEngine.writeAll_concat, GrainEngine.truth_write, h w (by simp), TruthStore.tail_commit]
      exact ih fun w' hw' => h w' (List.mem_append_left _ hw')
  exact htail

/-- A reopened store reads what the log of its file has. -/
lemma read_reopened {I : Type*} (e : GrainEngine I) (sid : Sid) (pred : PredId) :
    (e.reopened embed).truth.read sid pred = .ok ((LogStore.opened e.disk).read sid pred) := by
  have hshows := TruthStore.shows_start e.disk
  have htruth : (e.reopened embed).truth = (TruthStore.start e.disk).subscribe := by
    rw [GrainEngine.reopened, GrainEngine.rebuildIndexFromTruth]
    split
    · rfl
    · rfl
  rw [htruth]
  exact hshows.read sid pred

/-- The entries of a rebuilt index. -/
theorem getElem?_reopened {I : Type*} (e : GrainEngine I) (sid : Sid) (v : V) :
    (e.reopened embed).index[sid]? = some v ↔ (e.reopened embed).RebuiltVector embed sid v := by
  have hshows := TruthStore.shows_start e.disk
  obtain ⟨live, hlive, hmem, hsorted⟩ := TruthStore.scanLive_ok hshows.grains
  have hreopened : e.reopened embed = { GrainEngine.openWith e.disk (∅ : VectorMap V) with
      index := (GrainEngine.rebuildFrom BruteForceIndex.writer embed ∅ 0 live).1 } := by
    rw [GrainEngine.reopened, GrainEngine.rebuildIndexFromTruth]
    have hscan : TruthStore.scanLive (GrainEngine.openWith e.disk
        (∅ : VectorMap V)).truth.committer.kv = .ok live := hlive
    rw [hscan]
    rfl
  have hread := fun pred => read_reopened embed e sid pred
  have hentry : (e.reopened embed).index[sid]? =
      (embeddable embed sid live).getLast?.bind fun g => g.embedding embed := by
    rw [hreopened, getElem?_rebuildFrom]
    simp
  have hpreds : (embeddable embed sid live).Pairwise fun a b => a.pred < b.pred := by
    refine (hsorted.filter _).imp_of_mem fun {a b} ha hb hab => ?_
    rw [(mem_embeddable.mp ha).2.1, (mem_embeddable.mp hb).2.1, Prod.Lex.toLex_lt_toLex] at hab
    exact hab.resolve_left (lt_irrefl _) |>.2
  have hlivemem : ∀ g, g ∈ embeddable embed sid live ↔
      (e.reopened embed).truth.read sid g.pred = .ok (some g) ∧ g.embedding embed ≠ none := by
    intro g
    rw [mem_embeddable, hmem, hread, Except.ok.injEq, LogStore.read]
    constructor
    · rintro ⟨hg, rfl, hembed⟩
      exact ⟨hg, hembed⟩
    · rintro ⟨hg, hembed⟩
      have hsid : g.sid = sid := (LogStore.key_of_read hg).1
      exact ⟨hsid ▸ hg, hsid, hembed⟩
  have hkey : ∀ {pred g}, (e.reopened embed).truth.read sid pred = .ok (some g) → g.pred = pred :=
    fun {pred g} hg => by
      rw [hread, Except.ok.injEq] at hg
      exact (LogStore.key_of_read hg).2
  rw [hentry, Option.bind_eq_some_iff]
  constructor
  · rintro ⟨g, hlast, hv⟩
    obtain ⟨hg, hmax⟩ := (Ranking.getLast?_eq_some_iff hpreds).mp hlast
    refine ⟨g.pred, g, ((hlivemem g).mp hg).1, hv, ?_⟩
    intro pred' g' hg' hembed
    obtain rfl := hkey hg'
    exact hmax g' ((hlivemem g').mpr ⟨hg', hembed⟩)
  · rintro ⟨pred, g, hg, hv, hmax⟩
    obtain rfl := hkey hg
    refine ⟨g, (Ranking.getLast?_eq_some_iff hpreds).mpr ⟨?_, fun g' hg' => ?_⟩, hv⟩
    · exact (hlivemem g).mpr ⟨hg, by simp [hv]⟩
    · obtain ⟨hread', hembed⟩ := (hlivemem g').mp hg'
      exact hmax g'.pred g' hread' hembed

/-- When the incremental index is rebuildable.  Take any history of write calls on an empty log and
the exact index that the materializer makes of it.  Reopening the log file and rebuilding gives the
same map exactly when, for each grain id, the vector that its last commit leaves is that of the
live grain the reopened store has under the largest predicate, among those with a vector.  When
no write failed and all values fit the format, the reopened store has the grains it had before. -/
theorem rebuilt_eq_iff (hist : WriteHistory) :
    (((GrainEngine.exact embed hist).reopened embed).index = (GrainEngine.exact embed hist).index ↔
      ∀ sid v, WalLog.vector embed (WriteHistory.store [] hist).log sid = some v ↔
        ((GrainEngine.exact embed hist).reopened embed).RebuiltVector embed sid v) ∧
    ((∀ w ∈ hist, w.2 = none) → (∀ r ∈ (WriteHistory.store [] hist).added, r.Fits) →
      ∀ sid pred, ((GrainEngine.exact embed hist).reopened embed).truth.read sid pred =
        (GrainEngine.exact embed hist).truth.read sid pred) := by
  set e := GrainEngine.exact embed hist with he
  have hshows := shows_exact embed hist
  have hlog : (WriteHistory.store [] hist).log = (WriteHistory.store [] hist).added := by
    rw [LogStore.log, hshows.base, logOf_of_none rfl, List.nil_append]
  have hentry : ∀ sid, e.index[sid]? = WalLog.vector embed (WriteHistory.store [] hist).log sid :=
    fun sid => by rw [he, exact_index, getElem?_applyAll_log, hlog]
  refine ⟨⟨fun h sid v => ?_, fun h => Std.ExtTreeMap.ext_getElem? fun sid => ?_⟩, fun hok hfits => ?_⟩
  · rw [← hentry, ← h]
    exact getElem?_reopened embed e sid v
  · refine Option.ext ?_
    intro v
    rw [getElem?_reopened, ← h sid v, hentry]
  · have hlogOf : logOf e.disk = (WriteHistory.store [] hist).added := by
      rw [GrainEngine.disk, hshows.file, tail_exact embed hok, List.append_nil, List.nil_append,
        logOf_flatMap hfits]
    have hopened : (LogStore.opened e.disk).log = (WriteHistory.store [] hist).log := by
      rw [hlog, ← hlogOf]
      exact List.append_nil _
    intro sid pred
    rw [read_reopened, hshows.read, LogStore.read, LogStore.read, hopened]

end Compare

open JoinExample in
/-- A grain at coordinate 2 under predicate 1 and then one of the same id at 0 under predicate 0:
the rebuilt index has the first vector, the incremental one the second. -/
theorem rebuilt_ne :
    ((GrainEngine.exact coordinate [putAt 1 1 2 1, putAt 1 0 0 2]).reopened coordinate).index ≠
      (GrainEngine.exact coordinate [putAt 1 1 2 1, putAt 1 0 0 2]).index := by
  intro heq
  have hrebuilt : ((GrainEngine.exact coordinate
      [putAt 1 1 2 1, putAt 1 0 0 2]).reopened coordinate).index[(1 : Sid)]? = some 2 := by
    decide +kernel
  have hincremental : (GrainEngine.exact coordinate
      [putAt 1 1 2 1, putAt 1 0 0 2]).index[(1 : Sid)]? = some 0 := by
    decide +kernel
  rw [heq, hincremental] at hrebuilt
  exact absurd hrebuilt (by decide)

open JoinExample in
/-- The grains of that history are all there after a reopen. -/
theorem rebuilt_eq_iff_reads :
    ((GrainEngine.exact coordinate [putAt 1 1 2 1, putAt 1 0 0 2]).reopened
        coordinate).truth.read 1 1 =
      (GrainEngine.exact coordinate [putAt 1 1 2 1, putAt 1 0 0 2]).truth.read 1 1 :=
  (rebuilt_eq_iff coordinate [putAt 1 1 2 1, putAt 1 0 0 2]).2 (by decide) (by decide +kernel) 1 1

end GrainStore
