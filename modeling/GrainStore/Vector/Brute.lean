import Mathlib
import GrainStore.Materializer

/-!
# The exact vector index

The index is searched through an interface of its own, so that an approximate index can stand in
for the exact one.  `BruteForceIndex.search` scans a hash map, whose iteration order is a
parameter, sorts all candidates by distance and keeps the nearest.
-/

namespace GrainStore

/-- A search result: a grain id and its distance to the query. -/
structure Candidate (D : Type*) where
  sid : Sid
  dist : D

/-- What a query needs of an index: up to `k` nearest candidates, `ef` the beam width. -/
structure VectorIndex (I Q D : Type*) where
  search : I → Q → ℕ → ℕ → List (Candidate D)

/-- What the materializer needs of an index: insert or replace a vector, and remove one. -/
structure IndexWriter (I V : Type*) where
  insert : I → Sid → V → I
  remove : I → Sid → I

/-- Apply one change to an index. -/
def IndexWriter.apply {I V : Type*} (w : IndexWriter I V) (embed : Bytes → Option V) (index : I)
    (r : CdcRecord) : I :=
  if r.isDelete then w.remove index r.sid
  else
    match embed r.val with
    | some v => w.insert index r.sid v
    | none => w.remove index r.sid

/-- The order of candidates and results by distance. -/
abbrev DistLE {R D : Type*} [LinearOrder D] (dist : R → D) (a b : R) : Prop := dist a ≤ dist b

instance {R D : Type*} [LinearOrder D] (dist : R → D) : Std.Total (DistLE dist) :=
  ⟨fun a b => le_total (dist a) (dist b)⟩

instance {R D : Type*} [LinearOrder D] (dist : R → D) : IsTrans R (DistLE dist) :=
  ⟨fun _ _ _ => le_trans⟩

namespace BruteForceIndex

variable {V Q D : Type*} [LE D] [DecidableLE D]

/-- All candidates, nearest first. -/
def ranked (iter : VectorMap V → List (Sid × V)) (dist : Q → V → D) (index : VectorMap V)
    (query : Q) : List (Candidate D) :=
  ((iter index).map fun e => (⟨e.1, dist query e.2⟩ : Candidate D)).insertionSort
    fun a b => a.dist ≤ b.dist

/-- The exact index; the beam width is ignored. -/
def search (iter : VectorMap V → List (Sid × V)) (dist : Q → V → D) :
    VectorIndex (VectorMap V) Q D :=
  ⟨fun index query k _ => (ranked iter dist index query).take k⟩

/-- The exact index is the map the materializer model keeps. -/
def writer : IndexWriter (VectorMap V) V :=
  ⟨fun m sid v => m.insert sid v, fun m sid => m.erase sid⟩

section Ranked

variable {iter : VectorMap V → List (Sid × V)} {dist : Q → V → D} {index : VectorMap V} {query : Q}

/-- The candidates are the entries of the map. -/
lemma mem_ranked (hiter : (iter index).Perm index.toList) {c : Candidate D} :
    c ∈ ranked iter dist index query ↔ ∃ v, index[c.sid]? = some v ∧ c.dist = dist query v := by
  rw [ranked, List.mem_insertionSort, List.mem_map]
  constructor
  · rintro ⟨⟨sid, v⟩, hv, rfl⟩
    exact ⟨v, Std.ExtTreeMap.mem_toList_iff_getElem?_eq_some.mp (hiter.mem_iff.mp hv), rfl⟩
  · rintro ⟨v, hv, hdist⟩
    refine ⟨(c.sid, v), hiter.mem_iff.mpr ?_, by rw [← hdist]⟩
    exact Std.ExtTreeMap.mem_toList_iff_getElem?_eq_some.mpr hv

/-- No grain id is ranked twice. -/
lemma pairwise_sid_ranked (dist : Q → V → D) (query : Q) (hiter : (iter index).Perm index.toList) :
    (ranked iter dist index query).Pairwise fun a b => a.sid ≠ b.sid := by
  rw [ranked, (List.perm_insertionSort _ _).pairwise_iff fun h => h.symm, List.pairwise_map,
    hiter.pairwise_iff fun h => h.symm]
  exact Std.ExtTreeMap.distinct_keys_toList.imp fun hne heq =>
    hne (Std.LawfulEqCmp.compare_eq_iff_eq.mpr heq)

/-- The candidates are in the order of their distances. -/
lemma pairwise_ranked {D : Type*} [LinearOrder D] {dist : Q → V → D} :
    (ranked iter dist index query).Pairwise (DistLE Candidate.dist) :=
  List.pairwise_insertionSort (DistLE Candidate.dist) _

end Ranked

lemma apply_writer (embed : Bytes → Option V) : writer.apply embed = applyChange embed := rfl

end BruteForceIndex

end GrainStore
