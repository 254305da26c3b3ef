import Mathlib
import GrainStore.Vector.Recall

/-!
# What every search returns

Whatever the tunables, the levels and the beam width, an index answers for the updates it was given
(`State.AnswersFor`): `len` counts the sids whose last update was an insert, each of these has one
live node, and a search returns some of them with the distances of their last vectors.  There is an
index, in every build, exactly when each node has room for its lists (`search_sound`).
-/

namespace GrainStore

namespace Hnsw

variable {V D : Type*} {dist : V → V → D} {s : State V} {m : VectorMap V}

/-! ## The last update of a sid -/

def Op.sid : Op V → Sid
  | .insert sid _ _ => sid
  | .remove sid => sid

/-- The vector of an insert. -/
def Op.vector? : Op V → Option V
  | .insert _ vector _ => some vector
  | .remove _ => none

/-- The vector that the last update of a sid inserted, if it was an insert. -/
def lastVector (ops : List (Op V)) (sid : Sid) : Option V :=
  (ops.reverse.find? fun op => op.sid = sid).bind Op.vector?

/-- The sids whose last update was an insert. -/
def liveSids (ops : List (Op V)) : List Sid :=
  (ops.map Op.sid).dedup.filter fun sid => (lastVector ops sid).isSome

lemma lastVector_concat (ops : List (Op V)) (op : Op V) (sid : Sid) :
    lastVector (ops ++ [op]) sid = if op.sid = sid then op.vector? else lastVector ops sid := by
  rw [lastVector, List.reverse_append, List.reverse_singleton, List.singleton_append,
    List.find?_cons]
  by_cases h : op.sid = sid
  · rw [if_pos h, decide_eq_true h]
    rfl
  · rw [if_neg h, decide_eq_false h]
    rfl

/-- The exact index holds the last vectors. -/
theorem getElem?_exact (ops : List (Op V)) (sid : Sid) :
    (exact ops)[sid]? = lastVector ops sid := by
  induction ops using List.reverseRecOn with
  | nil => exact Std.ExtTreeMap.getElem?_empty
  | append_singleton ops op ih =>
    rw [exact_concat, lastVector_concat, ← ih]
    cases op with
    | insert sid' v level => exact OrderedMap.getElem?_insert_eq _ _ _ _
    | remove sid' =>
      change ((exact ops).erase sid')[sid]? = if sid' = sid then none else (exact ops)[sid]?
      rw [Std.ExtTreeMap.getElem?_erase]
      exact if_congr Std.LawfulEqCmp.compare_eq_iff_eq rfl rfl

lemma mem_liveSids {ops : List (Op V)} {sid : Sid} :
    sid ∈ liveSids ops ↔ (lastVector ops sid).isSome := by
  rw [liveSids, List.mem_filter, List.mem_dedup, List.mem_map]
  refine ⟨And.right, fun hsome => ⟨?_, hsome⟩⟩
  obtain ⟨v, hv⟩ := Option.isSome_iff_exists.mp hsome
  obtain ⟨op, hop, -⟩ := Option.bind_eq_some_iff.mp hv
  exact ⟨op, List.mem_reverse.mp (List.mem_of_find?_eq_some hop),
    of_decide_eq_true (List.find?_some hop :)⟩

/-- The exact index has one entry for each of them. -/
lemma size_exact (ops : List (Op V)) : (exact ops).size = (liveSids ops).length := by
  have hnodup : (exact ops).keys.Nodup := Std.ExtTreeMap.nodup_keys
  have hlive : (liveSids ops).Nodup := (List.nodup_dedup _).filter _
  rw [← Std.ExtTreeMap.length_keys]
  refine ((List.perm_ext_iff_of_nodup hnodup hlive).mpr fun sid => ?_).length_eq
  rw [Std.ExtTreeMap.mem_keys, Std.ExtTreeMap.mem_iff_isSome_getElem?, getElem?_exact,
    mem_liveSids]

/-! ## The counter of live nodes -/

/-- The counter follows the deleted flags. -/
lemma State.Indexed.live_of_retire (h : s.Indexed m) (hlive : s.live = m.size) (sid : Sid) :
    (s.retire sid).live = (m.erase sid).size := by
  have hnot : m[sid]? = none → s.live = (m.erase sid).size := by
    intro hnone
    rw [Std.ExtTreeMap.size_erase, Std.ExtTreeMap.contains_eq_isSome_getElem?, hnone, hlive]
    rfl
  have hnewest : ∀ v, m[sid]? = some v →
      ∃ i, s.sidToIdx[sid]? = some i ∧ s.deleted[i]? = some false := by
    intro v hv
    obtain ⟨i, hi⟩ := (h.map sid v).mp hv
    exact ⟨i, h.newest i sid v hi, hi.2⟩
  unfold State.retire
  cases hold : s.sidToIdx[sid]? with
  | none =>
    refine hnot (Option.eq_none_iff_forall_ne_some.mpr fun v hv => ?_)
    obtain ⟨i, hi, -⟩ := hnewest v hv
    rw [hold] at hi
    cases hi
  | some old =>
    dsimp only
    by_cases hdel : s.deleted[old]? = some false
    · obtain ⟨v, hrow⟩ := h.lookup sid old hold
      have hsome : m[sid]? = some v := (h.map sid v).mpr ⟨old, hrow, hdel⟩
      rw [if_pos hdel, Std.ExtTreeMap.size_erase, Std.ExtTreeMap.contains_eq_isSome_getElem?, hsome,
        ← hlive]
      rfl
    · rw [if_neg hdel]
      refine hnot (Option.eq_none_iff_forall_ne_some.mpr fun v hv => ?_)
      obtain ⟨i, hi, hfalse⟩ := hnewest v hv
      rw [hold] at hi
      exact hdel (Option.some.inj hi ▸ hfalse)

lemma State.live_of_remove (s : State V) (sid : Sid) :
    (s.remove sid).live = (s.retire sid).live := by
  unfold State.remove
  cases hold : s.sidToIdx[sid]? with
  | none =>
    unfold State.retire
    rw [hold]
  | some old => rfl

variable [LinearOrder D]

lemma State.Wired.live_of_place (h : s.Wired) (sid : Sid) (v : V) (level lists : ℕ) :
    (s.place dist sid v level lists).live = (s.retire sid).live + 1 := by
  cases he : s.entry with
  | none =>
    rw [place_of_none he]
    rfl
  | some e =>
    obtain ⟨p₀, hp₀, entry, maxLevel, hplace, -⟩ := exists_growing dist h he sid v level lists
    rw [hplace]
    exact (hp₀.connect dist v (length_addNode_retire s sid v lists)).table.live

section Build

variable {overflowChecks : Bool} {cfg : HnswConfig} {ops : List (Op V)}

/-- The counter is the number of entries. -/
lemma live_build (h : build dist overflowChecks cfg ops = some s) :
    s.live = (exact ops).size := by
  induction ops using List.reverseRecOn generalizing s with
  | nil =>
    obtain rfl := Option.some.inj h
    rfl
  | append_singleton ops op ih =>
    rw [build_concat, Option.bind_eq_some_iff] at h
    obtain ⟨t, ht, hop⟩ := h
    have hbuilt := built_of_build ht
    rw [exact_concat]
    rcases State.apply_eq_some_iff.mp hop with ⟨sid, v, level, lists, rfl, -, rfl⟩ |
      ⟨sid, rfl, rfl⟩
    · refine (hbuilt.wired.live_of_place sid v level.toNat lists).trans ?_
      rw [hbuilt.indexed.live_of_retire (ih ht) sid, Std.ExtTreeMap.size_insert,
        Std.ExtTreeMap.size_erase]
      by_cases hmem : (exact ops).contains sid
      · have hpos : (exact ops).size ≠ 0 := by
          intro hzero
          rw [Std.ExtTreeMap.eq_empty_iff_size_eq_zero.mpr hzero] at hmem
          simp at hmem
        rw [if_pos hmem, if_pos hmem]
        omega
      · rw [if_neg hmem, if_neg hmem]
    · exact (State.live_of_remove _ sid).trans (hbuilt.indexed.live_of_retire (ih ht) sid)

/-! ## Every search -/

/-- The results of a search: no more than asked for, no sid twice, nearest first, each with the
distance of its last vector. -/
lemma search_results (h : build dist overflowChecks cfg ops = some s) (q : V) (k ef : ℕ) :
    (s.search dist q k ef).length ≤ k ∧ ((s.search dist q k ef).map Candidate.sid).Nodup ∧
      ((s.search dist q k ef).Pairwise fun a b => a.dist ≤ b.dist) ∧
      ∀ c ∈ s.search dist q k ef, ∃ v, lastVector ops c.sid = some v ∧ c.dist = dist q v := by
  have hbuilt := built_of_build h
  cases hbase : s.baseEntry dist q with
  | none =>
    rw [search_of_none hbase]
    exact ⟨Nat.zero_le k, List.nodup_nil, List.Pairwise.nil, nofun⟩
  | some ep =>
    obtain ⟨hsorted, hnodup, hsound⟩ :=
      hbuilt.indexed.found_sound dist q (max ef k) hbuilt.wired hbase
    rw [search_eq hbuilt.wired hbase k ef]
    have htake := List.take_sublist k (s.found dist q ep (max ef k))
    refine ⟨List.length_take_le k _, hnodup.sublist (htake.map _), hsorted.sublist htake,
      ?_⟩
    intro c hc
    obtain ⟨i, v, hlive, -, hdist⟩ := hsound c (List.mem_of_mem_take hc)
    exact ⟨v, (getElem?_exact ops c.sid).symm.trans
      ((hbuilt.indexed.map _ _).mpr ⟨i, hlive⟩), hdist⟩

/-- An index answers for some updates. -/
structure State.AnswersFor (dist : V → V → D) (s : State V) (ops : List (Op V)) : Prop where
  /-- `len` is the number of sids whose last update was an insert. -/
  len : s.len = (liveSids ops).length
  /-- Each of these has exactly one live node, the one that its sid leads to, with its last
  vector. -/
  live : ∀ sid v, lastVector ops sid = some v →
    ∃ i, s.sidToIdx[sid]? = some i ∧ s.Live i sid v ∧ ∀ j v', s.Live j sid v' → j = i
  /-- A search returns no more results than asked for, no sid twice, nearest first, and each of them
  is such a sid with the distance of its last vector. -/
  search : ∀ (q : V) (k ef : ℕ),
    (s.search dist q k ef).length ≤ k ∧ ((s.search dist q k ef).map Candidate.sid).Nodup ∧
      ((s.search dist q k ef).Pairwise fun a b => a.dist ≤ b.dist) ∧
      ∀ c ∈ s.search dist q k ef, ∃ v, lastVector ops c.sid = some v ∧ c.dist = dist q v

/-- An index answers for its updates, whatever number of lists its nodes have. -/
theorem answersFor_of_build (h : build dist overflowChecks cfg ops = some s) :
    s.AnswersFor dist ops := by
  have hindexed := (built_of_build h).indexed
  refine ⟨(live_build h).trans (size_exact ops), ?_, search_results h⟩
  intro sid v hv
  rw [← getElem?_exact] at hv
  obtain ⟨i, hlive⟩ := (hindexed.map sid v).mp hv
  have hnewest := hindexed.newest i sid v hlive
  refine ⟨i, hnewest, hlive, ?_⟩
  intro j v' hlive'
  exact Option.some.inj ((hindexed.newest j sid v' hlive').symm.trans hnewest)

end Build

/-- Take any tunables, any sequence of inserts, with any levels, and removals.  In every build there
is an index that answers for the updates, exactly when each level leaves room for its lists. -/
theorem search_sound (dist : V → V → D) (cfg : HnswConfig) (ops : List (Op V)) :
    (∀ overflowChecks, ∃ s, build dist overflowChecks cfg ops = some s ∧ s.AnswersFor dist ops) ↔
      ∀ level ∈ levels ops, Roomy level := by
  constructor
  · intro h level hlevel
    -- a build with overflow checks does not let the number of lists wrap around
    obtain ⟨s, hs, -⟩ := h true
    exact roomy_of_listCount (build_isSome_iff.mp (Option.isSome_of_eq_some hs) level hlevel)
  · intro hroomy overflowChecks
    obtain ⟨s, hs⟩ := exists_build dist overflowChecks cfg hroomy
    exact ⟨s, hs, answersFor_of_build hs⟩

namespace LargestExample

open OutlierExample

/-- One vector, on the level that `m = 1` always draws. -/
def largest : List (Op (List ℤ)) := [.insert 1 [0] (BitVec.allOnes 64)]

lemma not_roomy_largest : ¬∀ level ∈ levels largest, Roomy level := by
  simp [largest, levels, Op.level?, Roomy, isizeMax]

end LargestExample

open OutlierExample LargestExample in
/-- With overflow checks, an index with `m = 1` does not take its first vector. -/
theorem largest_not_inserted :
    build l2Sq true ⟨1, 2, 200⟩ largest = none ∧
      ¬∀ overflowChecks, ∃ s, build l2Sq overflowChecks ⟨1, 2, 200⟩ largest = some s ∧
        s.AnswersFor l2Sq largest := by
  have hnone : build l2Sq true ⟨1, 2, 200⟩ largest = none := rfl
  refine ⟨hnone, ?_⟩
  intro h
  obtain ⟨s, hs, -⟩ := h true
  rw [hnone] at hs
  cases hs

end Hnsw

end GrainStore
