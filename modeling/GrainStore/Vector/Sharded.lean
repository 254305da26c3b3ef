import Mathlib
import GrainStore.Vector.Soundness

/-!
# The sharded index

Each vector goes to one of several indexes, by a hash of its sid; a search asks all of them and
keeps the nearest of what they found.  A shard has the index of the updates routed to it
(`shards_build`), the shards share the entries of the exact index between them (`perm_liveEntries`),
and so a search finds what an exact search over all of them would, if each shard does so for its own
(`nearest_exact`).  It takes room for the results of all shards, and returns when there is
(`sharded_search`).

The shards differ in the seed for their levels, which come with the inserts here.
-/

namespace GrainStore

namespace Hnsw

variable {V D : Type*}

/-- The live nodes, with their sids. -/
def State.liveEntries (s : State V) : List (Sid × V) :=
  (s.rows.zip s.deleted).filterMap fun p => if p.2 then none else some p.1

lemma State.mem_liveEntries {s : State V} {sid : Sid} {v : V} :
    (sid, v) ∈ s.liveEntries ↔ ∃ i, s.Live i sid v := by
  rw [State.liveEntries, List.mem_filterMap]
  constructor
  · rintro ⟨⟨e, deleted⟩, hp, he⟩
    obtain ⟨i, hi⟩ := List.mem_iff_getElem?.mp hp
    obtain ⟨hrow, hflag⟩ := List.getElem?_zip_eq_some.mp hi
    cases deleted with
    | true => cases he
    | false => exact ⟨i, Option.some.inj he ▸ hrow, hflag⟩
  · rintro ⟨i, hrow, hflag⟩
    exact ⟨((sid, v), false),
      List.mem_of_getElem? (List.getElem?_zip_eq_some.mpr ⟨hrow, hflag⟩), rfl⟩

/-- No sid has two live nodes. -/
lemma State.Indexed.nodup_liveEntries {s : State V} {m : VectorMap V} (h : s.Indexed m) :
    s.liveEntries.Nodup := by
  have hsids : (s.rows.zip s.deleted).Pairwise fun p p' =>
      p.2 = false → p'.2 = false → p.1.1 ≠ p'.1.1 := by
    refine List.pairwise_iff_getElem.mpr ?_
    intro i j hi hj hlt hp hp' heq
    obtain ⟨hrow, hflag⟩ := List.getElem?_zip_eq_some.mp (List.getElem?_eq_getElem hi)
    obtain ⟨hrow', hflag'⟩ := List.getElem?_zip_eq_some.mp (List.getElem?_eq_getElem hj)
    have hnewest := h.newest i _ _ ⟨hrow, hp ▸ hflag⟩
    rw [heq, h.newest j _ _ ⟨hrow', hp' ▸ hflag'⟩] at hnewest
    exact hlt.ne (Option.some.inj hnewest).symm
  refine List.Pairwise.filterMap _ ?_ hsids
  rintro ⟨e, deleted⟩ ⟨e', deleted'⟩ hne x hx y hy heq
  cases deleted with
  | true => cases hx
  | false =>
    cases deleted' with
    | true => cases hy
    | false =>
      obtain rfl := Option.some.inj hx
      obtain rfl := Option.some.inj hy
      exact hne rfl rfl (congrArg Prod.fst heq)

lemma nodup_toList (m : VectorMap V) : m.toList.Nodup :=
  Std.ExtTreeMap.distinct_keys_toList.imp fun hne heq =>
    hne (Std.LawfulEqCmp.compare_eq_iff_eq.mpr (congrArg Prod.fst heq))

/-- The live nodes are the entries of the exact index. -/
lemma Built.perm_liveEntries {s : State V} {cfg : HnswConfig} {ops : List (Op V)}
    (h : Built cfg ops s) : s.liveEntries.Perm (exact ops).toList := by
  refine (List.perm_ext_iff_of_nodup h.indexed.nodup_liveEntries (nodup_toList _)).mpr ?_
  rintro ⟨sid, v⟩
  rw [State.mem_liveEntries, ← h.indexed.map, Std.ExtTreeMap.mem_toList_iff_getElem?_eq_some]

end Hnsw

structure ShardedHnsw (V : Type*) where
  shards : List (Hnsw.State V)

/-- The room that a search of `n` shards takes for `k` candidates of each; a search of one shard
takes none. -/
def candidateRoom (overflowChecks : Bool) (size k n : ℕ) : Option ℕ :=
  if n = 1 then some 0 else (mulUsize overflowChecks k n).bind (withCapacity size)

/-- With several shards, there is room exactly when it is a number of 64 bits that a vector may
have; when there is, and the product fits, it is the room of all candidates. -/
lemma candidateRoom_of_fits {overflowChecks : Bool} {size k n : ℕ} (hn : n ≠ 1)
    (h : k * n ≤ usizeMax) :
    candidateRoom overflowChecks size k n =
      if k * n * size ≤ isizeMax then some (k * n) else none := by
  rw [candidateRoom, if_neg hn, mulUsize, toUsize_of_le h]
  rfl

/-- There is room in every build exactly when it is taken by one shard, or fits. -/
lemma candidateRoom_isSome_iff {size k n : ℕ} :
    (∀ overflowChecks, (candidateRoom overflowChecks size k n).isSome) ↔
      n = 1 ∨ k * n ≤ usizeMax ∧ k * n * size ≤ isizeMax := by
  by_cases hn : n = 1
  · exact iff_of_true (fun _ => by rw [candidateRoom, if_pos hn]; rfl) (Or.inl hn)
  rw [or_iff_right hn]
  constructor
  · intro h
    have hfits : k * n ≤ usizeMax := by
      by_contra hlarge
      have hsome := h true
      rw [candidateRoom, if_neg hn, mulUsize, toUsize, if_neg hlarge] at hsome
      cases hsome
    have hsome := h true
    rw [candidateRoom_of_fits hn hfits] at hsome
    exact ⟨hfits, of_not_not fun hbytes => by simp [hbytes] at hsome⟩
  · rintro ⟨hfits, hbytes⟩ overflowChecks
    rw [candidateRoom_of_fits hn hfits, if_pos hbytes]
    rfl

namespace ShardedHnsw

variable {V D : Type*} [LinearOrder D] (dist : V → V → D) (overflowChecks : Bool)

/-- At least one shard, if there is room for all of them; a shard takes `shardSize` bytes. -/
def new (V : Type*) (shardSize shards : ℕ) (cfg : HnswConfig) : Option (ShardedHnsw V) :=
  (withCapacity shardSize (max shards 1)).map fun n => ⟨List.replicate n (Hnsw.new V cfg)⟩

/-- Mix both halves of the id, then map to one of `n` shards. -/
def shardOf (n : ℕ) (sid : Sid) : ℕ :=
  let h : BitVec 64 := sid.setWidth 64 ^^^ (sid >>> 64).setWidth 64
  let h := h ^^^ (h >>> 33)
  let h := h * 0xff51afd7ed558ccd#64
  let h := h ^^^ (h >>> 33)
  h.toNat % n

/-- Apply an update to the shard of a sid. -/
def applyTo (s : ShardedHnsw V) (sid : Sid) (op : Hnsw.Op V) : Option (ShardedHnsw V) :=
  let i := shardOf s.shards.length sid
  (s.shards[i]?.bind fun shard => shard.apply dist overflowChecks op).map fun shard =>
    ⟨s.shards.set i shard⟩

def insert (s : ShardedHnsw V) (sid : Sid) (vector : V) (level : U64) : Option (ShardedHnsw V) :=
  s.applyTo dist overflowChecks sid (.insert sid vector level)

def remove (s : ShardedHnsw V) (sid : Sid) : Option (ShardedHnsw V) :=
  s.applyTo dist overflowChecks sid (.remove sid)

/-- What the shards found, one after the other. -/
def all (s : ShardedHnsw V) (q : V) (k ef : ℕ) : List (Candidate D) :=
  match s.shards with
  | [shard] => shard.search dist q k ef
  | shards => shards.flatMap fun shard => shard.search dist q k ef

/-- Each shard contributes its nearest; they are merged to the nearest of all. -/
def nearest (s : ShardedHnsw V) (q : V) (k ef : ℕ) : List (Candidate D) :=
  ((s.all dist q k ef).insertionSort fun a b => a.dist ≤ b.dist).take k

/-- The nearest of all shards, if there is room for what they find; a candidate takes `size`
bytes. -/
def search (size : ℕ) (s : ShardedHnsw V) (q : V) (k ef : ℕ) : Option (List (Candidate D)) :=
  (candidateRoom overflowChecks size k s.shards.length).map fun _ => s.nearest dist q k ef

def len (s : ShardedHnsw V) : ℕ := (s.shards.map Hnsw.State.len).sum

def apply (s : ShardedHnsw V) : Hnsw.Op V → Option (ShardedHnsw V)
  | .insert sid vector level => s.insert dist overflowChecks sid vector level
  | .remove sid => s.remove dist overflowChecks sid

/-- The index after some updates. -/
def build (shardSize n : ℕ) (cfg : HnswConfig) (ops : List (Hnsw.Op V)) : Option (ShardedHnsw V) :=
  (new V shardSize n cfg).bind fun s => ops.foldlM (apply dist overflowChecks) s

variable {dist} {overflowChecks} {shardSize n : ℕ} {cfg : HnswConfig} {ops : List (Hnsw.Op V)}
  {op : Hnsw.Op V} {s : ShardedHnsw V}

lemma apply_eq (s : ShardedHnsw V) (op : Hnsw.Op V) :
    s.apply dist overflowChecks op = s.applyTo dist overflowChecks op.sid op := by
  cases op with
  | insert sid v level => rfl
  | remove sid => rfl

lemma build_concat : build dist overflowChecks shardSize n cfg (ops ++ [op]) =
    (build dist overflowChecks shardSize n cfg ops).bind fun s =>
      s.apply dist overflowChecks op := by
  rw [build, build, Option.bind_assoc]
  refine congrArg (Option.bind _) (funext fun s => ?_)
  rw [List.foldlM_append]
  refine congrArg (Option.bind _) (funext fun s' => ?_)
  rw [List.foldlM_cons]
  exact bind_pure _

/-! ## Routing -/

/-- The updates that reach a shard. -/
def routed (n i : ℕ) (ops : List (Hnsw.Op V)) : List (Hnsw.Op V) :=
  ops.filter fun op => shardOf n op.sid = i

omit [LinearOrder D] in
lemma routed_concat (n i : ℕ) (ops : List (Hnsw.Op V)) (op : Hnsw.Op V) :
    routed n i (ops ++ [op]) =
      if shardOf n op.sid = i then routed n i ops ++ [op] else routed n i ops := by
  rw [routed, List.filter_append, List.filter_singleton]
  by_cases h : shardOf n op.sid = i
  · rw [decide_eq_true h, if_pos h]
    rfl
  · rw [decide_eq_false h, if_neg h]
    exact List.append_nil _

omit [LinearOrder D] in
/-- All updates of a sid reach its shard, and no other one. -/
lemma lastVector_routed (n i : ℕ) (ops : List (Hnsw.Op V)) (sid : Sid) :
    Hnsw.lastVector (routed n i ops) sid =
      if shardOf n sid = i then Hnsw.lastVector ops sid else none := by
  induction ops using List.reverseRecOn with
  | nil => exact (ite_self _).symm
  | append_singleton ops op ih =>
    rw [routed_concat, Hnsw.lastVector_concat]
    by_cases hop : op.sid = sid
    · rw [if_pos hop, hop]
      split
      · rw [Hnsw.lastVector_concat, if_pos hop]
      · rename_i hne
        rw [ih, if_neg hne]
    · rw [if_neg hop, ← ih]
      split
      · rw [Hnsw.lastVector_concat, if_neg hop]
      · rfl

/-- A shard is the index of the updates that reach it. -/
theorem shards_build (h : build dist overflowChecks shardSize n cfg ops = some s) :
    s.shards.map some = (List.range (max n 1)).map fun i =>
      Hnsw.build dist overflowChecks cfg (routed (max n 1) i ops) := by
  induction ops using List.reverseRecOn generalizing s with
  | nil =>
    obtain ⟨s₀, hnew, hs⟩ := Option.bind_eq_some_iff.mp h
    obtain ⟨count, hcount, rfl⟩ := Option.map_eq_some_iff.mp hnew
    obtain rfl := Option.some.inj hs
    obtain ⟨-, rfl⟩ := withCapacity_eq_some_iff.mp hcount
    rw [List.map_replicate]
    refine (List.eq_replicate_iff.mpr ⟨?_, fun shard hshard => ?_⟩).symm
    · rw [List.length_map, List.length_range]
    · obtain ⟨i, -, rfl⟩ := List.mem_map.mp hshard
      rfl
  | append_singleton ops op ih =>
    rw [build_concat, Option.bind_eq_some_iff] at h
    obtain ⟨t, ht, happly⟩ := h
    have hshards := ih ht
    have hlen : t.shards.length = max n 1 := by
      have hlength := congrArg List.length hshards
      rwa [List.length_map, List.length_map, List.length_range] at hlength
    rw [apply_eq, applyTo, hlen] at happly
    obtain ⟨shard, hshard, rfl⟩ := Option.map_eq_some_iff.mp happly
    obtain ⟨old, hold, hop⟩ := Option.bind_eq_some_iff.mp hshard
    refine List.ext_getElem? ?_
    intro i
    have hi : (t.shards.map some)[i]? = ((List.range (max n 1)).map fun i =>
        Hnsw.build dist overflowChecks cfg (routed (max n 1) i ops))[i]? := by rw [hshards]
    rw [List.map_set, List.getElem?_set, List.length_map]
    rw [List.getElem?_map, List.getElem?_map] at hi
    rw [List.getElem?_map, List.getElem?_map]
    by_cases hroute : shardOf (max n 1) op.sid = i
    · subst hroute
      have hlt := (List.getElem?_eq_some_iff.mp hold).1
      rw [if_pos rfl, if_pos hlt]
      rw [hlen] at hlt
      rw [hold, List.getElem?_range hlt, Option.map_some, Option.map_some, Option.some.injEq] at hi
      rw [List.getElem?_range hlt, Option.map_some, routed_concat, if_pos rfl, Hnsw.build_concat,
        ← hi, Option.bind_some, hop]
    · rw [if_neg hroute, hi]
      refine Option.map_congr ?_
      intro j hj
      obtain ⟨hlt, rfl⟩ := List.getElem?_eq_some_iff.mp hj
      rw [routed_concat, List.getElem_range, if_neg hroute]

lemma length_shards (h : build dist overflowChecks shardSize n cfg ops = some s) :
    s.shards.length = max n 1 := by
  have hlength := congrArg List.length (shards_build h)
  rwa [List.length_map, List.length_map, List.length_range] at hlength

/-- The shard at a place. -/
lemma getElem?_shards (h : build dist overflowChecks shardSize n cfg ops = some s) {i : ℕ}
    {shard : Hnsw.State V} :
    s.shards[i]? = some shard ↔ i < max n 1 ∧
      Hnsw.build dist overflowChecks cfg (routed (max n 1) i ops) = some shard := by
  have hi : (s.shards.map some)[i]? = ((List.range (max n 1)).map fun i =>
      Hnsw.build dist overflowChecks cfg (routed (max n 1) i ops))[i]? := by rw [shards_build h]
  rw [List.getElem?_map, List.getElem?_map] at hi
  by_cases hlt : i < max n 1
  · rw [List.getElem?_range hlt, Option.map_some, List.getElem?_eq_getElem
      ((length_shards h).symm ▸ hlt), Option.map_some, Option.some.injEq] at hi
    rw [and_iff_right hlt, ← hi, List.getElem?_eq_getElem ((length_shards h).symm ▸ hlt)]
  · rw [List.getElem?_eq_none (by rw [length_shards h]; exact not_lt.mp hlt)]
    exact ⟨nofun, fun h' => absurd h'.1 hlt⟩

/-- There is an index exactly when there is room for its shards, and for the lists of each node. -/
theorem build_isSome_iff : (build dist overflowChecks shardSize n cfg ops).isSome ↔
    max n 1 * shardSize ≤ isizeMax ∧
      ∀ level ∈ Hnsw.levels ops, (Hnsw.listCount overflowChecks level).isSome := by
  induction ops using List.reverseRecOn with
  | nil =>
    have hnil : build dist overflowChecks shardSize n cfg [] = new V shardSize n cfg :=
      Option.bind_fun_some _
    have hlevels : ∀ level ∈ Hnsw.levels ([] : List (Hnsw.Op V)),
        (Hnsw.listCount overflowChecks level).isSome := fun _ h => absurd h List.not_mem_nil
    rw [hnil, new, Option.isSome_map, withCapacity, and_iff_left hlevels]
    split <;> simp_all
  | append_singleton ops op ih =>
    rw [build_concat, Hnsw.forall_levels_concat, ← and_assoc, ← ih]
    cases hs : build dist overflowChecks shardSize n cfg ops with
    | none => simp
    | some s =>
      have hlt : shardOf s.shards.length op.sid < s.shards.length := by
        rw [length_shards hs]
        exact Nat.mod_lt _ (lt_of_lt_of_le Nat.one_pos (le_max_right n 1))
      rw [Option.bind_some, apply_eq, applyTo, Option.isSome_map, List.getElem?_eq_getElem hlt,
        Option.bind_some, Option.isSome_some, and_iff_right rfl]
      cases op with
      | insert sid v level => simp [Hnsw.State.apply, Hnsw.State.insert, Hnsw.Op.level?]
      | remove sid => simp [Hnsw.State.apply, Hnsw.Op.level?]

/-! ## Merging -/

omit [LinearOrder D] in
lemma shardOf_lt (n : ℕ) (sid : Sid) : shardOf (max n 1) sid < max n 1 :=
  Nat.mod_lt _ (lt_of_lt_of_le Nat.one_pos (le_max_right n 1))

/-- The entries of a shard are the last vectors of its sids. -/
lemma mem_liveEntries_shard (h : build dist overflowChecks shardSize n cfg ops = some s) {i : ℕ}
    {shard : Hnsw.State V} (hi : s.shards[i]? = some shard) {sid : Sid} {v : V} :
    (sid, v) ∈ shard.liveEntries ↔
      shardOf (max n 1) sid = i ∧ Hnsw.lastVector ops sid = some v := by
  have hbuilt := Hnsw.built_of_build ((getElem?_shards h).mp hi).2
  rw [hbuilt.perm_liveEntries.mem_iff, Std.ExtTreeMap.mem_toList_iff_getElem?_eq_some,
    Hnsw.getElem?_exact, lastVector_routed]
  by_cases hroute : shardOf (max n 1) sid = i
  · rw [if_pos hroute]
    exact (and_iff_right hroute).symm
  · rw [if_neg hroute]
    exact ⟨nofun, fun h' => absurd h'.1 hroute⟩

/-- The shards share the entries of the exact index between them. -/
lemma perm_liveEntries (h : build dist overflowChecks shardSize n cfg ops = some s) :
    (s.shards.flatMap Hnsw.State.liveEntries).Perm (Hnsw.exact ops).toList := by
  refine (List.perm_ext_iff_of_nodup (List.nodup_flatMap.mpr ⟨fun shard hshard => ?_, ?_⟩)
    (Hnsw.nodup_toList _)).mpr ?_
  · obtain ⟨i, hi⟩ := List.mem_iff_getElem?.mp hshard
    exact (Hnsw.built_of_build ((getElem?_shards h).mp hi).2).indexed.nodup_liveEntries
  · refine List.pairwise_iff_getElem.mpr ?_
    intro i j hi hj hlt
    rintro ⟨sid, v⟩ hin hin'
    have hsid := (mem_liveEntries_shard h (List.getElem?_eq_getElem hi)).mp hin
    have hsid' := (mem_liveEntries_shard h (List.getElem?_eq_getElem hj)).mp hin'
    exact hlt.ne (hsid.1.symm.trans hsid'.1)
  · rintro ⟨sid, v⟩
    rw [List.mem_flatMap, Std.ExtTreeMap.mem_toList_iff_getElem?_eq_some, Hnsw.getElem?_exact]
    constructor
    · rintro ⟨shard, hshard, hin⟩
      obtain ⟨i, hi⟩ := List.mem_iff_getElem?.mp hshard
      exact ((mem_liveEntries_shard h hi).mp hin).2
    · intro hv
      have hlt : shardOf (max n 1) sid < s.shards.length := by
        rw [length_shards h]
        exact shardOf_lt n sid
      exact ⟨_, List.getElem_mem hlt,
        (mem_liveEntries_shard h (List.getElem?_eq_getElem hlt)).mpr ⟨rfl, hv⟩⟩

/-- The shards together have as many live vectors as the exact index. -/
lemma len_build (h : build dist overflowChecks shardSize n cfg ops = some s) :
    s.len = (Hnsw.liveSids ops).length := by
  have hlen : ∀ shard ∈ s.shards, shard.len = shard.liveEntries.length := by
    intro shard hshard
    obtain ⟨i, hi⟩ := List.mem_iff_getElem?.mp hshard
    have hbuild := ((getElem?_shards h).mp hi).2
    rw [(Hnsw.built_of_build hbuild).perm_liveEntries.length_eq, Std.ExtTreeMap.length_toList]
    exact Hnsw.live_build hbuild
  rw [← Hnsw.size_exact, ← Std.ExtTreeMap.length_toList, ← (perm_liveEntries h).length_eq,
    List.length_flatMap, len, List.map_congr_left hlen]

lemma all_eq (s : ShardedHnsw V) (q : V) (k ef : ℕ) :
    s.all dist q k ef = s.shards.flatMap fun shard => shard.search dist q k ef := by
  unfold all
  split
  · rename_i shard hone
    rw [hone, List.flatMap_singleton]
  · rfl

/-- No sid is found by two shards, or twice by one. -/
lemma nodup_all (h : build dist overflowChecks shardSize n cfg ops = some s) (q : V) (k ef : ℕ) :
    ((s.all dist q k ef).map Candidate.sid).Nodup := by
  have hroute : ∀ {i shard sid}, s.shards[i]? = some shard →
      sid ∈ (shard.search dist q k ef).map Candidate.sid → shardOf (max n 1) sid = i := by
    intro i shard sid hi hsid
    obtain ⟨c, hc, rfl⟩ := List.mem_map.mp hsid
    obtain ⟨v, hv, -⟩ := (Hnsw.search_results ((getElem?_shards h).mp hi).2 q k ef).2.2.2 c hc
    rw [lastVector_routed] at hv
    by_contra hne
    rw [if_neg hne] at hv
    cases hv
  rw [all_eq, List.map_flatMap]
  refine List.nodup_flatMap.mpr ⟨fun shard hshard => ?_, ?_⟩
  · obtain ⟨i, hi⟩ := List.mem_iff_getElem?.mp hshard
    exact (Hnsw.search_results ((getElem?_shards h).mp hi).2 q k ef).2.1
  · refine List.pairwise_iff_getElem.mpr ?_
    intro i j hi hj hlt sid hin hin'
    exact hlt.ne ((hroute (List.getElem?_eq_getElem hi) hin).symm.trans
      (hroute (List.getElem?_eq_getElem hj) hin'))

/-- Each shard's own search is exact. -/
def Exact (dist : V → V → D) (s : ShardedHnsw V) (q : V) (k ef : ℕ) : Prop :=
  ∀ shard ∈ s.shards, (shard.search dist q k ef).map Candidate.dist =
    Ranking.smallest k (shard.liveEntries.map fun e => dist q e.2)

/-- If each shard returns the nearest of its own live vectors, the nearest of all shards are those of
the exact index. -/
theorem nearest_exact {iter : VectorMap V → List (Sid × V)} (hiter : ∀ m, (iter m).Perm m.toList)
    (h : build dist overflowChecks shardSize n cfg ops = some s) {q : V} {k ef : ℕ}
    (hexact : s.Exact dist q k ef) :
    (s.nearest dist q k ef).map Candidate.dist =
      ((BruteForceIndex.search iter dist).search (Hnsw.exact ops) q k ef).map Candidate.dist := by
  have hdists : (s.all dist q k ef).map Candidate.dist = s.shards.flatMap fun shard =>
      Ranking.smallest k (shard.liveEntries.map fun e => dist q e.2) := by
    rw [all_eq, List.map_flatMap]
    exact List.flatMap_congr hexact
  calc (s.nearest dist q k ef).map Candidate.dist
      = Ranking.smallest k ((s.all dist q k ef).map Candidate.dist) :=
        Ranking.map_take_insertionSort Candidate.dist k _
    _ = Ranking.smallest k (s.shards.flatMap fun shard =>
          shard.liveEntries.map fun e => dist q e.2) := by
        rw [hdists, Ranking.smallest_flatMap]
    _ = Ranking.smallest k ((Hnsw.exact ops).toList.map fun e => dist q e.2) := by
        rw [← List.map_flatMap]
        exact Ranking.smallest_congr ((perm_liveEntries h).map _) k
    _ = Ranking.smallest k ((iter (Hnsw.exact ops)).map fun e => dist q e.2) :=
        Ranking.smallest_congr ((hiter _).symm.map _) k
    _ = ((BruteForceIndex.search iter dist).search (Hnsw.exact ops) q k ef).map
          Candidate.dist := by
        refine Eq.trans ?_ (Ranking.map_take_insertionSort Candidate.dist k _).symm
        rw [List.map_map]
        rfl

/-- A sharded index answers a query, for its updates: with the distances of the exact index,
ascending, each sid at most once; and `len` is the number of sids whose last update was an
insert. -/
structure Answers (iter : VectorMap V → List (Sid × V)) (dist : V → V → D) (overflowChecks : Bool)
    (size : ℕ) (ops : List (Hnsw.Op V)) (q : V) (k ef : ℕ) (s : ShardedHnsw V) : Prop where
  len : s.len = (Hnsw.liveSids ops).length
  search : ∃ results, s.search dist overflowChecks size q k ef = some results ∧
    results.map Candidate.dist =
      ((BruteForceIndex.search iter dist).search (Hnsw.exact ops) q k ef).map Candidate.dist ∧
    (results.Pairwise fun a b => a.dist ≤ b.dist) ∧ (results.map Candidate.sid).Nodup

/-- A sharded index is as good as its shards.  Take any number of shards, any tunables, any sequence
of inserts, with any levels, and removals, and any query, for any number of results, for which each
shard returns the nearest of its own live vectors.  In every build there is an index and it answers
the query, exactly when there is room for the shards, for the lists of each node, and for the
results of all shards, unless there is only one. -/
theorem sharded_search {iter : VectorMap V → List (Sid × V)} (hiter : ∀ m, (iter m).Perm m.toList)
    (dist : V → V → D) (shardSize size n : ℕ) (cfg : HnswConfig) (ops : List (Hnsw.Op V)) (q : V)
    (k ef : ℕ)
    (hexact : ∀ overflowChecks s, build dist overflowChecks shardSize n cfg ops = some s →
      s.Exact dist q k ef) :
    (∀ overflowChecks, ∃ s, build dist overflowChecks shardSize n cfg ops = some s ∧
      s.Answers iter dist overflowChecks size ops q k ef) ↔
      max n 1 * shardSize ≤ isizeMax ∧ (∀ level ∈ Hnsw.levels ops, Hnsw.Roomy level) ∧
        (n ≤ 1 ∨ k * n ≤ usizeMax ∧ k * n * size ≤ isizeMax) := by
  have hroom : (∀ overflowChecks, (candidateRoom overflowChecks size k (max n 1)).isSome) ↔
      n ≤ 1 ∨ k * n ≤ usizeMax ∧ k * n * size ≤ isizeMax := by
    rw [candidateRoom_isSome_iff, max_eq_right_iff]
    refine or_congr_right' ?_
    intro hmany
    rw [max_eq_left (not_le.mp hmany).le]
  rw [← hroom]
  constructor
  · intro h
    have hsome : ∀ overflowChecks,
        (build dist overflowChecks shardSize n cfg ops).isSome ∧
          (candidateRoom overflowChecks size k (max n 1)).isSome := by
      intro overflowChecks
      obtain ⟨s, hs, hanswers⟩ := h overflowChecks
      obtain ⟨results, hsearch, -⟩ := hanswers.search
      refine ⟨Option.isSome_of_eq_some hs, ?_⟩
      rw [← length_shards hs, ← Option.isSome_map]
      exact Option.isSome_of_eq_some hsearch
    obtain ⟨hshards, hlists⟩ := build_isSome_iff.mp (hsome true).1
    exact ⟨hshards, fun level hlevel => Hnsw.roomy_of_listCount (hlists level hlevel),
      fun overflowChecks => (hsome overflowChecks).2⟩
  · rintro ⟨hshards, hroomy, hcandidates⟩ overflowChecks
    have hbuild : (build dist overflowChecks shardSize n cfg ops).isSome :=
      build_isSome_iff.mpr ⟨hshards, fun level hlevel =>
        Option.isSome_of_eq_some ((hroomy level hlevel).listCount_eq overflowChecks)⟩
    obtain ⟨s, hs⟩ := Option.isSome_iff_exists.mp hbuild
    obtain ⟨room, htaken⟩ := Option.isSome_iff_exists.mp (hcandidates overflowChecks)
    refine ⟨s, hs, len_build hs, s.nearest dist q k ef, ?_,
      nearest_exact hiter hs (hexact overflowChecks s hs), ?_, ?_⟩
    · rw [search, length_shards hs, htaken]
      rfl
    · exact (List.pairwise_insertionSort (DistLE Candidate.dist) _).sublist (List.take_sublist _ _)
    · have hperm := (List.perm_insertionSort (DistLE Candidate.dist)
        (s.all dist q k ef)).map Candidate.sid
      exact (hperm.nodup_iff.mpr (nodup_all hs q k ef)).sublist ((List.take_sublist _ _).map _)

namespace ManyExample

open Hnsw.OutlierExample

/-- Three vectors on some shards; a shard takes 256 bytes. -/
def shardedLine (overflowChecks : Bool) (n : ℕ) : Option (ShardedHnsw (List ℤ)) :=
  build l2Sq overflowChecks 256 n ⟨2, 4, 200⟩ line

/-- Each shard finds the nearest to 10 among its own. -/
def exactShards (k : ℕ) (s : ShardedHnsw (List ℤ)) : Bool :=
  s.shards.all fun shard => (shard.search l2Sq [10] k 8).map Candidate.dist ==
    Ranking.smallest k (shard.liveEntries.map fun e => l2Sq [10] e.2)

lemma exact_of_exactShards {k : ℕ} {s : ShardedHnsw (List ℤ)} (h : exactShards k s = true) :
    s.Exact l2Sq [10] k 8 := fun shard hshard =>
  beq_iff_eq.mp (List.all_eq_true.mp h shard hshard)

end ManyExample

open Hnsw.OutlierExample ManyExample in
/-- Candidates take 32 bytes.  The shards are exact for `2^58` results too, but 8 of them have no room
for so many, in any build. -/
theorem many_not_answered :
    (∀ overflowChecks, ∃ s, build l2Sq overflowChecks 256 8 ⟨2, 4, 200⟩ line = some s ∧
      s.Exact l2Sq [10] (2 ^ 58) 8 ∧ s.search l2Sq overflowChecks 32 [10] (2 ^ 58) 8 = none) ∧
    ¬∀ overflowChecks, ∃ s, build l2Sq overflowChecks 256 8 ⟨2, 4, 200⟩ line = some s ∧
      s.Answers Std.ExtTreeMap.toList l2Sq overflowChecks 32 line [10] (2 ^ 58) 8 := by
  have hshards : ∀ overflowChecks,
      (shardedLine overflowChecks 8).map (exactShards (2 ^ 58)) = some true := by
    decide +kernel
  have hnone : ∀ overflowChecks s, build l2Sq overflowChecks 256 8 ⟨2, 4, 200⟩ line = some s →
      s.search l2Sq overflowChecks 32 [10] (2 ^ 58) 8 = none := by
    intro overflowChecks s hs
    have hroom : candidateRoom overflowChecks 32 (2 ^ 58) 8 = none := by
      rw [candidateRoom_of_fits (by decide) (by decide), if_neg (by decide)]
    rw [search, length_shards hs]
    exact congrArg (Option.map _) hroom
  refine ⟨?_, ?_⟩
  · intro overflowChecks
    obtain ⟨s, hs, hexact⟩ := Option.map_eq_some_iff.mp (hshards overflowChecks)
    exact ⟨s, hs, exact_of_exactShards hexact, hnone overflowChecks s hs⟩
  · intro h
    obtain ⟨s, hs, hanswers⟩ := h true
    obtain ⟨results, hsearch, -⟩ := hanswers.search
    rw [hnone true s hs] at hsearch
    cases hsearch

open Hnsw.OutlierExample ManyExample in
/-- Two results of two shards. -/
theorem sharded_search_line :
    ∃ s, build l2Sq true 256 2 ⟨2, 4, 200⟩ line = some s ∧
      s.Answers Std.ExtTreeMap.toList l2Sq true 32 line [10] 2 8 := by
  have hshards : ∀ overflowChecks,
      (shardedLine overflowChecks 2).map (exactShards 2) = some true := by
    decide +kernel
  have hexact : ∀ overflowChecks s, build l2Sq overflowChecks 256 2 ⟨2, 4, 200⟩ line = some s →
      s.Exact l2Sq [10] 2 8 := by
    intro overflowChecks s hs
    obtain ⟨s', hs', hexact⟩ := Option.map_eq_some_iff.mp (hshards overflowChecks)
    obtain rfl := Option.some.inj (hs.symm.trans hs')
    exact exact_of_exactShards hexact
  exact (sharded_search (fun _ => List.Perm.refl _) l2Sq 256 32 2 ⟨2, 4, 200⟩ line [10] 2 8
    hexact).mpr ⟨by decide, Hnsw.OutlierExample.roomy_line, Or.inr ⟨by decide, by decide⟩⟩ true

end ShardedHnsw

end GrainStore
