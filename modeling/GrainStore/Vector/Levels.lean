import Mathlib
import GrainStore.Foundation.Lcg
import GrainStore.Planner
import GrainStore.Vector.Split

/-!
# The levels of the approximate index

An `Hnsw` draws the level of each new node from a generator of its own, and the shards of a
`ShardedHnsw` are seeded apart.  The generator has full period and is equidistributed in the bits
that a level is made from (`rng_equidistributed`), and no two shards have the same state after equally
many inserts (`rng_ne_of_shards`).

The level is a logarithm of the number drawn, in floating point; that function is the parameter
`levelOf`, for tunables with which each level leaves room for its lists (all but `m = 1`).
`lawful_sharded` makes the index one that is searched in parts: with the generators in place it is
still an index of `Vector/Sharded` for some levels.
-/

namespace GrainStore

/-- The tunables that the source starts from. -/
def HnswConfig.default : HnswConfig := { m := 16, m0 := 32, efConstruction := 200 }

namespace Hnsw

/-- The seed that the source starts from. -/
def defaultSeed : U64 := 0x123456789abcdef0

/-- An approximate index and the state of its generator. -/
structure Seeded (V : Type*) where
  state : State V
  rng : U64

/-- The next state of the generator. -/
def nextRng (rng : U64) : U64 := Lcg.step 6364136223846793005#64 1442695040888963407#64 rng

/-- The number that a level is made from; it is not 0. -/
def unit (rng : U64) : ℚ := max ((rng >>> 11).toNat / 2 ^ 53) (roundF64 (1 / 10 ^ 12))

/-- A level that leaves room for its lists. -/
abbrev RoomyLevel := { level : U64 // Roomy level }

/-- In every build an insert with such a level places a node with a list for each layer. -/
lemma insert_roomy {V D : Type*} [LinearOrder D] (dist : V → V → D) (overflowChecks : Bool)
    (s : State V) (sid : Sid) (v : V) (level : RoomyLevel) :
    s.insert dist overflowChecks sid v level.val =
      some (s.place dist sid v level.val.toNat (level.val.toNat + 1)) := by
  rw [State.insert, level.property.listCount_eq]
  rfl

namespace Seeded

variable {V D : Type*} [LinearOrder D]

def new (V : Type*) (cfg : HnswConfig) (seed : U64) : Seeded V := ⟨Hnsw.new V cfg, seed⟩

def insert (dist : V → V → D) (levelOf : ℚ → RoomyLevel) (s : Seeded V) (sid : Sid) (vector : V) :
    Seeded V :=
  let rng := nextRng s.rng
  let level := (levelOf (unit rng)).val.toNat
  ⟨s.state.place dist sid vector level (level + 1), rng⟩

def remove (s : Seeded V) (sid : Sid) : Seeded V := { s with state := s.state.remove sid }

end Seeded

/-! ## The generator -/

/-- The states a generator goes through are all there are, and only then it comes back. -/
theorem minimalPeriod_nextRng (rng : U64) : Function.minimalPeriod nextRng rng = 2 ^ 64 :=
  Lcg.minimalPeriod_step (by decide) (by decide) rng

/-- The bits a level is made from are equidistributed.  In any 2^64 inserts that follow each other,
from any state of the generator, every number of 53 bits is drawn exactly 2^11 times. -/
theorem rng_equidistributed (rng : U64) {u : ℕ} (hu : u < 2 ^ 53) :
    ((Finset.range (2 ^ 64)).filter fun n =>
      (nextRng^[n] (nextRng rng) >>> 11).toNat = u).card = 2 ^ 11 :=
  Lcg.count_high (by decide) (by decide) (nextRng rng) (s := 11) rfl hu

/-- How often an index of the seed that the source starts from draws a number above all others. -/
theorem rng_equidistributed_default : ((Finset.range (2 ^ 64)).filter fun n =>
    (nextRng^[n] (nextRng defaultSeed) >>> 11).toNat = 2 ^ 53 - 1).card = 2 ^ 11 :=
  rng_equidistributed defaultSeed (by norm_num)

end Hnsw

/-! ## Shards with seeds -/

/-- A sharded index and the generators of its shards. -/
structure SeededShards (V : Type*) where
  shards : List (Hnsw.Seeded V)

namespace SeededShards

open Hnsw

variable {V D : Type*} [LinearOrder D]

/-- The seed of a shard. -/
def seedOf (seed : U64) (i : ℕ) : U64 := seed ^^^ (BitVec.ofNat 64 i * 0x9E3779B97F4A7C15#64 + 1)

def new (V : Type*) (shards : ℕ) (cfg : HnswConfig) (seed : U64) : SeededShards V :=
  ⟨(List.range (max shards 1)).map fun i => Seeded.new V cfg (seedOf seed i)⟩

def insert (dist : V → V → D) (levelOf : ℚ → RoomyLevel) (s : SeededShards V) (sid : Sid) (vector : V) :
    SeededShards V :=
  ⟨s.shards.modify (ShardedHnsw.shardOf s.shards.length sid) fun shard =>
    shard.insert dist levelOf sid vector⟩

def remove (s : SeededShards V) (sid : Sid) : SeededShards V :=
  ⟨s.shards.modify (ShardedHnsw.shardOf s.shards.length sid) fun shard => shard.remove sid⟩

/-- The index without its generators. -/
def states (s : SeededShards V) : ShardedHnsw V := ⟨s.shards.map Seeded.state⟩

/-- The sharded index as one that is searched in parts; a candidate takes `size` bytes. -/
def splitIndex (dist : V → V → D) (levelOf : ℚ → RoomyLevel) (overflowChecks : Bool) (size : ℕ)
    (shards : ℕ) (cfg : HnswConfig) (seed : U64) : SplitIndex (SeededShards V) V D where
  writer := ⟨insert dist levelOf, remove⟩
  fresh := new V shards cfg seed
  parts := max shards 1
  room k := candidateRoom overflowChecks size k (max shards 1)
  probe s p q k ef := (s.shards[p]?.map fun shard => shard.state.search dist q k ef).getD []
  len s := s.states.len

/-! ## The seeds -/

/-- Multiplying by the constant of the seeds can be undone. -/
lemma mul_seed_injective : Function.Injective fun x : U64 => x * 0x9E3779B97F4A7C15#64 := by
  intro x y h
  have hinv : (0x9E3779B97F4A7C15#64 : U64) * 0xF1DE83E19937733D#64 = 1 := by decide
  have hmul := congrArg (· * 0xF1DE83E19937733D#64) h
  simpa only [mul_assoc, hinv, mul_one] using hmul

lemma seedOf_injOn (seed : U64) : Set.InjOn (seedOf seed) (Set.Iio (2 ^ 64)) := by
  intro i hi j hj h
  have hadd := (BitVec.xor_right_inj seed).mp h
  have hmul := mul_seed_injective (add_right_cancel hadd)
  have hnat := congrArg BitVec.toNat hmul
  rwa [BitVec.toNat_ofNat, BitVec.toNat_ofNat, Nat.mod_eq_of_lt hi, Nat.mod_eq_of_lt hj] at hnat

/-- The generators of two shards never agree after equally many inserts: any number of shards that a
`usize` holds, any seed, any number of inserts into each. -/
theorem rng_ne_of_shards (cfg : HnswConfig) (seed : U64) {shards i j : ℕ} (hshards : shards < 2 ^ 64)
    {s s' : Seeded V} (hi : (new V shards cfg seed).shards[i]? = some s)
    (hj : (new V shards cfg seed).shards[j]? = some s') (hne : i ≠ j) (n : ℕ) :
    nextRng^[n] s.rng ≠ nextRng^[n] s'.rng := by
  have hinj : Function.Injective nextRng := Lcg.step_injective (by decide) (by decide)
  have hrng : ∀ {i s}, (new V shards cfg seed).shards[i]? = some s →
      i < 2 ^ 64 ∧ s.rng = seedOf seed i := by
    intro i s h
    rw [new, List.getElem?_map, Option.map_eq_some_iff] at h
    obtain ⟨i', hi', rfl⟩ := h
    obtain ⟨hlt, rfl⟩ := List.getElem?_eq_some_iff.mp hi'
    rw [List.length_range] at hlt
    rw [List.getElem_range]
    exact ⟨by omega, rfl⟩
  intro heq
  have hseed := hinj.iterate n heq
  rw [(hrng hi).2, (hrng hj).2] at hseed
  exact hne (seedOf_injOn seed (hrng hi).1 (hrng hj).1 hseed)

/-- Two shards of the seed that the source starts from. -/
theorem rng_ne_of_shards_two : ∃ s s' : Seeded ℕ,
    (new ℕ 2 .default defaultSeed).shards = [s, s'] ∧
    ∀ n, nextRng^[n] s.rng ≠ nextRng^[n] s'.rng := by
  have htwo : (2 : ℕ) < 2 ^ 64 := by norm_num
  refine ⟨_, _, rfl, ?_⟩
  exact rng_ne_of_shards (V := ℕ) .default defaultSeed htwo (i := 0) (j := 1) rfl rfl zero_ne_one

/-! ## The index of some levels -/

/-- The index stands for what the updates of `Vector/Sharded` leave, with some levels, in every
build. -/
def Holds (dist : V → V → D) (shards : ℕ) (cfg : HnswConfig) (s : SeededShards V)
    (m : VectorMap V) : Prop :=
  ∃ ops, (∀ overflowChecks,
      ShardedHnsw.build dist overflowChecks 0 shards cfg ops = some s.states) ∧
    Hnsw.exact ops = m

variable {dist : V → V → D} {levelOf : ℚ → RoomyLevel} {shards : ℕ} {cfg : HnswConfig}
  {s : SeededShards V} {m : VectorMap V}

lemma holds_new (seed : U64) : Holds dist shards cfg (new V shards cfg seed) ∅ := by
  refine ⟨[], ?_, rfl⟩
  intro overflowChecks
  have hmap : ((List.range (max shards 1)).map fun i => Seeded.new V cfg (seedOf seed i)).map
      Seeded.state = List.replicate (max shards 1) (Hnsw.new V cfg) := by
    rw [List.map_map]
    refine List.eq_replicate_iff.mpr ⟨by rw [List.length_map, List.length_range], ?_⟩
    intro t ht
    obtain ⟨i, -, rfl⟩ := List.mem_map.mp ht
    rfl
  have hroom : withCapacity 0 (max shards 1) = some (max shards 1) := if_pos (Nat.zero_le _)
  have hnew : ShardedHnsw.new V 0 shards cfg = some (new V shards cfg seed).states := by
    rw [ShardedHnsw.new, hroom]
    exact congrArg (some ∘ ShardedHnsw.mk) hmap.symm
  rw [ShardedHnsw.build, hnew]
  rfl

/-- Changing a shard changes its state. -/
lemma map_state_modify (l : List (Seeded V)) (i : ℕ) (f : Seeded V → Seeded V) {t : Seeded V}
    (ht : l[i]? = some t) :
    (l.modify i f).map Seeded.state = (l.map Seeded.state).set i (f t).state := by
  refine List.ext_getElem? ?_
  intro j
  have hlt := (List.getElem?_eq_some_iff.mp ht).1
  rw [List.getElem?_map, getElem?_modify_ite, List.getElem?_set, List.getElem?_map,
    List.length_map]
  by_cases hj : i = j
  · subst hj
    rw [if_pos rfl, if_pos rfl, if_pos hlt, ht]
    rfl
  · rw [if_neg (Ne.symm hj), if_neg hj]

/-- The states after a shard was changed as an update changes it. -/
lemma applyTo_states {overflowChecks : Bool} (sid : Sid) (f : Seeded V → Seeded V) (op : Op V)
    (hne : s.shards ≠ []) (hop : ∀ t, s.shards[ShardedHnsw.shardOf s.shards.length sid]? = some t →
      t.state.apply dist overflowChecks op = some (f t).state) :
    s.states.applyTo dist overflowChecks sid op =
      some ⟨(s.shards.modify (ShardedHnsw.shardOf s.shards.length sid) f).map Seeded.state⟩ := by
  have hlen : s.states.shards.length = s.shards.length := List.length_map _
  have hlt : ShardedHnsw.shardOf s.shards.length sid < s.shards.length :=
    Nat.mod_lt _ (List.length_pos_iff.mpr hne)
  have ht := List.getElem?_eq_getElem hlt
  have hstate : s.states.shards[ShardedHnsw.shardOf s.shards.length sid]? =
      some s.shards[ShardedHnsw.shardOf s.shards.length sid].state := by
    rw [states, List.getElem?_map, ht]
    rfl
  rw [ShardedHnsw.applyTo, hlen, hstate, Option.bind_some, hop _ ht, map_state_modify _ _ _ ht]
  rfl

lemma Holds.ne_nil (h : Holds dist shards cfg s m) : s.shards ≠ [] := by
  obtain ⟨ops, hbuild, -⟩ := h
  have hlen := ShardedHnsw.length_shards (hbuild true)
  intro hnil
  rw [states, hnil] at hlen
  have hpos := le_max_right shards 1
  have hzero : (0 : ℕ) = max shards 1 := hlen
  omega

/-- An insert is one with the level that the shard's generator gives. -/
lemma Holds.insert (levelOf : ℚ → RoomyLevel) (h : Holds dist shards cfg s m) (sid : Sid) (v : V) :
    Holds dist shards cfg (s.insert dist levelOf sid v) (m.insert sid v) := by
  have hne := h.ne_nil
  obtain ⟨ops, hbuild, rfl⟩ := h
  set i := ShardedHnsw.shardOf s.shards.length sid with hi
  set level := levelOf (unit (nextRng ((s.shards[i]?.map Seeded.rng).getD 0))) with hlevel
  refine ⟨ops ++ [.insert sid v level.val], ?_, Hnsw.exact_concat ops _⟩
  intro overflowChecks
  rw [ShardedHnsw.build_concat, hbuild, Option.bind_some, ShardedHnsw.apply_eq]
  refine applyTo_states sid (fun shard => shard.insert dist levelOf sid v) _ hne ?_
  intro t ht
  have hrng : level = levelOf (unit (nextRng t.rng)) := by rw [hlevel, ht]; rfl
  rw [hrng]
  exact insert_roomy dist overflowChecks t.state sid v _

lemma Holds.remove (h : Holds dist shards cfg s m) (sid : Sid) :
    Holds dist shards cfg (s.remove sid) (m.erase sid) := by
  have hne := h.ne_nil
  obtain ⟨ops, hbuild, rfl⟩ := h
  refine ⟨ops ++ [.remove sid], ?_, Hnsw.exact_concat ops _⟩
  intro overflowChecks
  rw [ShardedHnsw.build_concat, hbuild, Option.bind_some, ShardedHnsw.apply_eq]
  exact applyTo_states sid (fun shard => shard.remove sid) _ hne fun t _ => rfl

variable {overflowChecks : Bool} {size : ℕ}

/-- What a search of one shard finds, whatever the generators are. -/
lemma probe_eq (dist : V → V → D) (levelOf : ℚ → RoomyLevel) (seed : U64) (s : SeededShards V)
    (p : ℕ) (q : V) (k ef : ℕ) :
    (splitIndex dist levelOf overflowChecks size shards cfg seed).probe s p q k ef =
      (s.states.shards[p]?.map fun shard => shard.search dist q k ef).getD [] := by
  rw [states, List.getElem?_map, Option.map_map]
  rfl

/-- What a shard finds is the last vector of a sid of its own. -/
lemma exists_of_mem_probe {seed : U64} {ops : List (Op V)}
    (hbuild : ShardedHnsw.build dist true 0 shards cfg ops = some s.states) {p : ℕ} {q : V}
    {k ef : ℕ} {c : Candidate D}
    (hc : c ∈ (splitIndex dist levelOf overflowChecks size shards cfg seed).probe s p q k ef) :
    ShardedHnsw.shardOf (max shards 1) c.sid = p ∧
      ∃ v, Hnsw.lastVector ops c.sid = some v ∧ c.dist = dist q v := by
  rw [probe_eq] at hc
  cases hshard : s.states.shards[p]? with
  | none =>
    rw [hshard] at hc
    cases hc
  | some shard =>
    rw [hshard] at hc
    obtain ⟨v, hv, hdist⟩ := (Hnsw.search_results
      ((ShardedHnsw.getElem?_shards hbuild).mp hshard).2 q k ef).2.2.2 c hc
    rw [ShardedHnsw.lastVector_routed] at hv
    by_cases hroute : ShardedHnsw.shardOf (max shards 1) c.sid = p
    · rw [if_pos hroute] at hv
      exact ⟨hroute, v, hv, hdist⟩
    · rw [if_neg hroute] at hv
      cases hv

/-- A sharded index with its generators answers for its updates: whatever the levels are that the
generators give, as long as they leave room for their lists, each of its shards finds live entries
of its own sids, each once, with the distances of their last vectors. -/
theorem lawful_sharded (dist : V → V → D) (levelOf : ℚ → RoomyLevel) (overflowChecks : Bool)
    (size shards : ℕ) (cfg : HnswConfig) (seed : U64) :
    (splitIndex dist levelOf overflowChecks size shards cfg seed).Lawful dist
      (ShardedHnsw.shardOf (max shards 1)) (Holds dist shards cfg) where
  fresh := holds_new seed
  insert sid v h := h.insert levelOf sid v
  remove sid h := h.remove sid
  sound := by
    rintro index m p q k ef c ⟨ops, hbuild, rfl⟩ hc
    obtain ⟨-, v, hv, hdist⟩ := exists_of_mem_probe (hbuild true) hc
    exact ⟨v, (Hnsw.getElem?_exact ops c.sid).trans hv, hdist⟩
  routed := by
    rintro index m p q k ef c ⟨ops, hbuild, rfl⟩ - hc
    exact (exists_of_mem_probe (hbuild true) hc).1
  nodup := by
    rintro index m p q k ef ⟨ops, hbuild, rfl⟩
    rw [probe_eq]
    cases hshard : index.states.shards[p]? with
    | none => exact List.nodup_nil
    | some shard => exact (Hnsw.search_results
        ((ShardedHnsw.getElem?_shards (hbuild true)).mp hshard).2 q k ef).2.1

end SeededShards

end GrainStore
