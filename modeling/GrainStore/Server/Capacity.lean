import Mathlib
import GrainStore.Server.Daemon
import GrainStore.Vector.Sharded

/-!
# The room for candidates

A mixed query multiplies the number of results by the candidate multiplier, and the sharded index
multiplies that by the number of its shards, to take room for what all of them find.  The first
product saturates and the second one does not: `unharmed_iff` says for which queries it is a number
of 64 bits, and the room is no more than a vector may have.
-/

namespace GrainStore

/-! ## Callers -/

variable {V D : Type*}

/-- A call that searches the index: a mixed query, a planned one, or `POST /query`. -/
inductive SearchCall (Q : Type*) where
  | query (q : MixedQuery Q) (predicate : Grain → Bool)
  | queryPlanned (pred : PredId) (query : Q) (filter : Filter) (k : ℕ) (targetRecall : F64)
  | post (args : QueryArgs)

/-- What a call returns. -/
inductive SearchAnswer (D : Type*) where
  | ranked (results : List (Ranked D)) (plan : Option Plan)
  | hits (hits : List (QueryHit D))

namespace SearchCall

variable (embedText : String → V) (s : Store (ShardedHnsw V))

/-- The mixed query of a call. -/
def mixed : SearchCall V → MixedQuery V
  | .query q _ => q
  | .queryPlanned pred vector filter k targetRecall =>
    let plan := Planner.plan (s.engine.selectivity filter) k targetRecall
    { pred, query := vector, k, ef := plan.ef, overFetch := plan.overFetch }
  | .post args => Store.mixedQuery embedText args.text args.k

variable [LinearOrder D] (dist : V → V → D)

/-- What a call returns when nothing panics. -/
def answer : SearchCall V → Except Error (SearchAnswer D)
  | .query q predicate =>
    (s.engine.query ⟨ShardedHnsw.nearest dist⟩ q predicate).map fun results => .ranked results none
  | .queryPlanned pred vector filter k targetRecall =>
    (s.engine.queryPlanned ⟨ShardedHnsw.nearest dist⟩ pred vector filter k targetRecall).map
      fun out => .ranked out.1 (some out.2)
  | .post args =>
    (s.query ⟨ShardedHnsw.nearest dist⟩ embedText args.text args.category args.minAmount
      args.maxAmount args.k).map .hits

/-- A call; no result when it panics because of the room its search takes. -/
def run (overflowChecks : Bool) (size : ℕ) (call : SearchCall V) :
    Option (Except Error (SearchAnswer D)) :=
  (candidateRoom overflowChecks size (call.mixed embedText s).fetch
    s.engine.index.shards.length).map fun _ => call.answer embedText s dist

/-- The numbers of candidates multiplied on the way, exactly: those that are fetched, and those of
all shards when there are several. -/
def products (call : SearchCall V) : List ℕ :=
  let q := call.mixed embedText s
  let n := s.engine.index.shards.length
  saturatingMul q.k (max q.overFetch 1) :: if n = 1 then [] else [q.fetch * n]

/-- The numbers of candidates of a call do no harm. -/
structure Unharmed (overflowChecks : Bool) (size : ℕ) (call : SearchCall V) : Prop where
  /-- All products are within `usize`. -/
  products : ∀ p ∈ call.products embedText s, p ≤ usizeMax
  /-- The call does not panic. -/
  returns : (call.run embedText s dist overflowChecks size).isSome
  /-- The room is that of all candidates, not of a product that wrapped around. -/
  room : ∀ room, s.engine.index.shards.length ≠ 1 →
    candidateRoom overflowChecks size (call.mixed embedText s).fetch
      s.engine.index.shards.length = some room →
    room = (call.mixed embedText s).fetch * s.engine.index.shards.length

end SearchCall

/-! ## When nothing overflows -/

/-- The candidates fetched for several shards are within a bound on their number and one on their
bytes exactly when the product that is not saturated is: two saturated products are too many. -/
lemma MixedQuery.fetch_fits_iff {Q : Type*} (q : MixedQuery Q) {n : ℕ} (hn : 1 < n) (size : ℕ) :
    (q.fetch * n ≤ usizeMax ∧ q.fetch * n * size ≤ isizeMax) ↔
      q.k * max q.overFetch 1 * n ≤ usizeMax ∧
        q.k * max q.overFetch 1 * n * size ≤ isizeMax := by
  have hmin : min (q.k * max q.overFetch 1) usizeMax ≤ q.fetch := le_max_left _ _
  have hmax : 0 < usizeMax := by decide
  by_cases hfits : q.k * max q.overFetch 1 ≤ usizeMax
  · have hle : q.k ≤ q.k * max q.overFetch 1 := Nat.le_mul_of_pos_right _ (by omega)
    have hfetch : q.fetch = q.k * max q.overFetch 1 := by
      rw [fetch, saturatingMul, min_eq_left hfits, max_eq_left hle]
    rw [hfetch]
  · have htwo : q.fetch * 2 ≤ q.fetch * n := Nat.mul_le_mul_left _ hn
    have hprod : q.k * max q.overFetch 1 ≤ q.k * max q.overFetch 1 * n :=
      Nat.le_mul_of_pos_right _ (by omega)
    exact iff_of_false (fun h => by omega) fun h => by omega

namespace SearchCall

variable [LinearOrder D] (embedText : String → V) (s : Store (ShardedHnsw V)) (dist : V → V → D)
  (overflowChecks : Bool) (size : ℕ) (call : SearchCall V)

omit [LinearOrder D] in
lemma product_le : saturatingMul (call.mixed embedText s).k
    (max (call.mixed embedText s).overFetch 1) ≤ usizeMax := min_le_right _ _

/-- One shard takes no room. -/
lemma unharmed_of_one (hone : s.engine.index.shards.length = 1) :
    call.Unharmed embedText s dist overflowChecks size := by
  refine ⟨?_, ?_, fun _ hne => absurd hone hne⟩
  · intro p hp
    unfold products at hp
    dsimp only at hp
    rw [if_pos hone, List.mem_singleton] at hp
    exact hp ▸ call.product_le embedText s
  · rw [run, Option.isSome_map, candidateRoom, if_pos hone]
    rfl

/-- Several shards do no harm exactly when what they fetch fits. -/
lemma unharmed_iff_fetch (hone : s.engine.index.shards.length ≠ 1) :
    let q := call.mixed embedText s
    let n := s.engine.index.shards.length
    call.Unharmed embedText s dist overflowChecks size ↔
      q.fetch * n ≤ usizeMax ∧ q.fetch * n * size ≤ isizeMax := by
  intro q n
  have hproducts : call.products embedText s =
      [saturatingMul q.k (max q.overFetch 1), q.fetch * n] := by
    unfold products
    exact congrArg _ (if_neg hone)
  constructor
  · rintro ⟨hfit, hreturns, -⟩
    have hroom : q.fetch * n ≤ usizeMax := hfit _ (by rw [hproducts]; simp)
    rw [run, Option.isSome_map, candidateRoom_of_fits hone hroom] at hreturns
    refine ⟨hroom, of_not_not fun hbad => ?_⟩
    rw [if_neg hbad] at hreturns
    cases hreturns
  · rintro ⟨hroom, hbytes⟩
    have htaken : candidateRoom overflowChecks size q.fetch n = some (q.fetch * n) := by
      rw [candidateRoom_of_fits hone hroom, if_pos hbytes]
    refine ⟨?_, ?_, fun room _ h => Option.some.inj (h.symm.trans htaken)⟩
    · intro p hp
      rw [hproducts] at hp
      rcases List.mem_pair.mp hp with rfl | rfl
      · exact call.product_le embedText s
      · exact hroom
    · rw [run, Option.isSome_map]
      exact Option.isSome_of_eq_some htaken

end SearchCall

/-- Take any store with a sharded index, any build and any size of a candidate, and any call: a
mixed query, a planned one or a posted one, of any number of results and any candidate multiplier.
All products are within `usize`, the call does not panic and its room is not one that wrapped
around, exactly when the index has one shard, or the results times the multiplier times the shards
are within `usize` and take no more bytes than a vector may have. -/
theorem SearchCall.unharmed_iff [LinearOrder D] (embedText : String → V)
    (s : Store (ShardedHnsw V)) (dist : V → V → D) (overflowChecks : Bool) (size : ℕ)
    (call : SearchCall V) :
    let q := call.mixed embedText s
    let n := s.engine.index.shards.length
    call.Unharmed embedText s dist overflowChecks size ↔
      n ≤ 1 ∨ q.k * max q.overFetch 1 * n ≤ usizeMax ∧
        q.k * max q.overFetch 1 * n * size ≤ isizeMax := by
  intro q n
  by_cases hone : n = 1
  · exact iff_of_true (call.unharmed_of_one embedText s dist overflowChecks size hone)
      (Or.inl hone.le)
  refine (call.unharmed_iff_fetch embedText s dist overflowChecks size hone).trans ?_
  rcases Nat.lt_or_ge 1 n with hmany | hle
  · rw [or_iff_right hmany.not_ge]
    exact q.fetch_fits_iff hmany size
  · have hzero : n = 0 := by omega
    have hfits : q.fetch * n ≤ usizeMax ∧ q.fetch * n * size ≤ isizeMax := by
      rw [hzero, Nat.mul_zero, Nat.zero_mul]
      exact ⟨Nat.zero_le _, Nat.zero_le _⟩
    exact iff_of_true hfits (Or.inl hle)

namespace CapacityExample

/-- An empty store of 8 shards. -/
def store : Store (ShardedHnsw ℚ) :=
  ⟨GrainEngine.openWith [] ⟨List.replicate 8 (Hnsw.new ℚ ⟨16, 32, 200⟩)⟩, 0⟩

/-- A posted query for `k` results. -/
def ask (k : ℕ) : SearchCall ℚ := .post ⟨"x", none, none, none, k⟩

end CapacityExample

open CapacityExample in
/-- Candidates take 32 bytes.  A query for `2^58` results panics in every build, because the product
is too large or the room is; a query for `2^55` results, in a build without overflow checks, takes
the room of the product that wrapped around to 0. -/
theorem SearchCall.not_unharmed :
    let embedText : String → ℚ := fun _ => 0
    let dist : ℚ → ℚ → ℚ := fun a b => |a - b|
    (∀ overflowChecks, (ask (2 ^ 58)).run embedText store dist overflowChecks 32 = none ∧
      ¬(ask (2 ^ 58)).Unharmed embedText store dist overflowChecks 32) ∧
    2 ^ 64 ∈ (ask (2 ^ 55)).products embedText store ∧
      candidateRoom false 32 ((ask (2 ^ 55)).mixed embedText store).fetch
        store.engine.index.shards.length = some 0 := by
  intro embedText dist
  have hroom : ∀ overflowChecks, candidateRoom overflowChecks 32
      ((ask (2 ^ 58)).mixed embedText store).fetch store.engine.index.shards.length = none := by
    decide
  have hpanics : ∀ overflowChecks,
      (ask (2 ^ 58)).run embedText store dist overflowChecks 32 = none := by
    intro overflowChecks
    rw [run, hroom]
    rfl
  refine ⟨fun overflowChecks => ⟨hpanics overflowChecks, fun h => ?_⟩, ?_, ?_⟩
  · have hreturns := h.returns
    rw [hpanics] at hreturns
    cases hreturns
  · exact List.mem_cons_of_mem _ (List.mem_singleton.mpr (by decide))
  · decide

end GrainStore
