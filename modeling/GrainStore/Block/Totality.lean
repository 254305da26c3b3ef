import Mathlib
import GrainStore.Block.Partition

/-!
# When the block operations have a result

Building a store and asking it reads lists at computed indices.  Whatever the numbers do (no law of
arithmetic or of the order is used here, so rounding, overflow and incomparable values are covered),
the indices are right exactly when there is a record, a block is asked for, and a search asks for a
neighbour (`answered_iff`).  A vector for which there is no room panics too, but reads nothing; it is
not looked at here.
-/

namespace GrainStore

open FixedWidth Block

/-- What a block store can be asked. -/
inductive BlockQuery (K : Type*) where
  | near (q : List K) (k : ℕ)
  | get (sid : Sid)
  | countCategory (cat : Byte)

/-- What it answers. -/
inductive BlockAnswer (K : Type*) where
  | near (best : List (Candidate K))
  | get (cat : Option Byte)
  | countCategory (total : ℕ)

variable {K : Type*}

namespace BlockStore

/-- The `k`-th best is there to be read, unless it is the one before the first. -/
lemma kth_isSome {k : ℕ} (best : List (Candidate K)) : (kth k best).isSome ↔ 1 ≤ k := by
  unfold kth
  split
  · rename_i hle
    split
    · rename_i hzero
      simp [hzero]
    · rename_i hpos
      rw [List.getElem?_eq_getElem (by omega), Option.map_some]
      simp [Nat.one_le_iff_ne_zero, hpos]
  · simp only [Option.isSome_some, true_iff]
    omega

/-! ## Building -/

section Building

variable [Zero K] [NatCast K] [Add K] [Sub K] [Mul K] [Div K] [LT K] [DecidableLT K] [Max K]
  {ops : FloatOps K} {recs : List (GrainRec K)} {nBlocks : ℕ}

/-- There is no seed to take from no records. -/
lemma clustered_nil (iters : ℕ) : clustered ops [] nBlocks iters = none := rfl

/-- There is no group to put a record into when none are asked for. -/
lemma clustered_zero (hne : recs ≠ []) (iters : ℕ) :
    clustered ops recs 0 iters = none := by
  obtain ⟨assign, hassign, hlen, -⟩ := exists_kmeansAssign ops hne 0 iters
  rw [clustered, hassign, Option.bind_some]
  cases recs with
  | nil => exact absurd rfl hne
  | cons r recs =>
    cases assign with
    | nil => cases hlen
    | cons a assign => rfl

/-- There is a store of at least one block when there is a record and a block is asked for. -/
theorem exists_nonempty (ops : FloatOps K) (hne : recs ≠ []) (hblocks : 1 ≤ nBlocks)
    (iters : ℕ) :
    ∃ s, clustered ops recs nBlocks iters = some s ∧ s.blocks ≠ [] := by
  obtain ⟨assign, groups, hassign, hgroups, -, hperm⟩ := exists_groups ops hne hblocks iters
  obtain ⟨blocks, hbuild, hall⟩ := Checked.exists_mapM (f := Block.build ops)
    (R := fun _ _ => True) (l := groups.filter fun g => !g.isEmpty) fun g hg => by
      have hfirst : g ≠ [] := by simpa using (List.mem_filter.mp hg).2
      rw [Block.build, List.head?_eq_some_head hfirst]
      exact ⟨_, rfl, trivial⟩
  refine ⟨⟨blocks⟩, ?_, ?_⟩
  · rw [clustered, hassign, Option.bind_some, hgroups, Option.bind_some, hbuild]
    rfl
  · intro hnil
    have hempty : (groups.filter fun g => !g.isEmpty) = [] := by
      rw [← List.length_eq_zero_iff, hall.length_eq]
      exact List.length_eq_zero_iff.mpr hnil
    rw [← List.flatten_filter_not_isEmpty, hempty, List.flatten_nil] at hperm
    exact hne hperm.nil_eq.symm

end Building

/-! ## Asking -/

section Asking

variable [Zero K] [NatCast K] [Add K] [Sub K] [Mul K] [Div K] [LE K] [DecidableLE K] [LT K]
  [DecidableLT K] [Max K] {ops : FloatOps K}

/-- Ask a store, given the room for the answer.  The indices of a point lookup and of a count are in
range by their types: the places of a Bloom filter, the cells of a table of 256, and the row of a sid
that was found. -/
def ask (ops : FloatOps K) (s : BlockStore K) : BlockQuery K → Option (BlockAnswer K × QueryStats)
  | .near q k => (s.nearest ops q k).map fun answer => (.near answer.1, answer.2)
  | .get sid => some (.get (s.get sid).1, (s.get sid).2)
  | .countCategory cat => some (.countCategory (s.countCategory cat).1, (s.countCategory cat).2)

/-- Build a store from some records and ask it, given the room for both. -/
def buildAndAsk (ops : FloatOps K) (recs : List (GrainRec K)) (nBlocks iters : ℕ)
    (query : BlockQuery K) : Option (BlockAnswer K × QueryStats) :=
  (clustered ops recs nBlocks iters).bind fun s => s.ask ops query

omit [NatCast K] [Div K] [Max K] in
/-- A search of at least one block ends when it asks for a neighbour. -/
theorem nearest_isSome {s : BlockStore K} (hs : s.blocks ≠ []) (q : List K) (k : ℕ) :
    (s.nearest ops q k).isSome ↔ 1 ≤ k := by
  rw [nearest, Option.isSome_map]
  constructor
  · intro h
    have horder : s.order ops q ≠ [] := by
      rw [order, ← List.length_pos_iff, List.length_insertionSort, List.length_map]
      exact List.length_pos_iff.mpr hs
    -- the first block visited reads the `k`-th best of none
    obtain ⟨p, rest, hp⟩ := List.exists_cons_of_ne_nil horder
    rw [hp, List.foldlM_cons] at h
    have hfirst : (visit ops q k ([], 0) p).isSome := by
      cases hvisit : visit ops q k ([], 0) p with
      | none =>
        rw [hvisit] at h
        cases h
      | some acc => rfl
    rwa [visit, Option.isSome_map, kth_isSome] at hfirst
  · intro hk
    obtain ⟨acc, hacc, -⟩ := Checked.exists_foldlM (f := visit ops q k) (P := fun _ => True)
      (l := s.order ops q) (b := ([], 0))
      (fun acc p _ _ => by
        obtain ⟨bound, hbound⟩ := Option.isSome_iff_exists.mp ((kth_isSome acc.1).mpr hk)
        rw [visit, hbound]
        exact ⟨_, rfl, trivial⟩) trivial
    rw [hacc]
    rfl

/-- Take any records, with any vectors, any number of blocks and of passes, and any question.
Building the store and asking it reads no index out of range, and takes nothing from zero, exactly
when there is a record, a block is asked for, and a search asks for a neighbour. -/
theorem answered_iff (ops : FloatOps K) (recs : List (GrainRec K)) (nBlocks iters : ℕ)
    (query : BlockQuery K) :
    (buildAndAsk ops recs nBlocks iters query).isSome ↔
      recs ≠ [] ∧ 1 ≤ nBlocks ∧ ∀ q k, query = .near q k → 1 ≤ k := by
  unfold buildAndAsk
  by_cases hne : recs = []
  · rw [hne, clustered_nil]
    simp
  rcases Nat.eq_zero_or_pos nBlocks with rfl | hblocks
  · rw [clustered_zero hne]
    simp
  have hone : 1 ≤ nBlocks := hblocks
  obtain ⟨s, hbuild, hs⟩ := exists_nonempty ops hne hone iters
  rw [hbuild, Option.bind_some, and_iff_right hne, and_iff_right hone]
  cases query with
  | near q k =>
    rw [ask, Option.isSome_map, nearest_isSome hs]
    exact ⟨fun hk q' k' h => (BlockQuery.near.inj h).2 ▸ hk, fun h => h q k rfl⟩
  | get sid => simp [ask]
  | countCategory cat => simp [ask]

end Asking

/-- Three inputs on which an index is out of range: no records, no blocks, and no neighbours. -/
theorem not_answered :
    let ops : FloatOps ℚ := ⟨fun x => x, fun x => ⌊x⌋₊, fun n => (BitVec.ofNat 64 (10 * n), 7#32)⟩
    let recs : List (GrainRec ℚ) := [⟨1, 1, 7, [1, 2], 1, 1⟩, ⟨2, 1, 8, [5, 5], 2, 1⟩]
    buildAndAsk ops [] 4 8 (.get 1) = none ∧ buildAndAsk ops recs 0 8 (.countCategory 7) = none ∧
      buildAndAsk ops recs 1 8 (.near [0, 0] 0) = none := by
  intro ops recs
  have hne : recs ≠ [] := List.cons_ne_nil _ _
  refine ⟨rfl, ?_, ?_⟩
  · rw [buildAndAsk, clustered_zero hne]
    rfl
  · obtain ⟨s, hbuild, hs⟩ := exists_nonempty ops hne (le_refl 1) 8
    have hnear : s.nearest ops [0, 0] 0 = none := by
      rw [← Option.not_isSome_iff_eq_none, nearest_isSome hs]
      decide
    rw [buildAndAsk, hbuild, Option.bind_some, ask, hnear]
    rfl

end BlockStore

end GrainStore
