import Mathlib
import GrainStore.Foundation.Checked
import GrainStore.Usize
import GrainStore.Block.Bloom
import GrainStore.Vector.Brute

/-!
# Blocks clustered by meaning

Grains are grouped into blocks by a light k-means, and each block carries a descriptor that a query
reads before the block's body: a block is skipped when its descriptor shows that nothing in it can
count.

The numbers are of any type `K` with the operations of the source; results that need laws take an
ordered field, exact where the source rounds.  Square roots, the cast of a confidence to an index
and the size of a Bloom filter are parameters (`FloatOps`).  Integers are those of a build without
overflow checks: counters of 32 bits and products of `usize`s wrap around.  An operation has no
result where the source panics, because an index is out of range or there is no room for a vector.
-/

namespace GrainStore

open FixedWidth

/-- The operations on floating-point numbers that are not field operations. -/
structure FloatOps (K : Type*) where
  sqrt : K → K
  /-- The cast `as usize`. -/
  toUsize : K → ℕ
  /-- The number of bits, before 64 are taken at least, and of places of a Bloom filter for some
  number of sids. -/
  bloomSize : ℕ → U64 × U32

/-- One grain as fed to the block builder. -/
structure Block.GrainRec (K : Type*) where
  sid : Sid
  pred : U32
  /-- Header byte 0. -/
  cat : Byte
  vector : List K
  tTx : U64
  conf : K

/-- The self-describing header read before any block body. -/
structure BlockDescriptor (K : Type*) where
  centroid : List K
  radius : K
  preds : List U32
  confHist : Fin 8 → U32
  tMin : U64
  tMax : U64
  sidBloom : Bloom
  count : U32
  catCounts : Byte → U32

/-- A block: its descriptor and the columnar body. -/
structure Block (K : Type*) where
  descriptor : BlockDescriptor K
  sids : List Sid
  cats : List Byte
  vectors : List (List K)
  /-- The columns have one length. -/
  length_cats : cats.length = sids.length
  length_vectors : vectors.length = sids.length

/-- Statistics on how much the descriptor pruning skipped. -/
structure QueryStats where
  blocksTouched : ℕ
  blocksTotal : ℕ
  deriving DecidableEq, Repr

/-- A collection of meaning-clustered blocks. -/
structure BlockStore (K : Type*) where
  blocks : List (Block K)

/-- Combine each item of the first list with the one beside it in the second, as long as there
is one. -/
def zipInto {K : Type*} (f : K → K → K) : List K → List K → List K
  | a :: as, b :: bs => f a b :: zipInto f as bs
  | as, _ => as

section Numbers

variable {K : Type*} [Zero K] [NatCast K] [Add K] [Sub K] [Mul K] [Div K] [LE K] [DecidableLE K]
  [LT K] [DecidableLT K] [Max K] (ops : FloatOps K)

/-- The Euclidean distance. -/
def l2 (a b : List K) : K := ops.sqrt ((a.zipWith (fun x y => (x - y) * (x - y)) b).sum)

namespace BlockDescriptor

def hasPred (d : BlockDescriptor K) (pred : U32) : Bool := pred ∈ d.preds

def categoryCount (d : BlockDescriptor K) (cat : Byte) : U32 := d.catCounts cat

/-- Lower bound on the distance from `q` to any point in the block. -/
def minPossibleDist (d : BlockDescriptor K) (q : List K) : K :=
  max (l2 ops q d.centroid - d.radius) 0

end BlockDescriptor

namespace Block

/-- The mean of the vectors of some records. -/
def mean (dim : ℕ) (recs : List (GrainRec K)) : List K :=
  (recs.foldl (fun c r => zipInto (· + ·) c r.vector) (List.replicate dim 0)).map (· / recs.length)

/-- Count one more under a key; the counters are 32 bits wide. -/
def tally {ι : Type*} [DecidableEq ι] (counts : ι → U32) (i : ι) : ι → U32 :=
  Function.update counts i (counts i + 1)

/-- Build a block from its records. -/
def build (recs : List (GrainRec K)) : Option (Block K) :=
  recs.head?.map fun first =>
    let centroid := mean first.vector.length recs
    { descriptor :=
        { centroid
          radius := (recs.map fun r => l2 ops r.vector centroid).foldl max 0
          preds := ((recs.map GrainRec.pred).insertionSort (· ≤ ·)).dedup
          confHist := (recs.map fun r =>
            Fin.ofNat 8 (min (ops.toUsize (r.conf * 8)) 7)).foldl tally fun _ => 0
          tMin := (recs.map GrainRec.tTx).foldl min (BitVec.allOnes 64)
          tMax := (recs.map GrainRec.tTx).foldl max 0
          sidBloom := Bloom.ofSids (ops.bloomSize recs.length) (recs.map GrainRec.sid)
          count := BitVec.ofNat 32 recs.length
          catCounts := (recs.map GrainRec.cat).foldl tally fun _ => 0 }
      sids := recs.map GrainRec.sid
      cats := recs.map GrainRec.cat
      vectors := recs.map GrainRec.vector
      length_cats := by rw [List.length_map, List.length_map]
      length_vectors := by rw [List.length_map, List.length_map] }

/-- The first grain of the block with a sid: its category and its place. -/
def find (b : Block K) (sid : Sid) : Option (Byte × ℕ) :=
  if h : sid ∈ b.sids then
    some (b.cats.get ⟨b.sids.idxOf sid, b.length_cats ▸ List.idxOf_lt_length_iff.mpr h⟩,
      b.sids.idxOf sid)
  else none

/-- The grains of the block as candidates. -/
def candidates (b : Block K) (q : List K) : List (Candidate K) :=
  b.vectors.mapFinIdx fun i v h => ⟨b.sids.get ⟨i, b.length_vectors ▸ h⟩, l2 ops q v⟩

end Block

/-! ## Clustering -/

/-- The place of the nearest centroid, of the first one at a tie. -/
def nearestCentroid (centroids : List (List K)) (v : List K) : ℕ :=
  (centroids.zipIdx.foldl
    (fun (best : WithTop K × ℕ) cen =>
      let d := l2 ops v cen.1
      if (d : WithTop K) < best.1 then (d, cen.2) else best)
    (⊤, 0)).2

/-- The sums of the vectors assigned to each centroid, and their numbers in 32 bits. -/
def sumClusters (recs : List (Block.GrainRec K)) (assign : List ℕ) (dim blocks : ℕ) :
    Option (List (List K) × List U32) :=
  (recs.zip assign).foldlM
    (fun acc p =>
      (Checked.modify acc.2 p.2 (· + 1)).bind fun counts =>
        (Checked.modify acc.1 p.2 fun s => zipInto (· + ·) s p.1.vector).map fun sums =>
          (sums, counts))
    (List.replicate blocks (List.replicate dim 0), List.replicate blocks 0)

/-- Move each centroid that has vectors to their mean. -/
def moveCentroids (sums : List (List K)) (counts : List U32) (blocks : ℕ)
    (centroids : List (List K)) : Option (List (List K)) :=
  (List.range blocks).foldlM
    (fun cens c =>
      counts[c]?.bind fun n =>
        if 0 < n then
          sums[c]?.bind fun s =>
            Checked.modify cens c fun cen => zipInto (fun _ x => x / n.toNat) cen s
        else some cens)
    centroids

/-- One pass: assign every record to its nearest centroid, then move the centroids. -/
def kmeansPass (recs : List (Block.GrainRec K)) (dim blocks : ℕ)
    (acc : List (List K) × List ℕ) : Option (List (List K) × List ℕ) :=
  let assign := recs.map fun r => nearestCentroid ops acc.1 r.vector
  (sumClusters recs assign dim blocks).bind fun clusters =>
    (moveCentroids clusters.1 clusters.2 blocks acc.1).map fun centroids => (centroids, assign)

/-- Light k-means: even seeds, then assign and recompute passes.  The product `i * n` is a `usize`. -/
def kmeansAssign (recs : List (Block.GrainRec K)) (nBlocks iters : ℕ) : Option (List ℕ) :=
  let n := recs.length
  let blocks := min (max nBlocks 1) (max n 1)
  recs.head?.bind fun first =>
    let dim := first.vector.length
    ((List.range blocks).mapM fun i =>
        recs[i * n % (usizeMax + 1) / blocks]?.map Block.GrainRec.vector).bind fun centroids =>
        ((List.range (max iters 1)).foldlM (fun acc _ => kmeansPass ops recs dim blocks acc)
          (centroids, List.replicate n 0)).map Prod.snd

namespace BlockStore

/-- Put the records into the groups they are assigned to. -/
def group (recs : List (Block.GrainRec K)) (assign : List ℕ) (nBlocks : ℕ) :
    Option (List (List (Block.GrainRec K))) :=
  (recs.zip assign).foldlM (fun groups p => Checked.modify groups p.2 (· ++ [p.1]))
    (List.replicate nBlocks [])

/-- Build blocks from records, clustered into `nBlocks` groups at most, given the room for the
groups. -/
def clustered (recs : List (Block.GrainRec K)) (nBlocks iters : ℕ) : Option (BlockStore K) :=
  (kmeansAssign ops recs nBlocks iters).bind fun assign =>
    (group recs assign nBlocks).bind fun groups =>
      ((groups.filter fun g => !g.isEmpty).mapM (Block.build ops)).map BlockStore.mk

/-- Build blocks from records, clustered into `nBlocks` groups at most.  All groups are allocated,
also those that stay empty; one takes 24 bytes. -/
def buildClustered (recs : List (Block.GrainRec K)) (nBlocks iters : ℕ) : Option (BlockStore K) :=
  (withCapacity 24 nBlocks).bind fun _ => clustered ops recs nBlocks iters

omit [LE K] [DecidableLE K] in
lemma buildClustered_of_room {recs : List (Block.GrainRec K)} {nBlocks : ℕ}
    (h : nBlocks * 24 ≤ isizeMax) (iters : ℕ) :
    buildClustered ops recs nBlocks iters = clustered ops recs nBlocks iters := by
  rw [buildClustered, withCapacity, if_pos h]
  rfl

omit [LE K] [DecidableLE K] in
lemma room_of_buildClustered {recs : List (Block.GrainRec K)} {nBlocks iters : ℕ}
    {store : BlockStore K} (h : buildClustered ops recs nBlocks iters = some store) :
    nBlocks * 24 ≤ isizeMax := by
  obtain ⟨_, hroom, -⟩ := Option.bind_eq_some_iff.mp h
  exact (withCapacity_eq_some_iff.mp hroom).1

/-- The search of the blocks for a sid, after `touched` of them were decoded. -/
def getFrom (total : ℕ) (sid : Sid) : List (Block K) → ℕ → Option Byte × QueryStats
  | [], touched => (none, ⟨touched, total⟩)
  | b :: bs, touched =>
    if b.descriptor.sidBloom.maybeContains sid then
      match b.find sid with
      | some (cat, _) => (some cat, ⟨touched + 1, total⟩)
      | none => getFrom total sid bs (touched + 1)
    else getFrom total sid bs touched

/-- Point lookup, pruned by the Bloom filter of each block. -/
def get (s : BlockStore K) (sid : Sid) : Option Byte × QueryStats :=
  getFrom s.blocks.length sid s.blocks 0

/-- The blocks with the distances of their centroids, nearest first. -/
def order (s : BlockStore K) (q : List K) : List (K × Block K) :=
  (s.blocks.map fun b => (l2 ops q b.descriptor.centroid, b)).insertionSort fun a b => a.1 ≤ b.1

/-- The distance of the `k`-th candidate, or infinity when there are fewer. -/
def kth (k : ℕ) (best : List (Candidate K)) : Option (WithTop K) :=
  if k ≤ best.length then
    if k = 0 then none else best[k - 1]?.map fun c => (c.dist : WithTop K)
  else some ⊤

/-- Look at the next block: skip it, or rank its grains with the best so far. -/
def visit (q : List K) (k : ℕ) (acc : List (Candidate K) × ℕ) (p : K × Block K) :
    Option (List (Candidate K) × ℕ) :=
  (kth k acc.1).map fun bound =>
    if bound < ((p.1 - p.2.descriptor.radius : K) : WithTop K) then acc
    else
      (((acc.1 ++ p.2.candidates ops q).insertionSort fun a c => a.dist ≤ c.dist).take k, acc.2 + 1)

/-- The `k` nearest grains, given the room for them; a block is skipped when its lower bound exceeds
the `k`-th best distance so far. -/
def nearest (s : BlockStore K) (q : List K) (k : ℕ) : Option (List (Candidate K) × QueryStats) :=
  ((s.order ops q).foldlM (visit ops q k) ([], 0)).map fun acc =>
    (acc.1, ⟨acc.2, s.blocks.length⟩)

/-- The `k` nearest grains, if there is room for one more than `k` candidates of `size` bytes. -/
def near (size : ℕ) (s : BlockStore K) (q : List K) (k : ℕ) :
    Option (List (Candidate K) × QueryStats) :=
  ((addUsize false k 1).bind (withCapacity size)).bind fun _ => s.nearest ops q k

/-- The number of grains of a category; blocks whose sketch shows none are skipped. -/
def countCategory (s : BlockStore K) (cat : Byte) : ℕ × QueryStats :=
  let acc := s.blocks.foldl
    (fun (acc : ℕ × ℕ) b =>
      if b.descriptor.categoryCount cat = 0 then acc
      else (acc.1 + b.cats.countP (· == cat), acc.2 + 1))
    (0, 0)
  (acc.1, ⟨acc.2, s.blocks.length⟩)

end BlockStore

end Numbers

end GrainStore
