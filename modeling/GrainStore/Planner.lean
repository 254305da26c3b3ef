import Mathlib
import GrainStore.Model
import GrainStore.Usize

/-!
# The recall-targeting planner and its statistics

The planner picks the candidate multiplier and the beam width of a mixed query from an estimate
of the filter's selectivity; the catalog keeps the estimate from the header bytes written.

Doubles are kept as the exact rational they stand for; `roundF64` rounds the exact result of an
operation to the double next to it.  All doubles of the planner are 0 or in the normal range.
-/

namespace GrainStore

/-! ## Doubles -/

/-- The binary exponent of a positive rational: the largest `e` with `2 ^ e ≤ q`. -/
def binaryExponent (q : ℚ) : ℤ :=
  let e := (Nat.log2 q.num.natAbs : ℤ) - (Nat.log2 q.den : ℤ)
  if (2 : ℚ) ^ e ≤ q then e else e - 1

/-- The integer next to a rational, the even one of two that are equally near. -/
def roundEven (q : ℚ) : ℤ :=
  if q - q.floor < 1 / 2 then q.floor
  else if 1 / 2 < q - q.floor then q.floor + 1
  else if q.floor % 2 = 0 then q.floor
  else q.floor + 1

/-- The double next to a rational that is 0 or positive and in the normal range. -/
def roundF64 (q : ℚ) : ℚ :=
  if q = 0 then 0
  else
    let ulp : ℚ := 2 ^ (binaryExponent q - 52)
    roundEven (q / ulp) * ulp

/-- A double that is only compared. -/
inductive F64 where
  | nan
  | negInf
  | finite (q : ℚ)
  | posInf
  deriving DecidableEq, Repr

/-- `t >= c` for a constant `c`. -/
def F64.ge : F64 → ℚ → Bool
  | .nan, _ => false
  | .negInf, _ => false
  | .finite q, c => roundF64 c ≤ q
  | .posInf, _ => true

/-! ## The selectivity catalog -/

/-- Selectivity statistics keyed by a single header byte. -/
structure SelectivityCatalog where
  total : ℕ
  byValue : FixedWidth.Byte → ℕ

namespace SelectivityCatalog

/-- Nothing is observed. -/
def new : SelectivityCatalog := ⟨0, fun _ => 0⟩

/-- Record one observed header-byte-0 value. -/
def observe (c : SelectivityCatalog) (value : FixedWidth.Byte) : SelectivityCatalog :=
  ⟨c.total + 1, Function.update c.byValue value (c.byValue value + 1)⟩

/-- Estimated fraction of grains whose header byte 0 equals `value`, or `none` if nothing has
been observed yet. -/
def selectivity (c : SelectivityCatalog) (value : FixedWidth.Byte) : Option ℚ :=
  if c.total = 0 then none
  else some (roundF64 (roundF64 (c.byValue value) / roundF64 c.total))

end SelectivityCatalog

/-! ## Filters and plans -/

/-- A structured predicate the planner can both evaluate and estimate. -/
inductive Filter where
  /-- Matches every grain. -/
  | any
  /-- The header byte at `offset` equals `value`. -/
  | headerByteEq (offset : ℕ) (value : FixedWidth.Byte)
  deriving DecidableEq, Repr

/-- Exact evaluation on a joined grain. -/
def Filter.eval : Filter → Grain → Bool
  | .any, _ => true
  | .headerByteEq offset value, g =>
    match g.val with
    | .bytes b => b[offset]? = some value
    | .tombstone => false

/-- The chosen physical parameters plus the estimates behind them. -/
structure Plan where
  overFetch : ℕ
  ef : ℕ
  estSelectivity : ℚ
  /-- The candidate budget, a proxy for query cost. -/
  estCandidates : ℕ
  deriving DecidableEq, Repr

namespace Planner

/-- Survival margin needed for a recall target. -/
def marginFor (t : F64) : ℚ :=
  if t.ge (99 / 100) then 12
  else if t.ge (95 / 100) then 7
  else if t.ge (90 / 100) then 9 / 2
  else if t.ge (80 / 100) then 5 / 2
  else 3 / 2

/-- Base beam width for a recall target. -/
def efFor (t : F64) : ℕ :=
  if t.ge (99 / 100) then 256
  else if t.ge (95 / 100) then 192
  else if t.ge (90 / 100) then 128
  else 64

/-- Plan parameters for a query of `k` results over a filter of estimated `selectivity`, to reach
`targetRecall`. -/
def plan (selectivity : ℚ) (k : ℕ) (targetRecall : F64) : Plan :=
  let sel := min (max selectivity (roundF64 (1 / 10000))) 1
  let margin := marginFor targetRecall
  let overFetch := min (max ⌈roundF64 (margin / sel)⌉.toNat 1) 4096
  { overFetch, ef := efFor targetRecall, estSelectivity := sel,
    estCandidates := saturatingMul k overFetch }

end Planner

end GrainStore
