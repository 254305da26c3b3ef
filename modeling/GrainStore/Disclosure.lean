import Mathlib
import GrainStore.Foundation.Largest
import GrainStore.Governance

/-!
# Staged disclosure

`queryStaged` runs a mixed query once, pins the ranked result in a bounded cache and returns a
compact summary with a handle; `drill` returns the pinned result.  How several calls run at the same
time is in `Disclosure/Concurrent`.
-/

namespace GrainStore

open Largest

/-! ## Stages -/

/-- Stage 0, a compact summary of the materialized result. -/
structure Summary (D : Type*) where
  /-- Number of filtered, ranked matches. -/
  totalMatches : ℕ
  /-- The nearest of each distance band. -/
  representatives : List (Ranked D)
  distMin : D
  distMedian : D
  distMax : D
  /-- Normalized gap between the top two results. -/
  sharpness : D
  /-- Tokens to materialize the full result. -/
  estFullTokens : ℕ

/-- Opaque handle to a pinned, materialized query result. -/
structure ContinuationHandle where
  id : U64
  deriving DecidableEq, Repr

/-- The payload of a disclosure stage. -/
inductive Stage (D : Type*) where
  | summary (s : Summary D)
  | full (ranked : List (Ranked D))

/-- One stage of a staged result. -/
structure Staged (D : Type*) where
  stageIndex : ℕ
  stage : Stage D
  /-- Estimated tokens for this stage's payload. -/
  estTokens : ℕ
  /-- Handle to drill to the next stage, if any. -/
  continuation : Option ContinuationHandle

section Summaries

variable {D : Type*}

/-- The first result of each band. -/
def nearestOfBands (bandSize : ℕ) : List (Ranked D) → List (Ranked D)
  | [] => []
  | r :: rest => r :: nearestOfBands bandSize (rest.drop (bandSize - 1))
termination_by ranked => ranked.length
decreasing_by
  rw [List.length_drop, List.length_cons]
  omega

variable [Zero D] [One D] [Sub D] [Div D] [Max D] [Min D] [LE D] [DecidableLE D]

/-- Build a Stage-0 summary from a ranked result; `eps` is the least spread divided by. -/
def buildSummary (eps : D) (ranked : List (Ranked D)) (reps : ℕ) : Summary D :=
  let total := ranked.length
  let bands := min (max reps 1) total
  let representatives := nearestOfBands ((total + bands - 1) / bands) ranked
  let d := (ranked.map Ranked.dist).insertionSort (· ≤ ·)
  let distMin := d.headD 0
  let distMedian := d.getD (d.length / 2) 0
  let distMax := d.getD (d.length - 1) 0
  let sharpness := match ranked with
    | r₀ :: r₁ :: _ =>
      let spread := max (distMax - distMin) eps
      min (max ((r₁.dist - r₀.dist) / spread) 0) 1
    | _ => 1
  let estFullTokens := (ranked.map fun r => grainTokens r.grain).sum
  { totalMatches := total, representatives, distMin, distMedian, distMax, sharpness,
    estFullTokens }

/-- Estimated tokens to serialize a Stage-0 summary. -/
def summaryTokens (s : Summary D) : ℕ :=
  (s.representatives.map fun r => grainTokens r.grain).sum + 16

end Summaries

/-! ## The continuation cache -/

/-- A pinned result. -/
structure Continuation (D : Type*) where
  ranked : List (Ranked D)
  fullTokens : ℕ

/-- Bounded cache of pinned results; evicts the oldest beyond capacity. -/
structure ContinuationCache (D : Type*) where
  map : Std.ExtTreeMap U64 (Continuation D)
  next : U64
  cap : ℕ
  size_le : map.size ≤ cap

namespace ContinuationCache

variable {D : Type*}

def new (cap : ℕ) : ContinuationCache D :=
  { map := ∅, next := 1, cap := max cap 1, size_le := Nat.zero_le _ }

/-- Take an id: `fetch_add` wraps at the end of `u64`. -/
def allocate (c : ContinuationCache D) : ContinuationCache D × U64 :=
  ({ c with next := c.next + 1 }, c.next)

/-- What `store` does under the lock: insert, and evict the least ids beyond capacity. -/
def insert (c : ContinuationCache D) (id : U64) (entry : Continuation D) : ContinuationCache D :=
  { c with map := evict c.cap (c.map.insert id entry), size_le := size_evict_le _ _ }

def store (c : ContinuationCache D) (ranked : List (Ranked D)) (fullTokens : ℕ) :
    ContinuationCache D × ContinuationHandle :=
  let taken := c.allocate
  (taken.1.insert taken.2 { ranked, fullTokens }, ⟨taken.2⟩)

/-- The pinned full result, or `none` if expired. -/
def getFull (c : ContinuationCache D) (h : ContinuationHandle) : Option (List (Ranked D) × ℕ) :=
  c.map[h.id]?.map fun entry => (entry.ranked, entry.fullTokens)

/-- Drill a continuation to Stage 1, from pinned state. -/
def drill (c : ContinuationCache D) (h : ContinuationHandle) : Option (Staged D) :=
  (c.getFull h).map fun p =>
    { stageIndex := 1, stage := .full p.1, estTokens := p.2, continuation := none }

end ContinuationCache

/-! ## Staged queries -/

section Engine

variable {I Q D : Type*}

/-- The engine with its continuation cache. -/
structure StagedEngine (I D : Type*) where
  engine : GrainEngine I
  continuations : ContinuationCache D

variable [Zero D] [One D] [Sub D] [Div D] [Max D] [Min D] [LE D] [DecidableLE D] (eps : D)

/-- Run a planned mixed query and return Stage 0. -/
def StagedEngine.queryStaged (vectors : VectorIndex I Q D) (e : StagedEngine I D) (pred : PredId)
    (query : Q) (filter : Filter) (k : ℕ) (targetRecall : F64) (reps : ℕ) :
    StagedEngine I D × Except Error (Staged D) :=
  match e.engine.queryPlanned vectors pred query filter k targetRecall with
  | .error err => (e, .error err)
  | .ok (ranked, _) =>
    let summary := buildSummary eps ranked reps
    let est0 := summaryTokens summary
    let fullTokens := summary.estFullTokens
    let stored := e.continuations.store ranked fullTokens
    ({ e with continuations := stored.1 },
      .ok { stageIndex := 0, stage := .summary summary, estTokens := est0,
            continuation := some stored.2 })

end Engine

end GrainStore
