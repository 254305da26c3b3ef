import Mathlib
import GrainStore.Foundation.FixedWidth

/-!
# Core domain types

The types every part of the store shares.  Fixed-width integers are bit vectors of their
width, byte vectors are lists of bytes, and a 32-bit float is kept as its bit pattern: the
store only copies floats, it does no arithmetic on the confidence it is given.

The newtypes of the source (`Sid`, `PredId`, `Confidence`, `Hlc`) are abbreviations of the
integer they wrap.

An addition or a product that overflows panics in a build with overflow checks and wraps around in
one without.  Where an input of the store can make it overflow, as with the sizes in `Usize`, both
builds are modelled.  The clock is that of a build with overflow checks, which ends at `2 ^ 64 - 1`
instead of starting over; results on runs without them hold up to there.  The counters of a block
wrap around, as its results are right where they do not.
-/

namespace GrainStore

open FixedWidth

/-- A byte vector. -/
abbrev Bytes := List Byte

/-- `u32`. -/
abbrev U32 := BitVec 32

/-- `u64`. -/
abbrev U64 := BitVec 64

/-- `u128`. -/
abbrev U128 := BitVec 128

/-- `f32`, by its bit pattern. -/
abbrev F32 := BitVec 32

/-- Exact symbolic identity of a grain. -/
abbrev Sid := U128

/-- Dictionary-encoded predicate identifier. -/
abbrev PredId := U32

/-- Confidence annotation, stored per version. -/
abbrev Confidence := F32

/-- Hybrid logical clock timestamp. -/
abbrev Hlc := U64

/-! ## Orders

The orders the maps of the store are kept in, each an instance of its own. -/

instance transOrd_u64 : Std.TransOrd U64 := inferInstance

instance transOrd_u128 : Std.TransOrd U128 := inferInstance

instance transOrd_bytes : Std.TransOrd Bytes := inferInstance

/-! ## Grains -/

/-- The payload of a grain version. -/
inductive Val where
  | bytes (b : Bytes)
  | tombstone
  deriving DecidableEq, Repr

/-- A single assertion as materialized for a reader at a snapshot. -/
structure Grain where
  sid : Sid
  pred : PredId
  val : Val
  c : Confidence
  /-- When the fact is asserted true in the world. -/
  tValid : Hlc
  /-- When the fact was recorded: the commit timestamp, also the MVCC version. -/
  tTx : Hlc
  deriving DecidableEq, Repr

/-- The kinds of I/O error the store distinguishes. -/
inductive ErrorKind where
  | notFound
  | other
  deriving DecidableEq, Repr

/-- An I/O error: its kind and its text. -/
structure IoError where
  kind : ErrorKind
  message : String
  deriving DecidableEq, Repr

/-- All failures surfaced by the store. -/
inductive Error where
  /-- An I/O failure against the WAL file. -/
  | io (e : IoError)
  /-- A stored value failed structural validation. -/
  | corrupt (message : String)
  /-- The background committer is gone. -/
  | closed
  /-- A governance policy denied the operation. -/
  | denied (message : String)
  deriving DecidableEq, Repr

end GrainStore
