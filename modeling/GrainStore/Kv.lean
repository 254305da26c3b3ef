import Mathlib
import GrainStore.Foundation.OrderedMap
import GrainStore.Model

/-!
# The ordered key-value seam

`MemKv` is the in-memory backing: an ordered map of grain keys and a separate metadata map,
both with byte strings as keys and values, in lexicographic key order.

A prefix is counted by reading from the first key not below it for as long as the keys start with
it; `prefixCount_eq` says that this misses no key.
-/

namespace GrainStore

open OrderedMap

/-- In-memory ordered key-value store: the grains and the metadata. -/
structure MemKv where
  grains : Std.ExtTreeMap Bytes Bytes
  metadata : Std.ExtTreeMap Bytes Bytes

namespace MemKv

/-- The empty store. -/
def new : MemKv := ⟨∅, ∅⟩

/-- Insert or overwrite a grain key. -/
def putGrain (kv : MemKv) (key value : Bytes) : MemKv :=
  { kv with grains := kv.grains.insert key value }

/-- The smallest `(key, value)` whose key is not below `target`, if any. -/
def seekGe (kv : MemKv) (target : Bytes) : Option (Bytes × Bytes) :=
  seekGE? kv.grains target

/-- Total number of distinct grain keys (versions). -/
def grainCount (kv : MemKv) : ℕ := kv.grains.size

/-- Number of grain keys sharing the prefix `pre`. -/
def prefixCount (kv : MemKv) (pre : Bytes) : ℕ :=
  ((rangeGE kv.grains pre).takeWhile fun e => pre.isPrefixOf e.1).length

/-- All `(key, value)` pairs in ascending key order. -/
def scanAll (kv : MemKv) : List (Bytes × Bytes) := kv.grains.toList

/-- Write a metadata key. -/
def putMeta (kv : MemKv) (key value : Bytes) : MemKv :=
  { kv with metadata := kv.metadata.insert key value }

/-- Read a metadata key. -/
def getMeta (kv : MemKv) (key : Bytes) : Option Bytes :=
  kv.metadata[key]?

variable (kv : MemKv) (key value : Bytes)

@[simp] lemma putGrain_metadata : (kv.putGrain key value).metadata = kv.metadata := rfl

@[simp] lemma putGrain_grains :
    (kv.putGrain key value).grains = kv.grains.insert key value := rfl

@[simp] lemma putMeta_grains : (kv.putMeta key value).grains = kv.grains := rfl

@[simp] lemma putMeta_metadata :
    (kv.putMeta key value).metadata = kv.metadata.insert key value := rfl

/-- The keys that start with a prefix are one run of the key order, so all of them are counted. -/
theorem prefixCount_eq (pre : Bytes) :
    kv.prefixCount pre = kv.scanAll.countP fun e => pre.isPrefixOf e.1 := by
  have hrun : (rangeGE kv.grains pre).takeWhile (fun e => pre.isPrefixOf e.1) =
      kv.grains.toList.filter fun e => pre.isPrefixOf e.1 := by
    refine takeWhile_filter_eq_filter kv.grains.ordered_keys_toList (fun e he => ?_)
      (fun a b hstart hab hb => ?_)
    · exact isLE_compare_of_prefix (List.isPrefixOf_iff_prefix.mp he)
    · exact List.isPrefixOf_iff_prefix.mpr
        (prefix_of_between hstart (hab ▸ rfl) (List.isPrefixOf_iff_prefix.mp hb))
  rw [prefixCount, hrun, scanAll, List.countP_eq_length_filter]

end MemKv

end GrainStore
