import Mathlib
import GrainStore.Keys
import GrainStore.Kv

/-!
# Version chains

The keys of one `(sid, pred)` take up one run of the key order, newest version first.  Whatever
byte string lies between two of them has their prefix (`prefix_of_between_grainKeys`), so a scan of
the run meets no other key and counting it counts every version.

`grainKey_orderEmbedding` says what the key encoding as a whole guarantees.
-/

namespace GrainStore

open OrderedMap

variable {sid : Sid} {pred : PredId} {t t' : Hlc} {k : Bytes}

/-- A key starts with its own prefix. -/
lemma grainPrefix_prefix_self (sid : Sid) (pred : PredId) (t : Hlc) :
    grainPrefix sid pred <+: grainKey sid pred t :=
  grainPrefix_prefix_grainKey.mpr ⟨rfl, rfl⟩

/-- The keys of one `(sid, pred)` are contiguous. -/
theorem prefix_of_between_grainKeys (h : (compare (grainKey sid pred t) k).isLE)
    (h' : (compare k (grainKey sid pred t')).isLE) : grainPrefix sid pred <+: k := by
  have hfirst := isLE_compare_of_prefix (grainPrefix_prefix_self sid pred t)
  have hlast := grainPrefix_prefix_self sid pred t'
  exact prefix_of_between (Std.TransCmp.isLE_trans hfirst h) h' hlast

/-- What the encoding of keys guarantees: the order of keys, their parts, and that a `(sid, pred)`
has one run of the key order, which is what counting it counts. -/
theorem grainKey_orderEmbedding :
    (∀ (s s' : Sid) (p p' : PredId) (t t' : Hlc),
      compare (grainKey s p t) (grainKey s' p' t') =
        ((compare s s').then (compare p p')).then (compare t' t)) ∧
    (∀ (s s' : Sid) (p p' : PredId) (t t' : Hlc),
      grainKey s p t = grainKey s' p' t' → s = s' ∧ p = p' ∧ t = t') ∧
    (∀ (s : Sid) (p : PredId) (t : Hlc), tTxFromKey (grainKey s p t) = some t) ∧
    (∀ (s s' : Sid) (p p' : PredId) (t : Hlc),
      grainPrefix s p <+: grainKey s' p' t ↔ s' = s ∧ p' = p) ∧
    (∀ (s : Sid) (p : PredId) (t t' : Hlc) (k : Bytes), (compare (grainKey s p t) k).isLE →
      (compare k (grainKey s p t')).isLE → grainPrefix s p <+: k) ∧
    (∀ (kv : MemKv) (s : Sid) (p : PredId), kv.prefixCount (grainPrefix s p) =
      kv.scanAll.countP fun e => (grainPrefix s p).isPrefixOf e.1) := by
  refine ⟨compare_grainKey, fun s s' p p' t t' => grainKey_inj.mp, tTxFromKey_grainKey,
    ?_, fun s p t t' k => prefix_of_between_grainKeys,
    fun kv s p => kv.prefixCount_eq _⟩
  intro s s' p p' t
  rw [grainPrefix_prefix_grainKey, eq_comm, eq_comm (a := p)]

end GrainStore
