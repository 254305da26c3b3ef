import Mathlib
import GrainStore.Model

/-!
# MVCC key encoding

The version chain of a `(sid, pred)` is a key sort order: versions are stored under the
prefix `(sid, pred)` with suffix `!t_tx` (bitwise complement, big-endian), so that a larger
`t_tx` sorts first.

`compare_grainKey` says what the byte order of keys is: `(sid, pred)` ascending, then `t_tx`
descending.
-/

namespace GrainStore

open FixedWidth

/-- Length of a full grain key, in bytes. -/
def KEY_LEN : ℕ := 28

/-- Length of the `(sid, pred)` prefix, in bytes. -/
def PREFIX_LEN : ℕ := 20

/-- Encode the `(sid, pred)` prefix used to bound iteration to one logical key. -/
def grainPrefix (sid : Sid) (pred : PredId) : Bytes :=
  toBeBytes sid ++ toBeBytes pred

/-- Encode the full versioned key for `(sid, pred)` at transaction time `tTx`. -/
def grainKey (sid : Sid) (pred : PredId) (tTx : Hlc) : Bytes :=
  toBeBytes sid ++ toBeBytes pred ++ toBeBytes (~~~tTx)

/-- Seek target for a snapshot read at `snapshot`. -/
def seekTarget (sid : Sid) (pred : PredId) (snapshot : Hlc) : Bytes :=
  grainKey sid pred snapshot

/-- Recover `t_tx` from a stored key suffix. -/
def tTxFromKey (key : Bytes) : Option Hlc :=
  if key.length < KEY_LEN then none
  else some (~~~(fromBeBytes 64 ((key.drop PREFIX_LEN).take (KEY_LEN - PREFIX_LEN))))

/-! ## Lengths and pieces -/

/-- A key is its prefix followed by the complemented timestamp. -/
lemma grainKey_eq_append (sid : Sid) (pred : PredId) (t : Hlc) :
    grainKey sid pred t = grainPrefix sid pred ++ toBeBytes (~~~t) := rfl

@[simp] lemma length_grainPrefix (sid : Sid) (pred : PredId) :
    (grainPrefix sid pred).length = PREFIX_LEN := by
  simp [grainPrefix, PREFIX_LEN]

@[simp] lemma length_grainKey (sid : Sid) (pred : PredId) (t : Hlc) :
    (grainKey sid pred t).length = KEY_LEN := by
  simp [grainKey, KEY_LEN]

/-! ## The order of keys -/

/-- Prefixes compare as `(sid, pred)` lexicographically. -/
lemma compare_grainPrefix (s s' : Sid) (p p' : PredId) :
    compare (grainPrefix s p) (grainPrefix s' p') = (compare s s').then (compare p p') := by
  rw [grainPrefix, grainPrefix, compare_append (by simp), compare_toBeBytes (by decide),
    compare_toBeBytes (by decide)]

/-- Keys compare as bytes by `(sid, pred)` ascending and then by timestamp descending. -/
theorem compare_grainKey (s s' : Sid) (p p' : PredId) (t t' : Hlc) :
    compare (grainKey s p t) (grainKey s' p' t') =
      ((compare s s').then (compare p p')).then (compare t' t) := by
  rw [grainKey_eq_append, grainKey_eq_append, compare_append (by simp), compare_grainPrefix,
    compare_toBeBytes (by decide), compare_not]

/-- A key determines its `sid`, `pred` and timestamp. -/
theorem grainKey_inj {s s' : Sid} {p p' : PredId} {t t' : Hlc} :
    grainKey s p t = grainKey s' p' t' ↔ s = s' ∧ p = p' ∧ t = t' := by
  rw [← Std.LawfulEqOrd.compare_eq_iff_eq, compare_grainKey, Ordering.then_eq_eq,
    Ordering.then_eq_eq, Std.LawfulEqOrd.compare_eq_iff_eq, Std.LawfulEqOrd.compare_eq_iff_eq,
    Std.LawfulEqOrd.compare_eq_iff_eq, and_assoc, eq_comm (a := t') (b := t)]

/-- A prefix determines its `sid` and `pred`. -/
lemma grainPrefix_inj {s s' : Sid} {p p' : PredId} :
    grainPrefix s p = grainPrefix s' p' ↔ s = s' ∧ p = p' := by
  rw [← Std.LawfulEqOrd.compare_eq_iff_eq, compare_grainPrefix, Ordering.then_eq_eq,
    Std.LawfulEqOrd.compare_eq_iff_eq, Std.LawfulEqOrd.compare_eq_iff_eq]

/-- A key starts with a `(sid, pred)` prefix exactly when these are its own. -/
theorem grainPrefix_prefix_grainKey {s s' : Sid} {p p' : PredId} {t : Hlc} :
    grainPrefix s p <+: grainKey s' p' t ↔ s = s' ∧ p = p' := by
  rw [← grainPrefix_inj, grainKey_eq_append]
  constructor
  · intro h
    have hlen : (grainPrefix s p).length = (grainPrefix s' p').length := by simp
    exact (List.prefix_of_prefix_length_le h (List.prefix_append _ _) hlen.le).eq_of_length hlen
  · intro h
    rw [h]
    exact List.prefix_append _ _

/-- The timestamp is recovered from the key that carries it. -/
@[simp] theorem tTxFromKey_grainKey (sid : Sid) (pred : PredId) (t : Hlc) :
    tTxFromKey (grainKey sid pred t) = some t := by
  have hlen : ¬(grainKey sid pred t).length < KEY_LEN := by simp
  rw [tTxFromKey, if_neg hlen, grainKey_eq_append, List.drop_left' (length_grainPrefix sid pred),
    List.take_of_length_le (by simp [KEY_LEN, PREFIX_LEN]), fromBeBytes_toBeBytes (by decide),
    BitVec.not_not]

end GrainStore
