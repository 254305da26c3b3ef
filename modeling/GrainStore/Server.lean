import Mathlib
import GrainStore.Engine.Rebuild

/-!
# The deployable store

`Store` wraps the engine with the value layout `[category: u8][amount: i64 BE][text]`, and load and
query helpers.  Text is stored as UTF-8 and read back with `fromUtf8Lossy`.
-/

namespace GrainStore

open FixedWidth

/-! ## UTF-8 -/

/-- The bytes of a string. -/
def utf8 (s : String) : Bytes := s.toUTF8.data.toList.map UInt8.toBitVec

/-- How many bytes continue a sequence with this first byte, and what the first of them lies
between. -/
def utf8Lead (b : Byte) : Option (ℕ × ℕ × ℕ) :=
  let n := b.toNat
  if 0xC2 ≤ n ∧ n ≤ 0xDF then some (1, 0x80, 0xBF)
  else if n = 0xE0 then some (2, 0xA0, 0xBF)
  else if n = 0xED then some (2, 0x80, 0x9F)
  else if 0xE1 ≤ n ∧ n ≤ 0xEF then some (2, 0x80, 0xBF)
  else if n = 0xF0 then some (3, 0x90, 0xBF)
  else if n = 0xF4 then some (3, 0x80, 0x8F)
  else if 0xF1 ≤ n ∧ n ≤ 0xF3 then some (3, 0x80, 0xBF)
  else none

/-- The bytes that continue a sequence, as far as they are there. -/
def utf8Continuation (need lo hi : ℕ) : Bytes → Bytes
  | [] => []
  | b :: rest =>
    if lo ≤ b.toNat ∧ b.toNat ≤ hi then
      b :: (rest.take (need - 1)).takeWhile fun b => 0x80 ≤ b.toNat ∧ b.toNat ≤ 0xBF
    else []

/-- The characters of a byte string, with a replacement character for every maximal sequence that
starts a character and does not end it, and for every byte that starts none. -/
def lossyChars : Bytes → List Char
  | [] => []
  | b :: rest =>
    if b.toNat < 0x80 then Char.ofNat b.toNat :: lossyChars rest
    else
      match utf8Lead b with
      | none => Char.ofNat 0xFFFD :: lossyChars rest
      | some (need, lo, hi) =>
        let cont := utf8Continuation need lo hi rest
        let c :=
          if cont.length = need then
            Char.ofNat (cont.foldl (fun n b => n * 64 + b.toNat % 64) (b.toNat % 2 ^ (6 - need)))
          else Char.ofNat 0xFFFD
        c :: lossyChars (rest.drop cont.length)
termination_by b => b.length
decreasing_by
  all_goals
    simp only [List.length_drop, List.length_cons]
    omega

/-- The string of a byte string; what is not UTF-8 in it is replaced. -/
def fromUtf8Lossy (b : Bytes) : String :=
  match String.fromUTF8? ⟨(b.map UInt8.ofBitVec).toArray⟩ with
  | some s => s
  | none => String.ofList (lossyChars b)

example : fromUtf8Lossy [0x61, 0xFF, 0xE2, 0x82, 0x62] = "a\uFFFD\uFFFDb" := by decide +kernel

/-- A string is read back from its bytes. -/
lemma fromUtf8Lossy_utf8 (s : String) : fromUtf8Lossy (utf8 s) = s := by
  have hbytes : (⟨((utf8 s).map UInt8.ofBitVec).toArray⟩ : ByteArray) = s.toByteArray := by
    have hid : UInt8.ofBitVec ∘ UInt8.toBitVec = id := rfl
    rw [utf8, List.map_map, hid, List.map_id]
    rfl
  have hvalid : String.fromUTF8? s.toByteArray = some s := by
    rw [String.fromUTF8?, dif_pos s.isValidUTF8]
    rfl
  rw [fromUtf8Lossy, hbytes, hvalid]

/-! ## Stored values -/

/-- Bytes before the text in a stored value. -/
def TEXT_OFFSET : ℕ := 9

/-- The predicate of every stored value. -/
def PRED : PredId := 0

def encodeVal (cat : Byte) (amount : Int64) (text : String) : Bytes :=
  [cat] ++ toBeBytes amount.toBitVec ++ utf8 text

def decodeVal (v : Val) : Byte × Int64 × String :=
  match v with
  | .bytes b =>
    if TEXT_OFFSET ≤ b.length then
      (b.headD 0, Int64.ofBitVec (fromBeBytes 64 (slice b 1 9)), fromUtf8Lossy (b.drop TEXT_OFFSET))
    else (0, 0, "")
  | .tombstone => (0, 0, "")

/-- A stored value is read back. -/
theorem decodeVal_encodeVal (cat : Byte) (amount : Int64) (text : String) :
    decodeVal (.bytes (encodeVal cat amount text)) = (cat, amount, text) := by
  have hlength : (toBeBytes amount.toBitVec).length = 8 := length_toBeBytes _
  have hlen : TEXT_OFFSET ≤ (encodeVal cat amount text).length := by
    rw [encodeVal, List.length_append, List.length_append, hlength, TEXT_OFFSET]
    exact Nat.le_add_right _ _
  have hamount : slice (encodeVal cat amount text) 1 9 = toBeBytes amount.toBitVec := by
    rw [encodeVal, List.append_assoc, slice_append_right (by simp) _ 9]
    exact slice_append_left hlength _
  have htext : (encodeVal cat amount text).drop TEXT_OFFSET = utf8 text := by
    rw [encodeVal]
    refine List.drop_left' ?_
    rw [List.length_append, hlength]
    rfl
  rw [decodeVal, if_pos hlen, hamount, htext, fromBeBytes_toBeBytes (by decide), fromUtf8Lossy_utf8]
  rfl

/-! ## Loading -/

/-- A grain as supplied by a client. -/
structure GrainRec where
  sid : U64
  category : Byte
  amount : Int64
  text : String
  deriving DecidableEq, Repr

/-- Write metadata with the default confidence `1.0`. -/
def WriteMeta.new (idemKey : U128) : WriteMeta := { c := 0x3F800000, tValid := 0, idemKey }

/-- The deployable store: the engine and the largest timestamp of its loads. -/
structure Store (I : Type*) where
  engine : GrainEngine I
  lastSeq : U64

namespace Store

variable {I V : Type*}

/-- Open a store on a log file and rebuild its index; returns how many grains were restored. -/
def openOn (writer : IndexWriter I V) (embed : Bytes → Option V) (disk : Bytes) (index : I) :
    Except Error (Store I × ℕ) :=
  let engine := GrainEngine.openWith disk index
  match engine.rebuildIndexFromTruth writer embed with
  | (_, .error err) => .error err
  | (engine, .ok restored) => .ok (⟨engine, 0⟩, restored)

/-- The loop over a batch, each record with the failure its commit meets. -/
def putAll (engine : GrainEngine I) (maxSeq : U64) :
    List (GrainRec × Option (IoError × ℕ)) → GrainEngine I × Except Error U64
  | [] => (engine, .ok maxSeq)
  | (r, failure) :: rest =>
    let value := encodeVal r.category r.amount r.text
    -- the sid is the idempotency key too
    let put := engine.putRaw (r.sid.setWidth 128) PRED value (WriteMeta.new (r.sid.setWidth 128))
      failure
    match put.2 with
    | .error err => (put.1, .error err)
    | .ok h => putAll put.1 (max maxSeq h) rest

/-- Durably store and index a batch; returns the count.  The wait for the index at the end leaves
the store as it is, and its outcome is not looked at. -/
def load (s : Store I) (recs : List (GrainRec × Option (IoError × ℕ))) :
    Store I × Except Error ℕ :=
  match putAll s.engine s.lastSeq recs with
  | (engine, .error err) => ({ s with engine }, .error err)
  | (engine, .ok maxSeq) => (⟨engine, max s.lastSeq maxSeq⟩, .ok recs.length)

end Store

/-! ## Querying -/

/-- A query result row. -/
structure QueryHit (D : Type*) where
  sid : U64
  category : Byte
  amount : Int64
  text : String
  distance : D

namespace Store

variable {I Q D : Type*}

/-- The filter of a query: a category and the two ends of an amount range, each of them optional. -/
def passes (category : Option Byte) (minAmount maxAmount : Option Int64) (g : Grain) : Bool :=
  let (c, amount, _) := decodeVal g.val
  category.all (fun w => c == w) && minAmount.all (fun lo => lo ≤ amount) &&
    maxAmount.all fun hi => amount ≤ hi

/-- The mixed query of a text. -/
def mixedQuery (embedText : String → Q) (text : String) (k : ℕ) : MixedQuery Q :=
  { pred := PRED, query := embedText text, k, ef := 128, overFetch := 64 }

/-- `near ⋈ select`: semantic text with an optional category and an optional amount range. -/
def query [LE D] [DecidableLE D] (vectors : VectorIndex I Q D) (embedText : String → Q)
    (s : Store I) (text : String) (category : Option Byte) (minAmount maxAmount : Option Int64)
    (k : ℕ) : Except Error (List (QueryHit D)) :=
  match s.engine.query vectors (mixedQuery embedText text k)
      (passes category minAmount maxAmount) with
  | .error err => .error err
  | .ok ranked => .ok (ranked.map fun r =>
    let (category, amount, text) := decodeVal r.grain.val
    { sid := r.grain.sid.setWidth 64, category, amount, text, distance := r.dist })

end Store

end GrainStore
