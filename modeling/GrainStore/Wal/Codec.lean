import Mathlib
import GrainStore.Foundation.FrameScan
import GrainStore.Model

/-!
# Encodings of the write-ahead log

The value stored in the KV, `[op][c BE][t_valid BE][val]`; the log record's payload; and the
frame around it, `[len: u32 LE][crc32: u32 LE][payload]`.

`walCodec` packages the frame encoder and decoder: decoding is stable under extension of the
input, and a record whose payload length fits the `u32` length field decodes to itself.
-/

namespace GrainStore

open FixedWidth

/-- `META_APPLIED_SEQ`: the bytes of `"applied_seq"`. -/
def META_APPLIED_SEQ : Bytes :=
  [0x61, 0x70, 0x70, 0x6c, 0x69, 0x65, 0x64, 0x5f, 0x73, 0x65, 0x71]

/-- Operation code of a put. -/
def OP_PUT : Byte := 0

/-- Operation code of a logical delete. -/
def OP_DELETE : Byte := 1

/-- Fixed-size prefix of an encoded record: `8+16+4+1+4+8+16+4` bytes. -/
def REC_FIXED : ℕ := 61

/-- A request to durably commit one grain version. -/
structure WriteReq where
  sid : U128
  pred : U32
  op : Byte
  val : Bytes
  c : F32
  tValid : U64
  idemKey : U128
  deriving DecidableEq, Repr

namespace WriteReq

/-- A request to commit a live value. -/
def put (sid : Sid) (pred : PredId) (val : Bytes) (c : F32) (tValid : U64) (idem : U128) :
    WriteReq :=
  { sid, pred, op := OP_PUT, val, c, tValid, idemKey := idem }

/-- A request to commit a tombstone. -/
def delete (sid : Sid) (pred : PredId) (c : F32) (tValid : U64) (idem : U128) : WriteReq :=
  { sid, pred, op := OP_DELETE, val := [], c, tValid, idemKey := idem }

end WriteReq

/-- A fully decoded WAL record: a request with its commit `seq`. -/
structure WalRecord where
  seq : U64
  sid : U128
  pred : U32
  op : Byte
  c : F32
  tValid : U64
  idemKey : U128
  val : Bytes
  deriving DecidableEq, Repr

/-! ## CRC32 -/

/-- One bit of the table-free CRC32 (IEEE 802.3). -/
def crcBit (crc : U32) : U32 :=
  (crc >>> 1) ^^^ (0xEDB88320#32 &&& -(crc &&& 1#32))

/-- CRC32 of a byte string. -/
def crc32 (data : Bytes) : U32 :=
  ~~~(data.foldl (fun crc b => crcBit^[8] (crc ^^^ b.setWidth 32)) 0xFFFFFFFF#32)

/-! ## The value stored in the KV -/

/-- Encode the KV value for a grain version. -/
def encodeValue (op : Byte) (val : Bytes) (c : F32) (tValid : U64) : Bytes :=
  op :: (toBeBytes c ++ toBeBytes tValid ++ val)

/-- The bytes of `b` from position `i` up to position `j`. -/
def slice (b : Bytes) (i j : ℕ) : Bytes := (b.drop i).take (j - i)

/-- Decode a KV value into `(op, c, t_valid, val)`. -/
def decodeValue (v : Bytes) : Except Error (Byte × F32 × U64 × Bytes) :=
  if v.length < 13 then
    .error (.corrupt ("value too short: " ++ toString v.length ++ " bytes"))
  else
    .ok (v.headD 0, fromBeBytes 32 (slice v 1 5), fromBeBytes 64 (slice v 5 13), v.drop 13)

/-! ## Records and frames -/

/-- The payload of a record.  The length field is the value's length cast to `u32`. -/
def encodePayload (r : WalRecord) : Bytes :=
  toBeBytes r.seq ++ toBeBytes r.sid ++ toBeBytes r.pred ++ [r.op] ++ toBeBytes r.c ++
    toBeBytes r.tValid ++ toBeBytes r.idemKey ++ toBeBytes (BitVec.ofNat 32 r.val.length) ++ r.val

/-- Decode a payload; bytes after the value are ignored. -/
def decodePayload (b : Bytes) : Option WalRecord :=
  if b.length < REC_FIXED then none
  else
    let vlen := (fromBeBytes 32 (slice b 57 61)).toNat
    if b.length < REC_FIXED + vlen then none
    else some
      { seq := fromBeBytes 64 (slice b 0 8)
        sid := fromBeBytes 128 (slice b 8 24)
        pred := fromBeBytes 32 (slice b 24 28)
        op := (b.drop 28).headD 0
        c := fromBeBytes 32 (slice b 29 33)
        tValid := fromBeBytes 64 (slice b 33 41)
        idemKey := fromBeBytes 128 (slice b 41 57)
        val := slice b REC_FIXED (REC_FIXED + vlen) }

/-- The bytes `encode_frame` appends for a record.  The length field is the payload's length
cast to `u32`. -/
def encodeFrame (r : WalRecord) : Bytes :=
  let payload := encodePayload r
  toLeBytes (BitVec.ofNat 32 payload.length) ++ toLeBytes (crc32 payload) ++ payload

/-- Decode the first frame in `input`, returning the record and bytes consumed; `none` on an
incomplete or CRC-invalid frame. -/
def decodeFrame (input : Bytes) : Option (WalRecord × ℕ) :=
  if input.length < 8 then none
  else
    let len := (fromLeBytes 32 (slice input 0 4)).toNat
    let crc := fromLeBytes 32 (slice input 4 8)
    let fin := 8 + len
    if input.length < fin then none
    else
      let payload := slice input 8 fin
      if crc32 payload ≠ crc then none
      else (decodePayload payload).map fun r => (r, fin)

/-! ## Slices -/

lemma length_slice {b : Bytes} {i j : ℕ} (hj : j ≤ b.length) : (slice b i j).length = j - i := by
  rw [slice, List.length_take, List.length_drop]
  omega

/-- A slice of an extended string that ends inside the string is the string's slice. -/
lemma slice_append_of_le {a : Bytes} {i j : ℕ} (hj : j ≤ a.length) (b : Bytes) :
    slice (a ++ b) i j = slice a i j := by
  rcases le_or_gt i a.length with hi | hi
  · rw [slice, slice, List.drop_append_of_le_length hi, List.take_append_of_le_length]
    rw [List.length_drop]
    omega
  · have hij : j - i = 0 := by omega
    rw [slice, slice, hij, List.take_zero, List.take_zero]

/-- A slice of a concatenation that starts after the first part is a slice of the second. -/
lemma slice_append_right {a : Bytes} {i : ℕ} (hi : a.length ≤ i) (b : Bytes) (j : ℕ) :
    slice (a ++ b) i j = slice b (i - a.length) (j - a.length) := by
  have hlen : j - i = j - a.length - (i - a.length) := by omega
  rw [slice, slice, List.drop_append, List.drop_eq_nil_of_le hi, List.nil_append, hlen]

/-- The slice up to the length of the first part is the first part. -/
lemma slice_append_left {a : Bytes} {j : ℕ} (hj : a.length = j) (b : Bytes) :
    slice (a ++ b) 0 j = a := by
  rw [slice, List.drop_zero, Nat.sub_zero, List.take_left' hj]

/-! ## Round trips -/

/-- A stored value decodes to what was encoded. -/
@[simp] theorem decodeValue_encodeValue (op : Byte) (val : Bytes) (c : F32) (tValid : U64) :
    decodeValue (encodeValue op val c tValid) = .ok (op, c, tValid, val) := by
  have hlen : ¬(encodeValue op val c tValid).length < 13 := by
    simp [encodeValue]
    omega
  have happ : encodeValue op val c tValid =
      [op] ++ (toBeBytes c ++ (toBeBytes tValid ++ val)) := by
    simp [encodeValue]
  have hc : slice (encodeValue op val c tValid) 1 5 = toBeBytes c := by
    rw [happ, slice_append_right (by simp) _ 5]
    exact slice_append_left (by simp) _
  have ht : slice (encodeValue op val c tValid) 5 13 = toBeBytes tValid := by
    rw [happ, slice_append_right (by simp) _ 13, slice_append_right (by simp)]
    simpa using slice_append_left (j := 8) (by simp) val
  have hv : (encodeValue op val c tValid).drop 13 = val := by
    rw [encodeValue, List.drop_succ_cons, List.drop_left' (by simp)]
  rw [decodeValue, if_neg hlen, hc, ht, hv, fromBeBytes_toBeBytes (by decide),
    fromBeBytes_toBeBytes (by decide)]
  rfl

/-- The length of a payload is the fixed part and the value. -/
lemma length_encodePayload (r : WalRecord) :
    (encodePayload r).length = REC_FIXED + r.val.length := by
  simp only [encodePayload, REC_FIXED, List.length_append, length_toBeBytes,
    List.length_singleton, Nat.reduceDiv, Nat.reduceAdd]

/-- The fields of a payload, from the front. -/
lemma encodePayload_eq (r : WalRecord) :
    encodePayload r = toBeBytes r.seq ++ (toBeBytes r.sid ++ (toBeBytes r.pred ++ ([r.op] ++
      (toBeBytes r.c ++ (toBeBytes r.tValid ++ (toBeBytes r.idemKey ++
        (toBeBytes (BitVec.ofNat 32 r.val.length) ++ r.val))))))) := by
  simp [encodePayload]

/-- A payload whose value length fits `u32` decodes to its record. -/
theorem decodePayload_encodePayload {r : WalRecord} (h : r.val.length < 2 ^ 32) :
    decodePayload (encodePayload r) = some r := by
  have hlen := length_encodePayload r
  have hvlen : (fromBeBytes 32 (slice (encodePayload r) 57 61)).toNat = r.val.length := by
    rw [encodePayload_eq]
    simp (disch := simp) only [slice_append_right, slice_append_left, length_toBeBytes,
      List.length_singleton, Nat.reduceDiv, Nat.reduceSub, Nat.sub_self]
    rw [fromBeBytes_toBeBytes (by decide), BitVec.toNat_ofNat, Nat.mod_eq_of_lt h]
  have hop : ((encodePayload r).drop 28).headD 0 = r.op := by
    have hsplit : encodePayload r = (toBeBytes r.seq ++ toBeBytes r.sid ++ toBeBytes r.pred) ++
        (r.op :: (toBeBytes r.c ++ toBeBytes r.tValid ++ toBeBytes r.idemKey ++
          toBeBytes (BitVec.ofNat 32 r.val.length) ++ r.val)) := by
      simp [encodePayload]
    rw [hsplit, List.drop_left' (by simp)]
    rfl
  have hval : slice (encodePayload r) REC_FIXED (REC_FIXED + r.val.length) = r.val := by
    rw [slice, encodePayload, List.drop_left' (by simp [REC_FIXED]),
      List.take_of_length_le (by simp)]
  rw [decodePayload, if_neg (by omega)]
  simp only [hvlen, hop, hval]
  rw [if_neg (by omega), encodePayload_eq]
  simp (disch := simp) only [slice_append_right, slice_append_left, length_toBeBytes,
    List.length_singleton, Nat.reduceDiv, Nat.reduceSub, Nat.sub_self]
  simp only [fromBeBytes_toBeBytes (w := 64) (by decide),
    fromBeBytes_toBeBytes (w := 128) (by decide), fromBeBytes_toBeBytes (w := 32) (by decide)]

/-! ## Frames -/

/-- The length of a frame is its eight-byte header and the payload. -/
lemma length_encodeFrame (r : WalRecord) :
    (encodeFrame r).length = 8 + REC_FIXED + r.val.length := by
  simp only [encodeFrame, length_encodePayload, List.length_append, length_toLeBytes,
    Nat.reduceDiv, Nat.reduceAdd, Nat.add_assoc]

/-- What a successful decode says: the header and the payload are there, the checksum agrees,
the payload decodes, and header and payload are what is consumed. -/
lemma decodeFrame_eq_some_iff {input : Bytes} {r : WalRecord} {n : ℕ} :
    decodeFrame input = some (r, n) ↔
      8 ≤ input.length ∧ n = 8 + (fromLeBytes 32 (slice input 0 4)).toNat ∧ n ≤ input.length ∧
        crc32 (slice input 8 n) = fromLeBytes 32 (slice input 4 8) ∧
        decodePayload (slice input 8 n) = some r := by
  simp only [decodeFrame]
  split_ifs with h8 hlen hcrc
  · simp only [false_iff]
    omega
  · simp only [false_iff]
    omega
  · simp only [false_iff]
    rintro ⟨-, rfl, -, hc, -⟩
    exact hcrc hc
  · simp only [Option.map_eq_some_iff, Prod.mk.injEq]
    constructor
    · rintro ⟨r', hr, rfl, rfl⟩
      exact ⟨by omega, rfl, by omega, not_not.mp hcrc, hr⟩
    · rintro ⟨-, rfl, -, -, hr⟩
      exact ⟨r, hr, rfl, rfl⟩

/-- Decoding a frame is stable under extension of the input. -/
lemma decodeFrame_append {input : Bytes} {r : WalRecord} {n : ℕ}
    (h : decodeFrame input = some (r, n)) (ys : Bytes) :
    decodeFrame (input ++ ys) = some (r, n) := by
  obtain ⟨h8, hn, hle, hcrc, hpay⟩ := decodeFrame_eq_some_iff.mp h
  have h4 : 4 ≤ input.length := by omega
  rw [decodeFrame_eq_some_iff, List.length_append, slice_append_of_le h4 ys,
    slice_append_of_le h8 ys, slice_append_of_le hle ys]
  exact ⟨by omega, hn, by omega, hcrc, hpay⟩

/-- Decoding a frame reads nothing behind it. -/
lemma decodeFrame_take {input : Bytes} {r : WalRecord} {n : ℕ}
    (h : decodeFrame input = some (r, n)) : decodeFrame (input.take n) = some (r, n) := by
  obtain ⟨h8, hn, hle, hcrc, hpay⟩ := decodeFrame_eq_some_iff.mp h
  have hlen : (input.take n).length = n := List.length_take_of_le hle
  have hslice : ∀ i j, j ≤ n → slice (input.take n) i j = slice input i j := by
    intro i j hj
    have happ := slice_append_of_le (i := i) (hlen.symm ▸ hj) (input.drop n)
    rw [List.take_append_drop] at happ
    exact happ.symm
  rw [decodeFrame_eq_some_iff, hlen, hslice 0 4 (by omega), hslice 4 8 (by omega),
    hslice 8 n le_rfl]
  exact ⟨by omega, hn, le_rfl, hcrc, hpay⟩

/-- Zero bytes are no frame: the empty payload of an all-zero header has checksum zero, but it
does not decode. -/
lemma decodeFrame_replicate_zero (m : ℕ) : decodeFrame (List.replicate m 0) = none := by
  cases h : decodeFrame (List.replicate m 0) with
  | none => rfl
  | some p =>
    obtain ⟨r, n⟩ := p
    obtain ⟨h8, hn, -, -, hpay⟩ := decodeFrame_eq_some_iff.mp h
    rw [List.length_replicate] at h8
    have hhead : slice (List.replicate m (0 : Byte)) 0 4 = List.replicate 4 0 := by
      simp only [slice, List.drop_zero, List.take_replicate]
      congr 1
      omega
    have hlen : (fromLeBytes 32 (List.replicate 4 (0 : Byte))).toNat = 0 := by decide
    rw [hhead, hlen] at hn
    rw [hn, slice, Nat.sub_self, List.take_zero] at hpay
    simp [decodePayload, REC_FIXED] at hpay

/-- A record fits the format when its payload length fits the `u32` length field. -/
def WalRecord.Fits (r : WalRecord) : Prop := REC_FIXED + r.val.length < 2 ^ 32

instance (r : WalRecord) : Decidable r.Fits := inferInstanceAs (Decidable (_ < _))

/-- A record that fits the format is decoded from its frame, all of which is consumed. -/
theorem decodeFrame_encodeFrame {r : WalRecord} (h : r.Fits) :
    decodeFrame (encodeFrame r) = some (r, (encodeFrame r).length) := by
  have hpay := length_encodePayload r
  have hfit : REC_FIXED + r.val.length < 2 ^ 32 := h
  have hframe : encodeFrame r = toLeBytes (BitVec.ofNat 32 (encodePayload r).length) ++
      (toLeBytes (crc32 (encodePayload r)) ++ encodePayload r) := by
    simp [encodeFrame]
  have hlen0 : slice (encodeFrame r) 0 4 = toLeBytes (BitVec.ofNat 32 (encodePayload r).length) := by
    rw [hframe, slice_append_left (by simp)]
  have hcrc : slice (encodeFrame r) 4 8 = toLeBytes (crc32 (encodePayload r)) := by
    rw [hframe, slice_append_right (by simp) _ 8]
    simpa using slice_append_left (j := 4) (by simp) (encodePayload r)
  have hbody : slice (encodeFrame r) 8 (encodeFrame r).length = encodePayload r := by
    rw [slice, encodeFrame, List.drop_left' (by simp),
      List.take_of_length_le (by rw [List.length_append]; simp)]
  rw [decodeFrame_eq_some_iff, hbody, hcrc, hlen0, fromLeBytes_toLeBytes (by decide),
    fromLeBytes_toLeBytes (by decide), BitVec.toNat_ofNat, Nat.mod_eq_of_lt (by omega),
    length_encodeFrame, hpay]
  refine ⟨by omega, by omega, le_rfl, rfl, decodePayload_encodePayload ?_⟩
  omega

/-- The frame format of the log. -/
def walCodec : FrameCodec Byte WalRecord where
  decode := decodeFrame
  pos h := by
    have := (decodeFrame_eq_some_iff.mp h).2.1
    omega
  le h := (decodeFrame_eq_some_iff.mp h).2.2.1
  stable h := decodeFrame_append h
  encode := encodeFrame
  Fits := WalRecord.Fits
  decode_encode := decodeFrame_encodeFrame

end GrainStore
