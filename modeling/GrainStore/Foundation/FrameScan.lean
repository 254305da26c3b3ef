import Mathlib

/-!
# Scanning a string for self-delimiting frames

A `FrameDecoder` reads one item off the front of a string and says how much it consumed.
Reading is stable under extension: what was read stays readable when more input follows.
`frames d xs` reads items until none is readable, and `rest d xs` is what is left over; `sized`
keeps with each item the length it takes.

A `FrameCodec` adds an encoder whose output decodes to what was encoded.  A concatenation
of encodings scans back to the items (`frames_flatMap_append`), and a cut through a
concatenation of encodings scans back to the items whose encodings lie wholly before the
cut (`frames_take_flatMap`): a proper prefix of one encoding is never readable
(`decode_eq_none_of_prefix`).
-/

/-- A decoder of one item from the front of a string, stable under extension of the input. -/
structure FrameDecoder (β α : Type*) where
  /-- Read one item, returning it with the length consumed. -/
  decode : List β → Option (α × ℕ)
  /-- Something is consumed. -/
  pos : ∀ {xs a n}, decode xs = some (a, n) → 0 < n
  /-- No more is consumed than is there. -/
  le : ∀ {xs a n}, decode xs = some (a, n) → n ≤ xs.length
  /-- What was read is still read when the input is extended. -/
  stable : ∀ {xs a n}, decode xs = some (a, n) → ∀ ys, decode (xs ++ ys) = some (a, n)

namespace FrameDecoder

variable {α β : Type*} (d : FrameDecoder β α)

/-- The items read off the front of a string, until none is readable. -/
def frames (xs : List β) : List α :=
  match _h : d.decode xs with
  | none => []
  | some (a, n) => a :: frames (xs.drop n)
termination_by xs.length
decreasing_by
  have := d.pos _h
  have := d.le _h
  rw [List.length_drop]
  omega

/-- What is left of a string once no further item is readable. -/
def rest (xs : List β) : List β :=
  match _h : d.decode xs with
  | none => xs
  | some (_, n) => rest (xs.drop n)
termination_by xs.length
decreasing_by
  have := d.pos _h
  have := d.le _h
  rw [List.length_drop]
  omega

variable {d}

/-- A string that starts with no readable item has no items. -/
lemma frames_of_none {xs : List β} (h : d.decode xs = none) : d.frames xs = [] := by
  rw [frames]
  split
  · rfl
  · simp_all

/-- The first item of a string, followed by the items of the remainder. -/
lemma frames_of_some {xs : List β} {a : α} {n : ℕ} (h : d.decode xs = some (a, n)) :
    d.frames xs = a :: d.frames (xs.drop n) := by
  rw [frames]
  split
  · simp_all
  · rename_i h'
    obtain ⟨rfl, rfl⟩ := Prod.mk.inj (Option.some.inj (h.symm.trans h'))
    rfl

/-- A string that starts with no readable item is all left over. -/
lemma rest_of_none {xs : List β} (h : d.decode xs = none) : d.rest xs = xs := by
  rw [rest]
  split
  · rfl
  · simp_all

/-- What is left over once the first item is read is what is left of the remainder. -/
lemma rest_of_some {xs : List β} {a : α} {n : ℕ} (h : d.decode xs = some (a, n)) :
    d.rest xs = d.rest (xs.drop n) := by
  rw [rest]
  split
  · simp_all
  · rename_i h'
    obtain ⟨rfl, rfl⟩ := Prod.mk.inj (Option.some.inj (h.symm.trans h'))
    rfl

/-- Strong induction along a scan: nothing readable, or one item and then the remainder. -/
@[elab_as_elim]
lemma scan_induction {P : List β → Prop} (none : ∀ xs, d.decode xs = none → P xs)
    (some : ∀ xs a n, d.decode xs = some (a, n) → P (xs.drop n) → P xs) (xs : List β) : P xs := by
  induction hlen : xs.length using Nat.strong_induction_on generalizing xs with
  | _ len ih =>
    cases h : d.decode xs with
    | none => exact none xs h
    | some p =>
      obtain ⟨a, n⟩ := p
      have hpos := d.pos h
      have hle := d.le h
      refine some xs a n h (ih _ ?_ _ rfl)
      rw [List.length_drop]
      omega

/-- The items of an extended string are the items already there, then those of what was left
over with the extension. -/
theorem frames_append (xs ys : List β) :
    d.frames (xs ++ ys) = d.frames xs ++ d.frames (d.rest xs ++ ys) := by
  induction xs using d.scan_induction with
  | none xs h => rw [frames_of_none h, rest_of_none h, List.nil_append]
  | some xs a n h ih =>
    rw [frames_of_some (d.stable h ys), frames_of_some h, rest_of_some h, List.cons_append,
      List.drop_append_of_le_length (d.le h), ih]

/-- Scanning an extension keeps every item already read. -/
theorem frames_prefix_append (xs ys : List β) : d.frames xs <+: d.frames (xs ++ ys) := by
  rw [frames_append]
  exact List.prefix_append _ _

/-- If every item takes `k` or more, there are no more items than fit. -/
lemma mul_length_frames_le {k : ℕ} (h : ∀ {xs a n}, d.decode xs = some (a, n) → k ≤ n)
    (xs : List β) : k * (d.frames xs).length ≤ xs.length := by
  induction xs using d.scan_induction with
  | none xs hnone =>
    rw [frames_of_none hnone, List.length_nil, Nat.mul_zero]
    exact Nat.zero_le _
  | some xs a n hsome ih =>
    have hk := h hsome
    have hle := d.le hsome
    rw [List.length_drop] at ih
    rw [frames_of_some hsome, List.length_cons, Nat.mul_succ]
    omega

/-- The decoder that also gives the length each item takes. -/
def sized (d : FrameDecoder β α) : FrameDecoder β (α × ℕ) where
  decode xs := (d.decode xs).map fun p => (p, p.2)
  pos h := by
    obtain ⟨p, hp, heq⟩ := Option.map_eq_some_iff.mp h
    exact (Prod.mk.inj heq).2 ▸ d.pos hp
  le h := by
    obtain ⟨p, hp, heq⟩ := Option.map_eq_some_iff.mp h
    exact (Prod.mk.inj heq).2 ▸ d.le hp
  stable h ys := by
    obtain ⟨p, hp, heq⟩ := Option.map_eq_some_iff.mp h
    exact Option.map_eq_some_iff.mpr ⟨p, d.stable hp ys, heq⟩

/-- With or without their lengths, the items are the same. -/
lemma map_fst_frames_sized (xs : List β) : (d.sized.frames xs).map Prod.fst = d.frames xs := by
  induction xs using d.scan_induction with
  | none xs h =>
    have hsized : d.sized.decode xs = none := Option.map_eq_none_iff.mpr h
    rw [frames_of_none h, frames_of_none hsized, List.map_nil]
  | some xs a n h ih =>
    have hsized : d.sized.decode xs = some ((a, n), n) := Option.map_eq_some_iff.mpr ⟨_, h, rfl⟩
    rw [frames_of_some h, frames_of_some hsized, List.map_cons, ih]

end FrameDecoder

/-- A frame decoder with an encoder whose output, when the item fits the format, decodes to
the item and consumes exactly the encoding. -/
structure FrameCodec (β α : Type*) extends FrameDecoder β α where
  /-- Write one item. -/
  encode : α → List β
  /-- The items the format can hold. -/
  Fits : α → Prop
  /-- Encoding then decoding gives the item back. -/
  decode_encode : ∀ {a}, Fits a → decode (encode a) = some (a, (encode a).length)

namespace FrameCodec

open FrameDecoder

variable {α β : Type*} {c : FrameCodec β α}

/-- An encoding decodes to its item whatever follows it. -/
lemma decode_encode_append {a : α} (ha : c.Fits a) (ys : List β) :
    c.decode (c.encode a ++ ys) = some (a, (c.encode a).length) :=
  c.stable (c.decode_encode ha) ys

/-- A proper prefix of an encoding is not readable. -/
theorem decode_eq_none_of_prefix {a : α} (ha : c.Fits a) {t : List β} (ht : t <+: c.encode a)
    (hlt : t.length < (c.encode a).length) : c.decode t = none := by
  cases h : c.decode t with
  | none => rfl
  | some p =>
    obtain ⟨b, n⟩ := p
    obtain ⟨s, hs⟩ := ht
    have hext := c.stable h s
    rw [hs, c.decode_encode ha] at hext
    obtain ⟨_, hn⟩ := Prod.mk.inj (Option.some.inj hext)
    have := c.le h
    omega

/-- A concatenation of encodings scans back to the items, and then the scan goes on. -/
theorem frames_flatMap_append {as : List α} (has : ∀ a ∈ as, c.Fits a) (ys : List β) :
    c.frames (as.flatMap c.encode ++ ys) = as ++ c.frames ys := by
  induction as with
  | nil => rfl
  | cons a as ih =>
    have ha := c.decode_encode_append (has a List.mem_cons_self) (as.flatMap c.encode ++ ys)
    rw [List.flatMap_cons, List.append_assoc, frames_of_some ha, List.drop_left,
      ih fun b hb => has b (List.mem_cons_of_mem a hb), List.cons_append]

/-- Every cut position lies after some whole encodings and before the end of the next one. -/
lemma exists_whole_prefix (as : List α) (n : ℕ) :
    ∃ k ≤ as.length, ((as.take k).flatMap c.encode).length ≤ n ∧
      ∀ a, as[k]? = some a → n < ((as.take (k + 1)).flatMap c.encode).length := by
  induction as generalizing n with
  | nil => exact ⟨0, le_rfl, by simp, by simp⟩
  | cons a as ih =>
    by_cases hn : n < (c.encode a).length
    · exact ⟨0, Nat.zero_le _, by simp, by simpa using hn⟩
    · obtain ⟨k, hk, hle, hmax⟩ := ih (n - (c.encode a).length)
      refine ⟨k + 1, Nat.succ_le_succ hk, ?_, ?_⟩
      · rw [List.take_succ_cons, List.flatMap_cons, List.length_append]
        omega
      · intro b hb
        have := hmax b (by simpa using hb)
        rw [List.take_succ_cons, List.flatMap_cons, List.length_append]
        omega

/-- Whole encodings before the cut are among the ones before it when one more does not fit. -/
lemma take_prefix_of_length_le {as : List α} {n k m : ℕ}
    (hmax : ∀ a, as[k]? = some a → n < ((as.take (k + 1)).flatMap c.encode).length)
    (hm : ((as.take m).flatMap c.encode).length ≤ n) : as.take m <+: as.take k := by
  by_cases hle : m ≤ k
  · exact List.take_prefix_take_left hle
  · cases hget : as[k]? with
    | none =>
      rw [List.getElem?_eq_none_iff] at hget
      rw [List.take_of_length_le hget, List.take_of_length_le (hget.trans (not_le.mp hle).le)]
    | some a =>
      have hsub : as.take (k + 1) <+: as.take m :=
        List.take_prefix_take_left (Nat.succ_le_of_lt (not_le.mp hle))
      have hlen := (hsub.flatMap c.encode).length_le
      exact absurd (hmax a hget) (not_lt.mpr (hlen.trans hm))

/-- A cut through a concatenation of encodings scans back to the items whose encodings lie
wholly before the cut. -/
theorem frames_take_flatMap {as : List α} (has : ∀ a ∈ as, c.Fits a) {n k : ℕ}
    (hk : ((as.take k).flatMap c.encode).length ≤ n)
    (hmax : ∀ a, as[k]? = some a → n < ((as.take (k + 1)).flatMap c.encode).length) :
    c.frames ((as.flatMap c.encode).take n) = as.take k := by
  have hsplit : as.flatMap c.encode =
      (as.take k).flatMap c.encode ++ (as.drop k).flatMap c.encode := by
    rw [← List.flatMap_append, List.take_append_drop]
  rw [hsplit, List.take_append, List.take_of_length_le hk,
    frames_flatMap_append fun a ha => has a (List.mem_of_mem_take ha)]
  set m := n - ((as.take k).flatMap c.encode).length with hm
  suffices hnone : c.decode (((as.drop k).flatMap c.encode).take m) = none by
    rw [frames_of_none hnone, List.append_nil]
  cases hdrop : as.drop k with
  | nil =>
    rw [List.flatMap_nil, List.take_nil]
    cases h : c.decode [] with
    | none => rfl
    | some p => exact absurd (c.le h) (Nat.not_le.mpr (c.pos h))
  | cons a bs =>
    -- the cut falls inside the encoding of the first item that is not whole
    have hget : as[k]? = some a := by
      rw [← List.head?_drop, hdrop, List.head?_cons]
    have hlt := hmax a hget
    rw [List.take_add_one, hget, Option.toList_some, List.flatMap_append, List.length_append,
      List.flatMap_singleton] at hlt
    have hmlt : m < (c.encode a).length := by omega
    have ha : c.Fits a := has a (List.mem_of_getElem? hget)
    rw [List.flatMap_cons, List.take_append_of_le_length hmlt.le]
    refine decode_eq_none_of_prefix ha (List.take_prefix _ _) ?_
    rw [List.length_take]
    omega

end FrameCodec
