import Mathlib
import GrainStore.Cdc
import GrainStore.Foundation.OrderedMap

/-!
# The vector materializer

Tails the change stream, embeds each committed value and maintains the vector index, as a map
from grain ids to vectors.  The embedder is a parameter.

`Completion` tracks the contiguous prefix of the timestamps applied; `Completion.has_complete` and
`Completion.le_watermark_iff` say what its watermark means.
-/

namespace GrainStore

/-- What the vector index holds for each grain id. -/
abbrev VectorMap (V : Type*) := Std.ExtTreeMap Sid V

section Apply

variable {V : Type*} (embed : Bytes → Option V)

/-- The index entry a change leaves for its grain id: none for a delete and for a value that
cannot be embedded. -/
def effect (r : CdcRecord) : Option V :=
  if r.isDelete then none else embed r.val

/-- Apply one change to the index. -/
def applyChange (index : VectorMap V) (r : CdcRecord) : VectorMap V :=
  if r.isDelete then index.erase r.sid
  else
    match embed r.val with
    | some v => index.insert r.sid v
    | none => index.erase r.sid

/-- Applying a change sets the entry of its grain id and no other. -/
lemma getElem?_applyChange (index : VectorMap V) (r : CdcRecord) (sid : Sid) :
    (applyChange embed index r)[sid]? = if r.sid = sid then effect embed r else index[sid]? := by
  have herase : (index.erase r.sid)[sid]? = if r.sid = sid then none else index[sid]? := by
    rw [Std.ExtTreeMap.getElem?_erase]
    by_cases h : r.sid = sid
    · rw [if_pos h, if_pos (Std.LawfulEqCmp.compare_eq_iff_eq.mpr h)]
    · rw [if_neg h, if_neg (mt Std.LawfulEqCmp.compare_eq_iff_eq.mp h)]
  unfold applyChange effect
  by_cases hdel : r.isDelete
  · rw [if_pos hdel, if_pos hdel]
    exact herase
  · rw [if_neg hdel, if_neg hdel]
    cases hval : embed r.val with
    | none => exact herase
    | some v => exact OrderedMap.getElem?_insert_eq index r.sid sid v

/-- The index after a sequence of changes. -/
def applyAll (changes : List CdcRecord) : VectorMap V := changes.foldl (applyChange embed) ∅

/-- The entry of a grain id is the effect of the last change applied to it. -/
lemma getElem?_applyAll (changes : List CdcRecord) (sid : Sid) :
    (applyAll embed changes)[sid]? =
      ((changes.filter fun r => r.sid = sid).getLast?).bind (effect embed) := by
  induction changes using List.reverseRecOn with
  | nil => simp [applyAll]
  | append_singleton changes r ih =>
    have hfold : applyAll embed (changes ++ [r]) = applyChange embed (applyAll embed changes) r := by
      simp [applyAll]
    rw [hfold, getElem?_applyChange, List.filter_append, ih]
    by_cases h : r.sid = sid
    · simp [h]
    · simp [h]

end Apply

/-! ## Completion tracking -/

/-- Tracks the highest contiguous timestamp that has been applied. -/
structure Completion where
  next : ℕ
  pending : Finset ℕ
  deriving DecidableEq

namespace Completion

/-- Nothing is applied; the first timestamp expected is 1. -/
def new : Completion := ⟨1, ∅⟩

/-- Advance over the contiguous prefix.  Each round takes a timestamp out of `pending`, so its
size is enough fuel. -/
def advance : ℕ → Completion → Completion
  | 0, c => c
  | fuel + 1, c =>
    if c.next ∈ c.pending then advance fuel ⟨c.next + 1, c.pending.erase c.next⟩ else c

/-- Record that `seq` is applied. -/
def complete (c : Completion) (seq : ℕ) : Completion :=
  let pending := insert seq c.pending
  advance pending.card ⟨c.next, pending⟩

/-- The watermark that is stored after a completion. -/
def watermark (c : Completion) : ℕ := c.next - 1

/-- The timestamps a completion state knows to be applied. -/
def Has (c : Completion) (seq : ℕ) : Prop := 1 ≤ seq ∧ seq < c.next ∨ seq ∈ c.pending

/-- A completion state that has advanced as far as it can. -/
structure Advanced (c : Completion) : Prop where
  pos : 1 ≤ c.next
  next : c.next ∉ c.pending

lemma has_new (seq : ℕ) : ¬new.Has seq := by
  rintro (⟨h₁, h₂⟩ | h)
  · exact absurd h₂ (not_lt.mpr h₁)
  · simp [new] at h

lemma advanced_new : Advanced new := ⟨le_rfl, by simp [new]⟩

/-- Advancing forgets nothing and learns nothing. -/
lemma has_advance (fuel : ℕ) {c : Completion} (hpos : 1 ≤ c.next) (seq : ℕ) :
    (advance fuel c).Has seq ↔ c.Has seq := by
  induction fuel generalizing c with
  | zero => rfl
  | succ fuel ih =>
    rw [advance]
    split
    · rename_i hmem
      rw [ih (Nat.le_add_left _ _), Has, Has, Finset.mem_erase]
      constructor
      · rintro (⟨h₁, h₂⟩ | ⟨-, h⟩)
        · rcases Nat.lt_succ_iff_lt_or_eq.mp h₂ with h₂ | rfl
          · exact Or.inl ⟨h₁, h₂⟩
          · exact Or.inr hmem
        · exact Or.inr h
      · rintro (⟨h₁, h₂⟩ | h)
        · exact Or.inl ⟨h₁, Nat.lt_succ_of_lt h₂⟩
        · by_cases heq : seq = c.next
          · exact Or.inl ⟨heq ▸ hpos, heq ▸ Nat.lt_succ_self _⟩
          · exact Or.inr ⟨heq, h⟩
    · rfl

/-- With enough fuel the prefix is advanced to its end. -/
lemma advanced_advance {fuel : ℕ} {c : Completion} (hpos : 1 ≤ c.next)
    (hfuel : c.pending.card ≤ fuel) : Advanced (advance fuel c) := by
  induction fuel generalizing c with
  | zero =>
    have hempty : c.pending = ∅ := Finset.card_eq_zero.mp (Nat.le_zero.mp hfuel)
    exact ⟨hpos, by rw [advance, hempty]; exact Finset.notMem_empty _⟩
  | succ fuel ih =>
    rw [advance]
    split
    · rename_i hmem
      refine ih (Nat.le_add_left _ _) ?_
      rw [Finset.card_erase_of_mem hmem]
      omega
    · rename_i hnot
      exact ⟨hpos, hnot⟩

/-- What is known to be applied after a completion. -/
lemma has_complete {c : Completion} (hpos : 1 ≤ c.next) (seq q : ℕ) :
    (c.complete seq).Has q ↔ c.Has q ∨ q = seq := by
  rw [complete, has_advance _ (c := ⟨c.next, insert seq c.pending⟩) hpos, Has, Has,
    Finset.mem_insert]
  tauto

lemma Advanced.complete {c : Completion} (h : Advanced c) (seq : ℕ) :
    Advanced (c.complete seq) :=
  advanced_advance h.pos le_rfl

/-- The watermark has reached a timestamp exactly when all timestamps up to it are applied. -/
lemma le_watermark_iff {c : Completion} (h : Advanced c) (seq : ℕ) :
    seq ≤ c.watermark ↔ ∀ q, 1 ≤ q → q ≤ seq → c.Has q := by
  have hpos := h.pos
  constructor
  · intro hle q h₁ h₂
    unfold watermark at hle
    exact Or.inl ⟨h₁, by omega⟩
  · intro hall
    by_contra hlt
    unfold watermark at hlt
    rcases hall c.next hpos (by omega) with ⟨-, hself⟩ | hmem
    · exact lt_irrefl _ hself
    · exact h.next hmem

/-- The tracker after some completions. -/
def completeAll (seqs : List ℕ) : Completion := seqs.foldl complete new

lemma completeAll_concat (seqs : List ℕ) (seq : ℕ) :
    completeAll (seqs ++ [seq]) = (completeAll seqs).complete seq := List.foldl_concat _ _ _ _

/-- A tracker is advanced as far as it can, and knows of the completions there were. -/
lemma completeAll_spec (seqs : List ℕ) :
    Advanced (completeAll seqs) ∧ ∀ q, (completeAll seqs).Has q ↔ q ∈ seqs := by
  induction seqs using List.reverseRecOn with
  | nil => exact ⟨advanced_new, fun q => iff_of_false (has_new q) List.not_mem_nil⟩
  | append_singleton seqs seq ih =>
    obtain ⟨hadvanced, hhas⟩ := ih
    rw [completeAll_concat]
    refine ⟨hadvanced.complete seq, ?_⟩
    intro q
    rw [has_complete hadvanced.pos, hhas, List.mem_append, List.mem_singleton]

/-- The watermark is the largest timestamp up to which all are applied.  Take any sequence of
completions, in any order, with gaps and repetitions: all timestamps from 1 to the watermark are
among them, and the next one is not.  A further completion does not lower the watermark, and it has
not advanced by more than there were completions. -/
theorem watermark_isGreatest (seqs : List ℕ) :
    IsGreatest {m | ∀ q, 1 ≤ q → q ≤ m → q ∈ seqs} (completeAll seqs).watermark ∧
      (∀ seq, (completeAll seqs).watermark ≤ (completeAll (seqs ++ [seq])).watermark) ∧
      (completeAll seqs).next ≤ seqs.length + 1 := by
  obtain ⟨hadvanced, hhas⟩ := completeAll_spec seqs
  have hreached : ∀ m, m ≤ (completeAll seqs).watermark ↔ ∀ q, 1 ≤ q → q ≤ m → q ∈ seqs := by
    intro m
    simp only [le_watermark_iff hadvanced, hhas]
  refine ⟨⟨(hreached _).mp le_rfl, fun m hm => (hreached m).mpr hm⟩, ?_, ?_⟩
  · intro seq
    obtain ⟨hadvanced', hhas'⟩ := completeAll_spec (seqs ++ [seq])
    rw [le_watermark_iff hadvanced']
    intro q h₁ h₂
    exact (hhas' q).mpr (List.mem_append_left _ ((hreached _).mp le_rfl q h₁ h₂))
  · have hsub : List.range' 1 (completeAll seqs).watermark ⊆ seqs := by
      intro q hq
      rw [List.mem_range'_1] at hq
      exact (hreached _).mp le_rfl q hq.1 (by omega)
    have hlen := (List.subperm_of_subset List.nodup_range' hsub).length_le
    rw [List.length_range', watermark] at hlen
    omega

end Completion

end GrainStore
