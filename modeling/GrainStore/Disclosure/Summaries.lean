import Mathlib
import GrainStore.Disclosure

/-!
# What a summary shows

A summary takes the nearest result of each distance band.  The loop that takes them is modelled with
fuel here (`stride`), and shown to end; `summary_spec` says that the representatives stay within
their quota and leave no result far behind.
-/

namespace GrainStore

variable {D : Type*}

/-- The loop that takes the first result of each band, from position `i` on; no result when the fuel
runs out. -/
def stride (ranked : List (Ranked D)) (bandSize : ℕ) : ℕ → ℕ → Option (List (Ranked D))
  | 0, _ => none
  | fuel + 1, i =>
    match ranked[i]? with
    | none => some []
    | some r => (stride ranked bandSize fuel (i + bandSize)).map (r :: ·)

/-- How many bands there are. -/
def bands (total reps : ℕ) : ℕ := min (max reps 1) total

/-- The size of a band: `total` over the number of bands, rounded up. -/
def bandSize (total reps : ℕ) : ℕ := (total + bands total reps - 1) / bands total reps

/-! ## The bands -/

section Bands

variable {total reps size : ℕ}

/-- The bands have some size, and cover all results. -/
lemma bandSize_spec (h : 0 < total) :
    0 < bandSize total reps ∧ total ≤ bands total reps * bandSize total reps := by
  have hbands : 0 < bands total reps := lt_min (lt_max_of_lt_right Nat.one_pos) h
  have hmod := Nat.div_add_mod (total + bands total reps - 1) (bands total reps)
  have hlt := Nat.mod_lt (total + bands total reps - 1) hbands
  have hcover : total ≤ bands total reps * bandSize total reps := by
    rw [bandSize]
    omega
  refine ⟨Nat.pos_of_ne_zero fun hzero => ?_, hcover⟩
  rw [hzero, Nat.mul_zero] at hcover
  omega

lemma nearestOfBands_nil : nearestOfBands size ([] : List (Ranked D)) = [] := by
  rw [nearestOfBands]

lemma nearestOfBands_cons (r : Ranked D) (rest : List (Ranked D)) :
    nearestOfBands size (r :: rest) = r :: nearestOfBands size (rest.drop (size - 1)) := by
  rw [nearestOfBands]

/-- What is taken is taken in order. -/
lemma nearestOfBands_sublist (ranked : List (Ranked D)) :
    (nearestOfBands size ranked).Sublist ranked := by
  induction ranked using nearestOfBands.induct size with
  | case1 =>
    rw [nearestOfBands_nil]
  | case2 r rest ih =>
    rw [nearestOfBands_cons]
    exact (ih.trans (List.drop_sublist _ _)).cons_cons r

/-- The `m`-th result taken is the first of the `m`-th band. -/
lemma getElem?_nearestOfBands (hsize : 0 < size) (ranked : List (Ranked D)) (m : ℕ) :
    (nearestOfBands size ranked)[m]? = ranked[m * size]? := by
  induction m generalizing ranked with
  | zero =>
    rw [Nat.zero_mul]
    cases ranked with
    | nil => rw [nearestOfBands_nil]
    | cons r rest => rw [nearestOfBands_cons, List.getElem?_cons_zero, List.getElem?_cons_zero]
  | succ m ih =>
    cases ranked with
    | nil => rw [nearestOfBands_nil, List.getElem?_nil, List.getElem?_nil]
    | cons r rest =>
      have hindex : (m + 1) * size = (size - 1 + m * size) + 1 := by
        rw [Nat.succ_mul]
        omega
      rw [nearestOfBands_cons, List.getElem?_cons_succ, ih, hindex, List.getElem?_cons_succ,
        List.getElem?_drop]

/-- There are no more of them than bands. -/
lemma length_nearestOfBands_le (hsize : 0 < size) {ranked : List (Ranked D)} {n : ℕ}
    (hcover : ranked.length ≤ n * size) : (nearestOfBands size ranked).length ≤ n := by
  rw [← List.getElem?_eq_none_iff, getElem?_nearestOfBands hsize, List.getElem?_eq_none_iff]
  exact hcover

/-- The loop ends with what is taken of the rest. -/
lemma stride_eq (hsize : 0 < size) (ranked : List (Ranked D)) {fuel i : ℕ}
    (hfuel : ranked.length - i < fuel) :
    stride ranked size fuel i = some (nearestOfBands size (ranked.drop i)) := by
  induction fuel generalizing i with
  | zero => exact absurd hfuel (Nat.not_lt_zero _)
  | succ fuel ih =>
    rw [stride]
    cases hi : ranked[i]? with
    | none =>
      rw [List.drop_eq_nil_of_le (List.getElem?_eq_none_iff.mp hi), nearestOfBands_nil]
    | some r =>
      dsimp only
      obtain ⟨hlt, rfl⟩ := List.getElem?_eq_some_iff.mp hi
      rw [ih (by omega)]
      rw [List.drop_eq_getElem_cons hlt, nearestOfBands_cons, List.drop_drop, Option.map_some]
      congr 4
      omega

end Bands

/-! ## The summary -/

/-- The tokens of some of the results are no more than those of all. -/
lemma tokens_le_of_sublist {part ranked : List (Ranked D)} (h : part.Sublist ranked) :
    (part.map fun r => grainTokens r.grain).sum ≤ (ranked.map fun r => grainTokens r.grain).sum :=
  (h.map _).sum_le_sum fun _ _ => Nat.zero_le _

variable [LinearOrder D] [Zero D] [One D] [Sub D] [Div D] (eps : D) {ranked : List (Ranked D)}
  (reps : ℕ)

lemma representatives_eq : (buildSummary eps ranked reps).representatives =
    nearestOfBands (bandSize ranked.length reps) ranked := rfl

/-- The distances of a summary are those of the first, the middle and the last result. -/
lemma distances_eq (hsorted : ranked.Pairwise fun a b => a.dist ≤ b.dist)
    (hpos : 0 < ranked.length) :
    let s := buildSummary eps ranked reps
    ranked[0]?.map Ranked.dist = some s.distMin ∧
      ranked[ranked.length / 2]?.map Ranked.dist = some s.distMedian ∧
      ranked[ranked.length - 1]?.map Ranked.dist = some s.distMax := by
  have hsort : (ranked.map Ranked.dist).insertionSort (· ≤ ·) = ranked.map Ranked.dist :=
    (List.pairwise_map.mpr hsorted).insertionSort_eq
  have hget : ∀ i < ranked.length,
      ranked[i]?.map Ranked.dist = some ((ranked.map Ranked.dist).getD i 0) := by
    intro i hi
    rw [List.getD_eq_getElem?_getD, List.getElem?_map, List.getElem?_eq_getElem hi]
    rfl
  have hhead : (ranked.map Ranked.dist).headD 0 = (ranked.map Ranked.dist).getD 0 0 := by
    cases ranked <;> rfl
  dsimp only [buildSummary]
  rw [hsort, hhead, List.length_map]
  exact ⟨hget 0 hpos, hget _ (Nat.div_lt_self hpos Nat.one_lt_two), hget _ (by omega)⟩

omit [Zero D] [One D] [Sub D] [Div D] in
/-- A later result is no nearer. -/
lemma dist_le_of_le (hsorted : ranked.Pairwise fun a b => a.dist ≤ b.dist) {i j : ℕ} {a b : D}
    (hij : i ≤ j) (hj : j < ranked.length) (ha : ranked[i]?.map Ranked.dist = some a)
    (hb : ranked[j]?.map Ranked.dist = some b) : a ≤ b := by
  rw [List.getElem?_eq_getElem (hij.trans_lt hj), Option.map_some, Option.some.injEq] at ha
  rw [List.getElem?_eq_getElem hj, Option.map_some, Option.some.injEq] at hb
  rw [← ha, ← hb]
  rcases hij.eq_or_lt with rfl | hlt
  · exact le_rfl
  · exact List.pairwise_iff_getElem.mp hsorted i j (hlt.trans hj) hj hlt

/-- What a summary shows of a ranked result.  Take any results in ascending distance and any number
of representatives asked for.  The loop over the bands ends, with at most that number of
representatives, or one when none are asked for; they are some of the results in order, from the
nearest on; every result is less than a band behind some representative; the three distances are
those of the first, the middle and the last result; and the summary costs at most 16 tokens more
than the full result. -/
theorem summary_spec (hsorted : ranked.Pairwise fun a b => a.dist ≤ b.dist) :
    let total := ranked.length
    let size := bandSize total reps
    let s := buildSummary eps ranked reps
    stride ranked size (total + 1) 0 = some s.representatives ∧
      s.representatives.length ≤ max reps 1 ∧
      s.representatives.Sublist ranked ∧
      s.representatives.head? = ranked.head? ∧
      (∀ i < total, ∃ m r, m * size ≤ i ∧ i < m * size + size ∧
        ranked[m * size]? = some r ∧ s.representatives[m]? = some r) ∧
      (0 < total →
        ranked[0]?.map Ranked.dist = some s.distMin ∧
        ranked[total / 2]?.map Ranked.dist = some s.distMedian ∧
        ranked[total - 1]?.map Ranked.dist = some s.distMax ∧
        s.distMin ≤ s.distMedian ∧ s.distMedian ≤ s.distMax) ∧
      summaryTokens s ≤ s.estFullTokens + 16 := by
  intro total size s
  have htokens : summaryTokens s ≤ s.estFullTokens + 16 :=
    Nat.add_le_add_right (tokens_le_of_sublist (nearestOfBands_sublist ranked)) 16
  rcases Nat.eq_zero_or_pos total with hzero | hpos
  · have hnil : ranked = [] := List.eq_nil_of_length_eq_zero hzero
    have hreps : s.representatives = [] := by
      simp only [s, representatives_eq, hnil, nearestOfBands_nil]
    rw [hreps, hzero, hnil]
    exact ⟨rfl, Nat.zero_le _, List.Sublist.refl _, rfl, nofun, nofun, htokens⟩
  · have hsize : 0 < size := (bandSize_spec hpos).1
    have hcover : total ≤ bands total reps * size := (bandSize_spec hpos).2
    have hreps : s.representatives = nearestOfBands size ranked := rfl
    have hget := getElem?_nearestOfBands hsize ranked
    refine ⟨?_, ?_, nearestOfBands_sublist ranked, ?_, ?_, ?_, htokens⟩
    · rw [stride_eq hsize ranked (by omega), List.drop_zero]
      rfl
    · exact (length_nearestOfBands_le hsize hcover).trans (min_le_left _ _)
    · rw [hreps, List.head?_eq_getElem?, List.head?_eq_getElem?, hget, Nat.zero_mul]
    · intro i hi
      have hdiv := Nat.div_add_mod' i size
      have hmod := Nat.mod_lt i hsize
      have hlt : i / size * size < ranked.length := by omega
      refine ⟨i / size, ranked[i / size * size], by omega, by omega, ?_, ?_⟩
      · exact List.getElem?_eq_getElem hlt
      · rw [hreps, hget]
        exact List.getElem?_eq_getElem hlt
    · intro _
      obtain ⟨hmin, hmedian, hmax⟩ := distances_eq eps reps hsorted hpos
      have hhalf : total / 2 ≤ total - 1 := by omega
      have hlast : total - 1 < total := by omega
      exact ⟨hmin, hmedian, hmax,
        dist_le_of_le hsorted (Nat.zero_le _) (hhalf.trans_lt hlast) hmin hmedian,
        dist_le_of_le hsorted hhalf hlast hmedian hmax⟩

theorem summary_spec_two :
    let grain (sid : Sid) : Grain := ⟨sid, 0, .bytes [1, 2, 3], 0, 0, 0⟩
    let s := buildSummary (1 / 1000 : ℚ) [⟨grain 7, 1⟩, ⟨grain 9, 5⟩] 1
    s.representatives.length ≤ 1 ∧ s.representatives.head? = some ⟨grain 7, 1⟩ := by
  intro grain s
  have hsorted : [⟨grain 7, 1⟩, ⟨grain 9, 5⟩].Pairwise
      fun a b : Ranked ℚ => a.dist ≤ b.dist := by
    norm_num
  have h := summary_spec (1 / 1000) 1 hsorted
  exact ⟨h.2.1, h.2.2.2.1⟩

end GrainStore
