import Mathlib
import GrainStore.Block

/-!
# The blocks partition the records

The k-means assigns every record to some block, and building a block reads its records right: what
the descriptor says about the body is stated by `Block.Describes`, and `buildClustered_spec` says
that the blocks are built from non-empty groups into which the records are divided.
-/

namespace GrainStore

open FixedWidth

section Numbers

variable {K : Type*} [Zero K] [NatCast K] [Add K] [Sub K] [Mul K] [Div K] [LT K] [DecidableLT K]
  {ops : FloatOps K}

/-! ## The k-means is total -/

omit [NatCast K] [Div K] in
/-- The nearest centroid is one of them. -/
lemma nearestCentroid_lt {centroids : List (List K)} (h : centroids ≠ []) (v : List K) :
    nearestCentroid ops centroids v < centroids.length := by
  unfold nearestCentroid
  refine List.foldlRecOn (motive := fun best : WithTop K × ℕ => best.2 < centroids.length) _ _
    ?_ ?_
  · exact List.length_pos_iff.mpr h
  · intro best hbest cen hcen
    dsimp only
    split
    · exact List.snd_lt_of_mem_zipIdx hcen
    · exact hbest

omit [NatCast K] [Sub K] [Mul K] [Div K] [LT K] [DecidableLT K] in
lemma exists_sumClusters (recs : List (Block.GrainRec K)) {assign : List ℕ} {blocks : ℕ} (dim : ℕ)
    (h : ∀ a ∈ assign, a < blocks) :
    ∃ clusters, sumClusters recs assign dim blocks = some clusters ∧
      clusters.1.length = blocks ∧ clusters.2.length = blocks := by
  refine Checked.exists_foldlM
    (P := fun acc : List (List K) × List U32 => acc.1.length = blocks ∧ acc.2.length = blocks) ?_
    ⟨List.length_replicate, List.length_replicate⟩
  rintro ⟨sums, counts⟩ p hp ⟨hsums, hcounts⟩
  have ha := h p.2 (List.of_mem_zip hp).2
  refine ⟨(sums.modify p.2 fun s => zipInto (· + ·) s p.1.vector, counts.modify p.2 (· + 1)), ?_,
    ?_, ?_⟩
  · dsimp only at hsums hcounts ⊢
    rw [Checked.modify_of_lt (hcounts.symm ▸ ha), Checked.modify_of_lt (hsums.symm ▸ ha)]
    rfl
  · rw [List.length_modify, hsums]
  · rw [List.length_modify, hcounts]

omit [Zero K] [Add K] [Sub K] [Mul K] [LT K] [DecidableLT K] in
lemma exists_moveCentroids {sums centroids : List (List K)} {counts : List U32} {blocks : ℕ}
    (hsums : sums.length = blocks) (hcounts : counts.length = blocks)
    (hcentroids : centroids.length = blocks) :
    ∃ moved, moveCentroids sums counts blocks centroids = some moved ∧ moved.length = blocks := by
  refine Checked.exists_foldlM (P := fun cens : List (List K) => cens.length = blocks) ?_ hcentroids
  intro cens c hc hlen
  have hlt := List.mem_range.mp hc
  rw [List.getElem?_eq_getElem (hcounts.symm ▸ hlt), Option.bind_some]
  split
  · rw [List.getElem?_eq_getElem (hsums.symm ▸ hlt), Option.bind_some,
      Checked.modify_of_lt (hlen.symm ▸ hlt)]
    exact ⟨_, rfl, by rw [List.length_modify, hlen]⟩
  · exact ⟨cens, rfl, hlen⟩

/-- The state of the k-means: so many centroids, and every record assigned to one of them. -/
def Assigned (n blocks : ℕ) (acc : List (List K) × List ℕ) : Prop :=
  acc.1.length = blocks ∧ acc.2.length = n ∧ ∀ a ∈ acc.2, a < blocks

lemma exists_kmeansPass (ops : FloatOps K) (recs : List (Block.GrainRec K)) {n blocks : ℕ}
    (dim : ℕ) (hpos : 0 < blocks) {acc : List (List K) × List ℕ} (h : Assigned n blocks acc) :
    ∃ acc', kmeansPass ops recs dim blocks acc = some acc' ∧
      Assigned recs.length blocks acc' := by
  have hcentroids : acc.1 ≠ [] := List.ne_nil_of_length_pos (h.1.symm ▸ hpos)
  have hnear : ∀ a ∈ recs.map fun r => nearestCentroid ops acc.1 r.vector, a < blocks := by
    intro a ha
    obtain ⟨r, -, rfl⟩ := List.mem_map.mp ha
    exact (nearestCentroid_lt hcentroids r.vector).trans_eq h.1
  obtain ⟨clusters, hclusters, hsums, hcounts⟩ := exists_sumClusters recs dim hnear
  obtain ⟨moved, hmoved, hlen⟩ := exists_moveCentroids hsums hcounts h.1
  refine ⟨(moved, _), ?_, hlen, List.length_map _, hnear⟩
  unfold kmeansPass
  dsimp only
  rw [hclusters, Option.bind_some, hmoved]
  rfl

/-- The index of a seed is in range, also when the product `i * n` wraps around to some `m`. -/
lemma seed_lt {i n m blocks : ℕ} (hi : i < blocks) (hn : 0 < n) (hm : m ≤ i * n) :
    m / blocks < n :=
  Nat.div_lt_of_lt_mul (hm.trans_lt (Nat.mul_lt_mul_of_pos_right hi hn))

/-- The k-means assigns every record to a block, to the first one when none are asked for. -/
theorem exists_kmeansAssign (ops : FloatOps K) {recs : List (Block.GrainRec K)} (hne : recs ≠ [])
    (nBlocks iters : ℕ) :
    ∃ assign, kmeansAssign ops recs nBlocks iters = some assign ∧
      assign.length = recs.length ∧ ∀ a ∈ assign, a < max nBlocks 1 := by
  have hn : 0 < recs.length := List.length_pos_iff.mpr hne
  obtain ⟨first, hfirst⟩ : ∃ first, recs.head? = some first :=
    ⟨recs.head hne, List.head?_eq_some_head hne⟩
  set blocks := min (max nBlocks 1) (max recs.length 1) with hdef
  have hpos : 0 < blocks := by omega
  have hle : blocks ≤ max nBlocks 1 := min_le_left _ _
  obtain ⟨seeds, hseeds, hall⟩ : ∃ seeds, (List.range blocks).mapM
      (fun i => recs[i * recs.length % (usizeMax + 1) / blocks]?.map Block.GrainRec.vector) =
        some seeds ∧ List.Forall₂ (fun _ _ => True) (List.range blocks) seeds := by
    refine Checked.exists_mapM ?_
    intro i hi
    have hlt : i * recs.length % (usizeMax + 1) / blocks < recs.length :=
      seed_lt (List.mem_range.mp hi) hn (Nat.mod_le _ _)
    rw [List.getElem?_eq_getElem hlt]
    exact ⟨_, rfl, trivial⟩
  have hstart : Assigned recs.length blocks (seeds, List.replicate recs.length 0) := by
    refine ⟨?_, List.length_replicate, ?_⟩
    · rw [← hall.length_eq, List.length_range]
    · intro a ha
      rw [List.eq_of_mem_replicate ha]
      exact hpos
  obtain ⟨acc, hacc, -, hlen, hlt⟩ := Checked.exists_foldlM (l := List.range (max iters 1))
    (fun acc _ _ h => exists_kmeansPass ops recs first.vector.length hpos h)
    hstart
  refine ⟨acc.2, ?_, hlen, fun a ha => (hlt a ha).trans_le hle⟩
  unfold kmeansAssign
  dsimp only
  rw [hfirst, Option.bind_some, ← hdef, hseeds, Option.bind_some, hacc]
  rfl

/-! ## The groups partition the records -/

/-- An item appended to one of several lists is one more item. -/
lemma flatten_modify_perm {α : Type*} {groups : List (List α)} {i : ℕ} (h : i < groups.length)
    (x : α) : (groups.modify i (· ++ [x])).flatten.Perm (groups.flatten ++ [x]) := by
  induction groups generalizing i with
  | nil => simp at h
  | cons g groups ih =>
    cases i with
    | zero =>
      rw [List.modify_zero_cons, List.flatten_cons, List.flatten_cons, List.append_assoc,
        List.append_assoc]
      exact (List.Perm.refl g).append List.perm_append_comm
    | succ i =>
      rw [List.modify_succ_cons, List.flatten_cons, List.flatten_cons, List.append_assoc]
      exact (List.Perm.refl g).append (ih (Nat.lt_of_succ_lt_succ h))

namespace BlockStore

omit [Zero K] [NatCast K] [Add K] [Sub K] [Mul K] [Div K] [LT K] [DecidableLT K] in
/-- Every record lands in exactly one group. -/
theorem exists_group {recs : List (Block.GrainRec K)} {assign : List ℕ} {nBlocks : ℕ}
    (hlen : assign.length = recs.length) (h : ∀ a ∈ assign, a < nBlocks) :
    ∃ groups, group recs assign nBlocks = some groups ∧ groups.length = nBlocks ∧
      groups.flatten.Perm recs := by
  have hstep : ∀ (items : List (Block.GrainRec K × ℕ)) (groups : List (List (Block.GrainRec K))),
      groups.length = nBlocks → (∀ p ∈ items, p.2 < nBlocks) →
      ∃ groups', items.foldlM (fun gs p => Checked.modify gs p.2 (· ++ [p.1])) groups =
          some groups' ∧ groups'.length = nBlocks ∧
        groups'.flatten.Perm (groups.flatten ++ items.map Prod.fst) := by
    intro items
    induction items with
    | nil => exact fun groups hgroups _ => ⟨groups, rfl, hgroups, by simp⟩
    | cons p items ih =>
      intro groups hgroups hitems
      have hp : p.2 < groups.length := hgroups.symm ▸ hitems p List.mem_cons_self
      obtain ⟨groups', hfold, hlen', hperm⟩ := ih (groups.modify p.2 (· ++ [p.1]))
        (by rw [List.length_modify, hgroups]) fun p' hp' => hitems p' (List.mem_cons_of_mem _ hp')
      refine ⟨groups', ?_, hlen', ?_⟩
      · rw [List.foldlM_cons, Checked.modify_of_lt hp]
        exact hfold
      · rw [List.map_cons, List.append_cons]
        exact hperm.trans ((flatten_modify_perm hp p.1).append_right _)
  obtain ⟨groups, hfold, hgroups, hperm⟩ := hstep (recs.zip assign) (List.replicate nBlocks [])
    List.length_replicate fun p hp => h p.2 (List.of_mem_zip hp).2
  refine ⟨groups, hfold, hgroups, ?_⟩
  rw [List.flatten_replicate_nil, List.nil_append, List.map_fst_zip hlen.ge] at hperm
  exact hperm

/-- The records are divided into groups. -/
theorem exists_groups (ops : FloatOps K) {recs : List (Block.GrainRec K)} {nBlocks : ℕ}
    (hne : recs ≠ []) (hblocks : 1 ≤ nBlocks) (iters : ℕ) :
    ∃ assign groups, kmeansAssign ops recs nBlocks iters = some assign ∧
      group recs assign nBlocks = some groups ∧ groups.length = nBlocks ∧
      groups.flatten.Perm recs := by
  obtain ⟨assign, hassign, hlen, hlt⟩ := exists_kmeansAssign ops hne nBlocks iters
  rw [max_eq_left hblocks] at hlt
  obtain ⟨groups, hgroups, hcount, hperm⟩ := exists_group hlen hlt
  exact ⟨assign, groups, hassign, hgroups, hcount, hperm⟩

end BlockStore

end Numbers

/-! ## What a descriptor says -/

section Field

variable {K : Type*} [Field K] [LinearOrder K] {ops : FloatOps K}

namespace Block

/-- A block holds some records, and its descriptor is right about them. -/
structure Describes (ops : FloatOps K) (recs : List (GrainRec K)) (b : Block K) : Prop where
  sids : b.sids = recs.map GrainRec.sid
  cats : b.cats = recs.map GrainRec.cat
  vectors : b.vectors = recs.map GrainRec.vector
  /-- The centroid has the dimension of the records. -/
  dim : ∀ n, (∀ r ∈ recs, r.vector.length = n) → b.descriptor.centroid.length = n
  /-- All records are within the radius. -/
  radius : ∀ r ∈ recs, l2 ops r.vector b.descriptor.centroid ≤ b.descriptor.radius
  pred : ∀ p, b.descriptor.hasPred p ↔ ∃ r ∈ recs, r.pred = p
  time : ∀ r ∈ recs, b.descriptor.tMin ≤ r.tTx ∧ r.tTx ≤ b.descriptor.tMax
  /-- The Bloom filter misses none. -/
  bloom : ∀ r ∈ recs, b.descriptor.sidBloom.maybeContains r.sid
  /-- The category sketch counts modulo `2^32`. -/
  category : ∀ c, b.descriptor.categoryCount c =
    BitVec.ofNat 32 ((recs.map GrainRec.cat).countP (· == c))

omit [Field K] in
lemma le_foldl_max (l : List K) (a : K) : a ≤ l.foldl max a ∧ ∀ x ∈ l, x ≤ l.foldl max a := by
  induction l generalizing a with
  | nil => exact ⟨le_rfl, by simp⟩
  | cons y l ih =>
    obtain ⟨hmax, hall⟩ := ih (max a y)
    refine ⟨(le_max_left a y).trans hmax, ?_⟩
    intro x hx
    rcases List.mem_cons.mp hx with rfl | hx
    · exact (le_max_right a x).trans hmax
    · exact hall x hx

lemma length_zipInto {K : Type*} (f : K → K → K) (as bs : List K) :
    (zipInto f as bs).length = as.length := by
  induction as generalizing bs with
  | nil => cases bs <;> rfl
  | cons a as ih =>
    cases bs with
    | nil => rfl
    | cons b bs => rw [zipInto, List.length_cons, List.length_cons, ih]

omit [LinearOrder K] in
lemma length_mean (dim : ℕ) (recs : List (GrainRec K)) : (mean dim recs).length = dim := by
  rw [mean, List.length_map]
  refine List.foldlRecOn (motive := fun c : List K => c.length = dim) _ _ List.length_replicate ?_
  intro c hc r _
  rw [length_zipInto, hc]

/-- A counter counts modulo its width. -/
lemma foldl_tally {ι : Type*} [DecidableEq ι] (l : List ι) (counts : ι → U32) (i : ι) :
    l.foldl tally counts i = counts i + BitVec.ofNat 32 (l.countP (· == i)) := by
  induction l generalizing counts with
  | nil => simp
  | cons j l ih =>
    rw [List.foldl_cons, ih, tally, List.countP_cons]
    by_cases hij : i = j
    · subst hij
      rw [Function.update_self, if_pos (beq_self_eq_true i), Nat.add_comm, BitVec.ofNat_add,
        BitVec.add_assoc]
      rfl
    · rw [Function.update_of_ne hij, if_neg (by simpa using Ne.symm hij), Nat.add_zero]

lemma describes_of_build {recs : List (GrainRec K)} {b : Block K} (h : build ops recs = some b) :
    Describes ops recs b := by
  obtain ⟨first, hfirst, rfl⟩ := Option.map_eq_some_iff.mp h
  have hmem : first ∈ recs := List.mem_of_mem_head? hfirst
  refine ⟨rfl, rfl, rfl, fun n hn => ?_, fun r hr => ?_, fun p => ?_, fun r hr => ⟨?_, ?_⟩,
    fun r hr => ?_, fun c => ?_⟩
  · rw [← hn first hmem]
    exact length_mean _ recs
  · exact (le_foldl_max _ _).2 _ (List.mem_map_of_mem hr)
  · simp [BlockDescriptor.hasPred]
  · exact (le_foldl_max (K := U64ᵒᵈ) _ _).2 _ (List.mem_map_of_mem hr)
  · exact (le_foldl_max _ _).2 _ (List.mem_map_of_mem hr)
  · exact Bloom.maybeContains_ofSids _ (List.mem_map_of_mem hr)
  · exact (foldl_tally _ _ c).trans (BitVec.zero_add _)

lemma exists_build {recs : List (GrainRec K)} (h : recs ≠ []) :
    ∃ b, build ops recs = some b ∧ Describes ops recs b := by
  have hsome : (build ops recs).isSome := by
    rw [build, Option.isSome_map, List.head?_eq_some_head h]
    rfl
  obtain ⟨b, hb⟩ := Option.isSome_iff_exists.mp hsome
  exact ⟨b, hb, describes_of_build hb⟩

end Block

/-- The blocks describe non-empty groups into which the records are divided. -/
theorem BlockStore.exists_clustered (ops : FloatOps K) {recs : List (Block.GrainRec K)}
    {nBlocks : ℕ} (hne : recs ≠ []) (hblocks : 1 ≤ nBlocks) (iters : ℕ) :
    ∃ assign groups store, kmeansAssign ops recs nBlocks iters = some assign ∧
      group recs assign nBlocks = some groups ∧ groups.length = nBlocks ∧
      groups.flatten.Perm recs ∧ clustered ops recs nBlocks iters = some store ∧
      List.Forall₂ (Block.Describes ops) (groups.filter fun g => !g.isEmpty) store.blocks := by
  obtain ⟨assign, groups, hassign, hgroups, hcount, hperm⟩ := exists_groups ops hne hblocks iters
  obtain ⟨blocks, hbuild, hall⟩ := Checked.exists_mapM (f := Block.build ops)
    (R := Block.Describes ops) (l := groups.filter fun g => !g.isEmpty) fun g hg =>
      Block.exists_build (by simpa using (List.mem_filter.mp hg).2)
  refine ⟨assign, groups, ⟨blocks⟩, hassign, hgroups, hcount, hperm, ?_, hall⟩
  rw [clustered, hassign, Option.bind_some, hgroups, Option.bind_some, hbuild]
  rfl

end Field

end GrainStore
