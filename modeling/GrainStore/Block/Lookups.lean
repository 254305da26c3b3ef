import Mathlib
import GrainStore.Block.Partition

/-!
# Lookups by sid and by category

A point lookup finds a record exactly when there is one, whatever the clustering and the size of the
Bloom filters.  The category sketch counts in 32 bits, so a block whose grains of a category are a
multiple of `2^32` shows none; a count by category is exact when there is no such block
(`lookupsExact_iff`).
-/

namespace GrainStore

open FixedWidth Block

section Field

variable {K : Type*} [Field K] [LinearOrder K] {ops : FloatOps K}

/-- The grains of a block, row by row. -/
def Block.rows (b : Block K) : List (Sid × Byte × List K) := b.sids.zip (b.cats.zip b.vectors)

/-- What a block keeps of a record. -/
def Block.GrainRec.row (r : GrainRec K) : Sid × Byte × List K := (r.sid, r.cat, r.vector)

/-- How many records are of a category. -/
def countCat (recs : List (GrainRec K)) (c : Byte) : ℕ := (recs.map GrainRec.cat).countP (· == c)

namespace BlockStore

/-- A store finds the records it was built from. -/
structure Finds (s : BlockStore K) (recs : List (GrainRec K)) : Prop where
  /-- What is found is there. -/
  get_some : ∀ sid c, (s.get sid).1 = some c → ∃ r ∈ recs, r.sid = sid ∧ r.cat = c
  /-- What is not found is not there. -/
  get_none : ∀ sid, (s.get sid).1 = none ↔ ∀ r ∈ recs, r.sid ≠ sid
  /-- Every record is in exactly one block. -/
  partition : (s.blocks.flatMap Block.rows).Perm (recs.map GrainRec.row)

/-- Besides, it counts them right. -/
structure LookupsExact (s : BlockStore K) (recs : List (GrainRec K)) : Prop extends
    Finds s recs where
  count : ∀ c, (s.countCategory c).1 = countCat recs c

/-! ## Point lookups -/

variable {recs : List (GrainRec K)} {groups : List (List (GrainRec K))} {b : Block K}
  {blocks : List (Block K)} {sid : Sid}

lemma mem_sids (h : Describes ops recs b) : sid ∈ b.sids ↔ ∃ r ∈ recs, r.sid = sid := by
  rw [h.sids, List.mem_map]

/-- The grain found in a block is one of its records. -/
lemma exists_of_find (h : Describes ops recs b) {c : Byte} {i : ℕ}
    (hfind : b.find sid = some (c, i)) : ∃ r ∈ recs, r.sid = sid ∧ r.cat = c := by
  unfold Block.find at hfind
  split at hfind
  · rename_i hmem
    obtain ⟨hcat, -⟩ := Prod.mk.inj (Option.some.inj hfind)
    have hlt : b.sids.idxOf sid < recs.length := by
      have hlen := List.idxOf_lt_length_iff.mpr hmem
      rwa [h.sids, List.length_map, ← h.sids] at hlen
    have hsid : b.sids[b.sids.idxOf sid]? = some sid := List.getElem?_idxOf hmem
    have hcat' : b.cats[b.sids.idxOf sid]? = some c := by
      rw [← hcat]
      exact List.getElem?_eq_getElem _
    rw [h.sids, List.getElem?_map, ← h.sids, List.getElem?_eq_getElem hlt] at hsid
    rw [h.cats, List.getElem?_map, List.getElem?_eq_getElem hlt] at hcat'
    exact ⟨_, List.getElem_mem hlt, Option.some.inj hsid, Option.some.inj hcat'⟩
  · cases hfind

lemma find_eq_none_iff (h : Describes ops recs b) :
    b.find sid = none ↔ ∀ r ∈ recs, r.sid ≠ sid := by
  rw [Block.find, dite_eq_right_iff]
  simp only [reduceCtorEq, imp_false, mem_sids h, not_exists, not_and, ne_eq]

/-- The search of the blocks finds a record exactly when there is one. -/
lemma getFrom_spec (h : List.Forall₂ (Describes ops) groups blocks) (total touched : ℕ) :
    (∀ c, (getFrom total sid blocks touched).1 = some c →
      ∃ r ∈ groups.flatten, r.sid = sid ∧ r.cat = c) ∧
    ((getFrom total sid blocks touched).1 = none ↔ ∀ r ∈ groups.flatten, r.sid ≠ sid) := by
  induction h generalizing touched with
  | nil => simp [getFrom]
  | @cons g b groups blocks hd hall ih =>
    -- a block in which the sid is not found may be left out
    have hleft : ∀ touched, (∀ r ∈ g, r.sid ≠ sid) →
        (∀ c, (getFrom total sid blocks touched).1 = some c →
          ∃ r ∈ (g :: groups).flatten, r.sid = sid ∧ r.cat = c) ∧
        ((getFrom total sid blocks touched).1 = none ↔
          ∀ r ∈ (g :: groups).flatten, r.sid ≠ sid) := by
      intro touched hg
      obtain ⟨hsome, hnone⟩ := ih touched
      refine ⟨fun c hc => ?_, hnone.trans ⟨fun hrest r hr => ?_, fun hrest r hr => ?_⟩⟩
      · obtain ⟨r, hr, hrec⟩ := hsome c hc
        exact ⟨r, List.mem_append_right g hr, hrec⟩
      · exact (List.mem_append.mp hr).elim (hg r) (hrest r)
      · exact hrest r (List.mem_append_right g hr)
    unfold getFrom
    by_cases hbloom : b.descriptor.sidBloom.maybeContains sid
    · rw [if_pos hbloom]
      cases hfind : b.find sid with
      | none => exact hleft _ ((find_eq_none_iff hd).mp hfind)
      | some p =>
        obtain ⟨r, hr, hsid, hcat⟩ := exists_of_find hd (c := p.1) (i := p.2) hfind
        refine ⟨fun c hc => ?_, ⟨fun hc => ?_, fun hall => ?_⟩⟩
        · exact ⟨r, List.mem_append_left _ hr, hsid, hcat.trans (Option.some.inj hc)⟩
        · cases hc
        · exact absurd hsid (hall r (List.mem_append_left _ hr))
    · rw [if_neg hbloom]
      refine hleft _ fun r hr hsid => hbloom ?_
      rw [← hsid]
      exact hd.bloom r hr

/-! ## Every record in one block -/

lemma rows_eq (h : Describes ops recs b) : b.rows = recs.map GrainRec.row := by
  rw [Block.rows, h.sids, h.cats, h.vectors, List.zip_map', List.zip_map']
  rfl

lemma flatMap_rows (h : List.Forall₂ (Describes ops) groups blocks) :
    blocks.flatMap Block.rows = groups.flatten.map GrainRec.row := by
  induction h with
  | nil => rfl
  | cons hd hall ih =>
    rw [List.flatMap_cons, List.flatten_cons, List.map_append, ih, rows_eq hd]

/-! ## Counts by category -/

/-- What is counted of so many grains of a block: nothing when the sketch shows none. -/
def counted (n : ℕ) : ℕ := if BitVec.ofNat 32 n = 0 then 0 else n

lemma countCategory_eq (h : List.Forall₂ (Describes ops) groups blocks) (c : Byte) :
    ((⟨blocks⟩ : BlockStore K).countCategory c).1 =
      (groups.map fun g => counted (countCat g c)).sum := by
  have hfold : ∀ acc : ℕ × ℕ, (blocks.foldl
      (fun (acc : ℕ × ℕ) b =>
        if b.descriptor.categoryCount c = 0 then acc
        else (acc.1 + b.cats.countP (· == c), acc.2 + 1)) acc).1 =
      acc.1 + (groups.map fun g => counted (countCat g c)).sum := by
    induction h with
    | nil => exact fun acc => rfl
    | @cons g b groups blocks hd hall ih =>
      intro acc
      have hsketch : b.descriptor.categoryCount c = BitVec.ofNat 32 (countCat g c) := hd.category c
      have hcount : b.cats.countP (· == c) = countCat g c := by
        rw [hd.cats]
        rfl
      rw [List.foldl_cons, ih, List.map_cons, List.sum_cons, hsketch, hcount]
      by_cases hzero : BitVec.ofNat 32 (countCat g c) = 0
      · rw [counted, if_pos hzero, if_pos hzero, Nat.zero_add]
      · rw [counted, if_neg hzero, if_neg hzero, ← Nat.add_assoc]
  rw [countCategory]
  exact (hfold (0, 0)).trans (Nat.zero_add _)

lemma counted_eq_iff {n : ℕ} : counted n = n ↔ (2 ^ 32 ∣ n → n = 0) := by
  have hzero : BitVec.ofNat 32 n = 0 ↔ 2 ^ 32 ∣ n := by
    rw [← BitVec.toNat_inj, BitVec.toNat_ofNat, Nat.dvd_iff_mod_eq_zero]
    rfl
  rw [counted, ← hzero]
  split
  · rename_i h
    exact ⟨fun hn _ => hn.symm, fun hn => (hn h).symm⟩
  · rename_i h
    exact ⟨fun _ hn => absurd hn h, fun _ => rfl⟩

/-- A sum of parts that are counted or not is the whole exactly when all are counted. -/
lemma sum_counted_eq_iff (l : List ℕ) : (l.map counted).sum = l.sum ↔ ∀ n ∈ l, counted n = n := by
  have hle : ∀ n, counted n ≤ n := by
    intro n
    rw [counted]
    split
    · exact Nat.zero_le n
    · exact le_rfl
  have hsum : ∀ l : List ℕ, (l.map counted).sum ≤ l.sum := by
    intro l
    simpa using List.sum_le_sum fun n (_ : n ∈ l) => hle n
  induction l with
  | nil => simp
  | cons n l ih =>
    have hn := hle n
    have hl := hsum l
    rw [List.map_cons, List.sum_cons, List.sum_cons, List.forall_mem_cons]
    constructor
    · intro h
      exact ⟨by omega, ih.mp (by omega)⟩
    · rintro ⟨hfirst, hrest⟩
      rw [hfirst, ih.mpr hrest]

omit [Field K] [LinearOrder K] in
lemma countCat_flatten (groups : List (List (GrainRec K))) (c : Byte) :
    countCat groups.flatten c = (groups.map fun g => countCat g c).sum := by
  rw [countCat, List.map_flatten, List.countP_flatten, List.map_map]
  rfl

/-- A category is counted right exactly when no group holds a positive multiple of `2^32` records of
it. -/
lemma countCategory_eq_iff (hperm : groups.flatten.Perm recs)
    (h : List.Forall₂ (Describes ops) (groups.filter fun g => !g.isEmpty) blocks) (c : Byte) :
    ((⟨blocks⟩ : BlockStore K).countCategory c).1 = countCat recs c ↔
      ∀ g ∈ groups, 2 ^ 32 ∣ countCat g c → countCat g c = 0 := by
  set full := groups.filter fun g => !g.isEmpty with hfull
  have hrecs : countCat recs c = (full.map fun g => countCat g c).sum := by
    rw [← countCat_flatten, hfull, List.flatten_filter_not_isEmpty, countCat, countCat,
      (hperm.map _).countP_eq]
  have hcounted : (full.map fun g => counted (countCat g c)) =
      (full.map fun g => countCat g c).map counted := by
    rw [List.map_map]
    rfl
  rw [countCategory_eq h, hrecs, hcounted, sum_counted_eq_iff, List.forall_mem_map]
  constructor
  · intro hall g hg
    by_cases hempty : g = []
    · exact fun _ => hempty ▸ rfl
    · exact counted_eq_iff.mp (hall g (List.mem_filter.mpr ⟨hg, by simpa using hempty⟩))
  · exact fun hall g hg => counted_eq_iff.mpr (hall g (List.mem_filter.mp hg).1)

/-- The blocks of some records find them, and count them right exactly when no group of the
clustering holds a positive multiple of `2^32` records of one category. -/
lemma exists_lookups (ops : FloatOps K) (hne : recs ≠ []) {nBlocks : ℕ} (hblocks : 1 ≤ nBlocks)
    (iters : ℕ) :
    ∃ assign groups store, kmeansAssign ops recs nBlocks iters = some assign ∧
      group recs assign nBlocks = some groups ∧
      clustered ops recs nBlocks iters = some store ∧ store.Finds recs ∧
      (store.LookupsExact recs ↔ ∀ g ∈ groups, ∀ c, 2 ^ 32 ∣ countCat g c → countCat g c = 0) := by
  obtain ⟨assign, groups, ⟨blocks⟩, hassign, hgroup, -, hperm, hbuild, hall⟩ :=
    exists_clustered ops hne hblocks iters
  have hflat : (groups.filter fun g => !g.isEmpty).flatten.Perm recs := by
    rw [List.flatten_filter_not_isEmpty]
    exact hperm
  have hfinds : (⟨blocks⟩ : BlockStore K).Finds recs := by
    refine ⟨?_, ?_, ?_⟩
    · intro sid c hc
      obtain ⟨r, hr, hrec⟩ := (getFrom_spec hall _ _).1 c hc
      exact ⟨r, hflat.mem_iff.mp hr, hrec⟩
    · intro sid
      refine (getFrom_spec hall _ _).2.trans ⟨fun h r hr => ?_, fun h r hr => ?_⟩
      · exact h r (hflat.mem_iff.mpr hr)
      · exact h r (hflat.mem_iff.mp hr)
    · rw [flatMap_rows hall]
      exact hflat.map _
  have hcount := countCategory_eq_iff hperm hall
  refine ⟨assign, groups, ⟨blocks⟩, hassign, hgroup, hbuild, hfinds, fun h g hg c => ?_,
    fun h => ⟨hfinds, fun c => ?_⟩⟩
  · exact (hcount c).mp (h.count c) g hg
  · exact (hcount c).mpr fun g hg => h g hg c

/-- Take any records, any number of blocks and of passes.  A store is built that finds the records
exactly when there is room for the groups, and one that counts them right besides exactly when, with
room for the groups, none of these holds a positive multiple of `2^32` records of one category. -/
theorem lookupsExact_iff (hne : recs ≠ []) {nBlocks : ℕ} (hblocks : 1 ≤ nBlocks) (iters : ℕ) :
    ∃ assign groups, kmeansAssign ops recs nBlocks iters = some assign ∧
      group recs assign nBlocks = some groups ∧
      ((∃ store, buildClustered ops recs nBlocks iters = some store ∧ store.Finds recs) ↔
        nBlocks * 24 ≤ isizeMax) ∧
      ((∃ store, buildClustered ops recs nBlocks iters = some store ∧ store.LookupsExact recs) ↔
        nBlocks * 24 ≤ isizeMax ∧
          ∀ g ∈ groups, ∀ c, 2 ^ 32 ∣ countCat g c → countCat g c = 0) := by
  obtain ⟨assign, groups, store, hassign, hgroup, hbuild, hfinds, hexact⟩ :=
    exists_lookups ops hne hblocks iters
  have hstore : nBlocks * 24 ≤ isizeMax →
      buildClustered ops recs nBlocks iters = some store := fun hroom =>
    (buildClustered_of_room ops hroom iters).trans hbuild
  refine ⟨assign, groups, hassign, hgroup, ⟨?_, fun hroom => ⟨store, hstore hroom, hfinds⟩⟩, ?_, ?_⟩
  · rintro ⟨store', hstore', -⟩
    exact room_of_buildClustered ops hstore'
  · rintro ⟨store', hstore', hexact'⟩
    have hroom := room_of_buildClustered ops hstore'
    obtain rfl := Option.some.inj ((hstore hroom).symm.trans hstore')
    exact ⟨hroom, hexact.mp hexact'⟩
  · rintro ⟨hroom, hcounts⟩
    exact ⟨store, hstore hroom, hexact.mpr hcounts⟩

end BlockStore

end Field

namespace LookupsExample

/-- Distances are not square roots here; the lookups do not depend on them. -/
def ops : FloatOps ℚ := ⟨fun x => x, fun x => ⌊x⌋₊, fun n => (BitVec.ofNat 64 (10 * n), 7#32)⟩

def grain : Block.GrainRec ℚ := ⟨1, 1, 7, [1, 2], 1, 1⟩

def recs : List (Block.GrainRec ℚ) :=
  [⟨1, 1, 7, [1, 2], 1, 1⟩, ⟨2, 1, 8, [5, 5], 2, 1⟩, ⟨1, 1, 9, [6, 5], 3, 1⟩]

end LookupsExample

namespace BlockStore

open LookupsExample in
/-- `2^32` times one record in one block: the record is found, and none is counted. -/
theorem not_lookupsExact :
    ∃ store, buildClustered ops (List.replicate (2 ^ 32) grain) 1 1 = some store ∧
      (store.countCategory grain.cat).1 = 0 ∧
      ¬store.LookupsExact (List.replicate (2 ^ 32) grain) := by
  have hne : List.replicate (2 ^ 32) grain ≠ [] := by
    rw [ne_eq, List.replicate_eq_nil_iff]
    decide
  obtain ⟨assign, groups, ⟨blocks⟩, -, -, hone, hperm, hbuild, hall⟩ :=
    exists_clustered ops hne le_rfl 1
  have hcount : countCat (List.replicate (2 ^ 32) grain) grain.cat = 2 ^ 32 := by
    rw [countCat, List.map_replicate, List.countP_replicate, if_pos (beq_self_eq_true _)]
  obtain ⟨g, rfl⟩ := List.length_eq_one_iff.mp hone
  rw [List.flatten_singleton] at hperm
  have hgroup : countCat g grain.cat = 2 ^ 32 := by
    rw [← hcount, countCat, countCat, (hperm.map _).countP_eq]
  have hzero : ((⟨blocks⟩ : BlockStore ℚ).countCategory grain.cat).1 = 0 := by
    rw [countCategory_eq hall]
    refine List.sum_eq_zero ?_
    intro n hn
    obtain ⟨g', hg', rfl⟩ := List.mem_map.mp hn
    rw [List.mem_singleton.mp (List.mem_filter.mp hg').1, hgroup]
    decide
  refine ⟨⟨blocks⟩, (buildClustered_of_room ops (by decide) 1).trans hbuild, hzero, ?_⟩
  intro h
  have hwrong := h.count grain.cat
  rw [hzero, hcount] at hwrong
  exact absurd hwrong (by decide)

open LookupsExample in
/-- Three records in two blocks, two of them with one sid. -/
theorem lookupsExact_iff_three :
    ∃ assign groups, kmeansAssign ops recs 2 3 = some assign ∧
      group recs assign 2 = some groups ∧
      ((∃ store, buildClustered ops recs 2 3 = some store ∧ store.Finds recs) ↔
        2 * 24 ≤ isizeMax) ∧
      ((∃ store, buildClustered ops recs 2 3 = some store ∧ store.LookupsExact recs) ↔
        2 * 24 ≤ isizeMax ∧ ∀ g ∈ groups, ∀ c, 2 ^ 32 ∣ countCat g c → countCat g c = 0) :=
  lookupsExact_iff (List.cons_ne_nil _ _) (by decide) 3

end BlockStore

end GrainStore
