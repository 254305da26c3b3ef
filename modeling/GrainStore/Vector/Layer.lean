import Mathlib
import GrainStore.Vector.Bounds

/-!
# One layer, searched

`expansions` is the loop of a beam search with a record of the nodes it expands.  A node becomes a
candidate when it is visited for the first time and never again, so none is expanded twice, and the
loop ends by itself in as many passes as there are nodes and one more (`exists_expansions`).

`searchLayer_exact` collects what a search of one layer guarantees for any graph without dangling
links: cycles, links that go one way and repeated links are all allowed.
-/

namespace GrainStore

open Relation

namespace Hnsw

variable {V D : Type*} {dist : V → V → D} {s : State V} {q : V} {ef level ep n : ℕ} {b b' : Beam D}
  {c e : DistIdx D}

/-- There are no dangling links when no list of links has one. -/
lemma linked_of_forall
    (h : ∀ node ∈ s.nodes, ∀ links ∈ node.links, ∀ y ∈ links, y < s.nodes.length) : s.Linked := by
  intro level x y hedge
  cases hlinks : s.linksAt x level with
  | none =>
    rw [State.Edge, hlinks] at hedge
    cases hedge
  | some links =>
    rw [State.Edge, hlinks] at hedge
    obtain ⟨node, hnode, hlist⟩ := Option.bind_eq_some_iff.mp hlinks
    exact h node (List.mem_of_getElem? hnode) links (List.mem_of_getElem? hlist) y hedge

variable [LinearOrder D]

/-- The loop over the candidates with the nodes it expands, in order; no result if it does not end
by itself in `fuel` passes. -/
def State.expansions (dist : V → V → D) (s : State V) (q : V) (ef level : ℕ) :
    ℕ → Beam D → Option (List ℕ × Beam D)
  | 0, _ => none
  | fuel + 1, b =>
    match b.candidates with
    | [] => some ([], b)
    | c :: rest =>
      if (∃ f ∈ b.farthest, f < c.dist) ∧ ef ≤ b.result.length then some ([], b)
      else
        let neighbors := (s.linksAt c.idx level).getD []
        (expansions dist s q ef level fuel
          (neighbors.foldl (s.visit dist q ef) { b with candidates := rest })).map fun p =>
            (c.idx :: p.1, p.2)

/-! ## No node is expanded twice -/

/-- What looking at neighbours does to the candidates: those that are new were not visited before. -/
structure Beam.Grows (b b' : Beam D) : Prop where
  visited : b.visited ⊆ b'.visited
  fresh : ∀ c ∈ b'.candidates, c ∈ b.candidates ∨ c.idx ∉ b.visited

/-- What holds throughout a search, with no node a candidate twice. -/
structure Beam.Queued (dist : V → V → D) (s : State V) (q : V) (level ep : ℕ) (b : Beam D) : Prop
    extends Beam.Sound dist s q level ep b where
  single : (b.candidates.map DistIdx.idx).Nodup

lemma Beam.Queued.visit (ef : ℕ) (h : b.Queued dist s q level ep)
    (hn : ReflTransGen (s.Edge level) ep n) :
    (s.visit dist q ef b n).Queued dist s q level ep ∧ b.Grows (s.visit dist q ef b n) := by
  have hsound : (s.visit dist q ef b n).Sound dist s q level ep := h.toSound.visit hn
  rcases visit_cases dist s q ef b n with ⟨-, hb⟩ | ⟨-, hb, -⟩ | ⟨hnew, d, -, hb⟩
  · rw [hb]
    exact ⟨h, List.Subset.refl _, fun c => Or.inl⟩
  · refine ⟨⟨hsound, ?_⟩, ?_, ?_⟩
    · rw [hb]
      exact h.single
    · rw [hb]
      exact List.subset_cons_self _ _
    · rw [hb]
      exact fun c => Or.inl
  · obtain ⟨hvisited, hcandidates, -, -⟩ :=
      cut_cases (({ b with visited := n :: b.visited } : Beam D).push ⟨d, n⟩) ef
    refine ⟨⟨hsound, ?_⟩, ?_, ?_⟩
    · rw [hb, hcandidates]
      exact nodup_orderedInsert h.single (fun c hc => (h.candidates c hc).1) hnew
    · rw [hb, hvisited]
      exact List.subset_cons_self _ _
    · rw [hb, hcandidates]
      intro c hc
      rcases mem_push.1.mp hc with rfl | hc
      · exact Or.inr hnew
      · exact Or.inl hc

lemma Beam.Queued.foldl_visit (ef : ℕ) {ns : List ℕ} (h : b.Queued dist s q level ep)
    (hns : ∀ n ∈ ns, ReflTransGen (s.Edge level) ep n) :
    (ns.foldl (s.visit dist q ef) b).Queued dist s q level ep ∧
      b.Grows (ns.foldl (s.visit dist q ef) b) := by
  induction ns generalizing b with
  | nil => exact ⟨h, List.Subset.refl _, fun c => Or.inl⟩
  | cons n ns ih =>
    obtain ⟨hnext, hone⟩ := h.visit ef (hns n List.mem_cons_self)
    obtain ⟨hlast, hmore⟩ := ih hnext fun n' hn' => hns n' (List.mem_cons_of_mem _ hn')
    refine ⟨hlast, List.Subset.trans hone.visited hmore.visited, ?_⟩
    intro c hc
    rcases hmore.fresh c hc with hc | hnew
    · exact hone.fresh c hc
    · exact Or.inr fun hold => hnew (hone.visited hold)

lemma queued_startBeam (dist : V → V → D) (q : V) (level : ℕ) (hep : ep < s.nodes.length) :
    (s.startBeam dist q [ep]).Queued dist s q level ep := by
  obtain ⟨d, hd⟩ := s.exists_distance dist q hep
  refine ⟨sound_startBeam dist q level hep, ?_⟩
  rw [startBeam_singleton hd]
  exact List.nodup_singleton _

/-- With a pass more than there are steps to take, the loop ends by itself.  The nodes it expands
are candidates already or were not visited yet, and each of them is expanded once. -/
lemma exists_expansions (ef : ℕ) (hlinked : s.Linked) (hep : ep < s.nodes.length) {fuel : ℕ}
    (h : b.Queued dist s q level ep) (hfuel : b.remaining s < fuel) :
    ∃ expanded, s.expansions dist q ef level fuel b =
        some (expanded, s.expand dist q ef level fuel b) ∧
      expanded.Nodup ∧ ∀ i ∈ expanded, i ∈ b.candidates.map DistIdx.idx ∨ i ∉ b.visited := by
  induction fuel generalizing b with
  | zero => exact absurd hfuel (Nat.not_lt_zero _)
  | succ fuel ih =>
    unfold State.expansions State.expand
    cases hcand : b.candidates with
    | nil => exact ⟨[], rfl, List.nodup_nil, fun i hi => absurd hi List.not_mem_nil⟩
    | cons c rest =>
      dsimp only
      split
      · exact ⟨[], rfl, List.nodup_nil, fun i hi => absurd hi List.not_mem_nil⟩
      · have hsingle := h.single
        rw [hcand, List.map_cons, List.nodup_cons] at hsingle
        obtain ⟨hpopped, hns⟩ := h.toSound.pop hcand
        have hrest : ({ b with candidates := rest } : Beam D).Queued dist s q level ep :=
          ⟨hpopped, hsingle.2⟩
        obtain ⟨hnext, hgrows⟩ := hrest.foldl_visit ef hns
        have hle := hpopped.remaining_foldl_visit ef hlinked hep hns
        have htaken : b.remaining s = ({ b with candidates := rest } : Beam D).remaining s + 1 := by
          rw [Beam.remaining, hcand]
          rfl
        obtain ⟨expanded, hrun, honce, hfresh⟩ := ih hnext (by omega)
        have hvisited : c.idx ∈ b.visited := (h.candidates c (hcand ▸ List.mem_cons_self)).1
        have hcases : ∀ i ∈ expanded, i ∈ rest.map DistIdx.idx ∨ i ∉ b.visited := by
          intro i hi
          rcases hfresh i hi with hin | hnew
          · obtain ⟨c', hc', rfl⟩ := List.mem_map.mp hin
            rcases hgrows.fresh c' hc' with hold | hnew
            · exact Or.inl (List.mem_map_of_mem hold)
            · exact Or.inr hnew
          · exact Or.inr fun hold => hnew (hgrows.visited hold)
        refine ⟨c.idx :: expanded, ?_, List.nodup_cons.mpr ⟨fun hin => ?_, honce⟩, ?_⟩
        · rw [hrun]
          rfl
        · exact (hcases _ hin).elim hsingle.1 fun hnew => hnew hvisited
        · intro i hi
          rcases List.mem_cons.mp hi with rfl | hi
          · exact Or.inl List.mem_cons_self
          · exact (hcases i hi).imp (List.mem_cons_of_mem _) id

/-! ## How many results, and how near -/

/-- There are as many results as the beam is wide, or one, and the nearest is no worse than `e`. -/
structure Beam.Near (ef : ℕ) (e : DistIdx D) (b : Beam D) : Prop where
  length_le : b.result.length ≤ max ef 1
  head : ∃ c ∈ b.result.head?, c ≤ e

lemma Beam.Near.visit (h : b.Near ef e) : (s.visit dist q ef b n).Near ef e := by
  rcases visit_cases dist s q ef b n with ⟨-, hb⟩ | ⟨-, hb, -⟩ | ⟨-, d, -, hb⟩
  · rwa [hb]
  · rw [hb]
    exact ⟨h.length_le, h.head⟩
  · obtain ⟨c, hc, hle⟩ := h.head
    obtain ⟨l, hl⟩ := List.head?_eq_some_iff.mp hc
    have hlen := h.length_le
    -- the new result comes first or behind the one that is
    obtain ⟨c', l', hpush, hc', hpos⟩ : ∃ c' l',
        b.result.orderedInsert (· ≤ ·) ⟨d, n⟩ = c' :: l' ∧ c' ≤ e ∧ l'.length = b.result.length := by
      rw [hl, List.orderedInsert_cons]
      split
      · rename_i hnearer
        exact ⟨_, _, rfl, hnearer.trans hle, rfl⟩
      · exact ⟨_, _, rfl, hle, List.orderedInsert_length _ _ _⟩
    rw [hl, List.length_cons] at hlen hpos
    rw [hb, Beam.cut, Beam.push]
    dsimp only
    rw [hpush, List.length_cons]
    split
    · refine ⟨?_, c', ?_, hc'⟩
      · rw [List.length_dropLast, List.length_cons]
        omega
      · rw [List.head?_dropLast, if_pos (by rw [List.length_cons]; omega)]
        rfl
    · refine ⟨?_, c', rfl, hc'⟩
      rw [List.length_cons]
      omega

lemma Beam.Near.foldl_visit {ns : List ℕ} (h : b.Near ef e) :
    (ns.foldl (s.visit dist q ef) b).Near ef e := by
  induction ns generalizing b with
  | nil => exact h
  | cons n ns ih => exact ih h.visit

lemma near_expand {d : D} (hd : s.distance dist q ep = some d) (ef level fuel : ℕ) :
    (s.expand dist q ef level fuel (s.startBeam dist q [ep])).Near ef ⟨d, ep⟩ := by
  refine expand_invariant (fun b c rest h _ => ?_) fuel ?_
  · have hpopped : ({ b with candidates := rest } : Beam D).Near ef ⟨d, ep⟩ :=
      ⟨h.length_le, h.head⟩
    exact hpopped.foldl_visit
  · rw [startBeam_singleton hd]
    exact ⟨le_max_right _ _, _, rfl, le_rfl⟩

/-! ## What a search of one layer guarantees -/

/-- A beam as wide as what the entry point reaches finds all of it. -/
lemma mem_searchLayer_iff (hlinked : s.Linked) (hep : ep < s.nodes.length) (dist : V → V → D)
    (q : V) (hef : {i | ReflTransGen (s.Edge level) ep i}.encard ≤ ef) (i : ℕ) :
    i ∈ (s.searchLayer dist q [ep] ef level).map DistIdx.idx ↔
      ReflTransGen (s.Edge level) ep i := by
  obtain ⟨-, honce, hall⟩ := searchLayer_full hlinked hep dist q ef level
  set w := s.searchLayer dist q [ep] ef level with hw
  have hsub : ∀ i ∈ w.map DistIdx.idx, ReflTransGen (s.Edge level) ep i := by
    intro i hi
    obtain ⟨c, hc, rfl⟩ := List.mem_map.mp hi
    exact (reaches_of_mem_searchLayer hep hc).1
  refine ⟨hsub i, ?_⟩
  intro hreach
  by_cases hroom : w.length < ef
  · exact hall hroom i hreach
  · -- no room is left, so all that there can be is there
    have hcard : ({i | ReflTransGen (s.Edge level) ep i} : Set ℕ).encard ≤
        ((w.map DistIdx.idx).toFinset : Set ℕ).encard := by
      rw [Set.encard_coe_eq_coe_finsetCard, List.toFinset_card_of_nodup honce, List.length_map]
      exact hef.trans (Nat.cast_le.mpr (not_lt.mp hroom))
    have heq := (Finset.finite_toSet (w.map DistIdx.idx).toFinset).eq_of_subset_of_encard_le
      (fun i hi => hsub i (List.mem_toFinset.mp hi)) hcard
    have hin : i ∈ ((w.map DistIdx.idx).toFinset : Set ℕ) := heq ▸ hreach
    exact List.mem_toFinset.mp hin

/-- Search one layer of a graph without dangling links from one of its nodes.  The search reads
nothing out of range and its loop ends by itself, having expanded no node twice.  It returns between
one and `max ef 1` nodes, each once, all of them reached from the entry point and with their
distances, in order, the first of them no worse than the entry point; and all that is reached if the
beam is as wide as that. -/
theorem searchLayer_exact (hlinked : s.Linked) (hep : ep < s.nodes.length) (dist : V → V → D)
    (q : V) (ef level : ℕ) :
    ∃ (expanded : List ℕ) (b : Beam D) (w : List (DistIdx D)),
      s.expansions dist q ef level (s.nodes.length + 1) (s.startBeam dist q [ep]) =
        some (expanded, b) ∧ expanded.Nodup ∧
      b.result = w ∧ s.searchLayer dist q [ep] ef level = w ∧
      s.searchLayer? dist q [ep] ef level = some w ∧
      1 ≤ w.length ∧ w.length ≤ max ef 1 ∧ (w.map DistIdx.idx).Nodup ∧
      (∀ c ∈ w, ReflTransGen (s.Edge level) ep c.idx ∧ s.distance dist q c.idx = some c.dist) ∧
      w.Pairwise (fun c c' => c.dist < c'.dist ∨ c.dist = c'.dist ∧ c.idx < c'.idx) ∧
      (∃ c d, w.head? = some c ∧ s.distance dist q ep = some d ∧ c ≤ ⟨d, ep⟩) ∧
      ({i | ReflTransGen (s.Edge level) ep i}.encard ≤ ef →
        ∀ i, i ∈ w.map DistIdx.idx ↔ ReflTransGen (s.Edge level) ep i) := by
  obtain ⟨d, hd⟩ := s.exists_distance dist q hep
  obtain ⟨expanded, hrun, honce, -⟩ := exists_expansions ef hlinked hep
    (queued_startBeam dist q level hep) (Nat.lt_succ_of_le (remaining_startBeam dist q hep).le)
  have hnear := near_expand hd ef level (s.nodes.length + 1)
  obtain ⟨hsorted, hnodup, -⟩ := searchLayer_full hlinked hep dist q ef level
  refine ⟨expanded, _, _, hrun, honce, rfl, rfl, searchLayer?_eq hlinked hep dist q ef level,
    List.length_pos_of_ne_nil (searchLayer_ne_nil hep), hnear.length_le, hnodup,
    fun c hc => reaches_of_mem_searchLayer hep hc, ?_, ?_,
    mem_searchLayer_iff hlinked hep dist q⟩
  · refine (hsorted.and (List.pairwise_map.mp hnodup)).imp ?_
    rintro c c' ⟨hle, hne⟩
    rcases Prod.Lex.toLex_le_toLex.mp hle with hlt | ⟨heq, hidx⟩
    · exact Or.inl hlt
    · exact Or.inr ⟨heq, hidx.lt_of_ne hne⟩
  · obtain ⟨c, hc, hle⟩ := hnear.head
    exact ⟨c, d, hc, hd, hle⟩

/-- Three nodes in a ring, with a link twice and one from a node to itself, and a fourth that only
links to them: a beam of three finds the ring. -/
theorem searchLayer_exact_ring :
    let s : State ℤ := ⟨[⟨1, 0, [[1, 1]]⟩, ⟨2, 5, [[2, 1]]⟩, ⟨3, 3, [[0]]⟩, ⟨4, 4, [[0]]⟩],
      [false, false, false, false], ∅, some 0, 0, 4, ⟨16, 32, 200⟩⟩
    let dist : ℤ → ℤ → ℤ := fun x y => |x - y|
    s.Linked ∧ 0 < s.nodes.length ∧
      ∃ expanded b, s.expansions dist 4 3 0 5 (s.startBeam dist 4 [0]) = some (expanded, b) ∧
        expanded.Nodup ∧ ∀ i, i ∈ (s.searchLayer dist 4 [0] 3 0).map DistIdx.idx ↔
          ReflTransGen (s.Edge 0) 0 i := by
  intro s dist
  have hlinked : s.Linked := linked_of_forall (by decide)
  have hep : 0 < s.nodes.length := by decide
  have hring : {i | ReflTransGen (s.Edge 0) 0 i}.encard ≤ (3 : ℕ) := by
    have hsub : {i | ReflTransGen (s.Edge 0) 0 i} ⊆ (({0, 1, 2} : Finset ℕ) : Set ℕ) := by
      intro i hi
      have hclosed : ∀ x ∈ ({0, 1, 2} : Finset ℕ), ∀ y ∈ (s.linksAt x 0).getD [],
          y ∈ ({0, 1, 2} : Finset ℕ) := by decide
      exact Worklist.mem_of_reaches _ hclosed (by decide) hi
    exact (Set.encard_le_encard hsub).trans (Set.encard_coe_eq_coe_finsetCard _).le
  obtain ⟨expanded, b, w, hrun, honce, -, rfl, -, -, -, -, -, -, -, hall⟩ :=
    searchLayer_exact hlinked hep dist 4 3 0
  exact ⟨hlinked, hep, expanded, b, hrun, honce, hall hring⟩

end Hnsw

end GrainStore
