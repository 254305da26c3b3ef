import Mathlib
import GrainStore.Vector.Beam

/-!
# How the graph grows

Linking and pruning change the links of one node on one layer (`linksAt_modifyLinks`).  Placing a
node keeps all links within the index (`Wired.place`), whatever number of lists the node has.  While
the index has at most `m0 + 1` nodes no link of the base layer is ever pruned, so the base layer
stays connected if each node has a list for it (`Whole.place`).
-/

namespace GrainStore

open Relation

namespace Hnsw

variable {V D : Type*} {dist : V → V → D} {s s' : State V} {a b i x y n idx level lc : ℕ}

/-! ## One list of links -/

lemma getElem?_modify_ite {α : Type*} (l : List α) (f : α → α) (i j : ℕ) :
    (l.modify i f)[j]? = if j = i then l[j]?.map f else l[j]? := by
  rw [List.getElem?_modify]
  by_cases h : j = i
  · subst h
    simp
  · rw [if_neg h]
    cases l[j]? with
    | none => rfl
    | some v => exact congrArg some (if_neg fun heq => h heq.symm)

lemma linksAt_modifyLinks (s : State V) (a level : ℕ) (f : List ℕ → List ℕ) (x lc : ℕ) :
    (s.modifyLinks a level f).linksAt x lc =
      if x = a ∧ lc = level then (s.linksAt x lc).map f else s.linksAt x lc := by
  rw [State.linksAt, State.modifyLinks, getElem?_modify_ite, State.linksAt]
  by_cases hx : x = a
  · rw [if_pos hx]
    cases s.nodes[x]? with
    | none => simp
    | some node =>
      rw [Option.map_some, Option.bind_some, Option.bind_some, getElem?_modify_ite]
      by_cases hl : lc = level
      · rw [if_pos hl, if_pos ⟨hx, hl⟩]
      · rw [if_neg hl, if_neg fun h => hl h.2]
  · rw [if_neg hx, if_neg fun h => hx h.1]

/-- What is known of a node apart from its links. -/
def State.rows (s : State V) : List (Sid × V) := s.nodes.map fun node => (node.sid, node.vector)

/-- States that differ in their links only. -/
structure SameTable (s s' : State V) : Prop where
  rows : s'.rows = s.rows
  deleted : s'.deleted = s.deleted
  sidToIdx : s'.sidToIdx = s.sidToIdx
  entry : s'.entry = s.entry
  maxLevel : s'.maxLevel = s.maxLevel
  live : s'.live = s.live
  cfg : s'.cfg = s.cfg

lemma SameTable.refl (s : State V) : SameTable s s := ⟨rfl, rfl, rfl, rfl, rfl, rfl, rfl⟩

lemma SameTable.trans {s'' : State V} (h : SameTable s s') (h' : SameTable s' s'') :
    SameTable s s'' :=
  ⟨h'.rows.trans h.rows, h'.deleted.trans h.deleted, h'.sidToIdx.trans h.sidToIdx,
    h'.entry.trans h.entry, h'.maxLevel.trans h.maxLevel, h'.live.trans h.live, h'.cfg.trans h.cfg⟩

lemma SameTable.length (h : SameTable s s') : s'.nodes.length = s.nodes.length := by
  have hlen := congrArg List.length h.rows
  rwa [State.rows, State.rows, List.length_map, List.length_map] at hlen

lemma sameTable_modifyLinks (s : State V) (a level : ℕ) (f : List ℕ → List ℕ) :
    SameTable s (s.modifyLinks a level f) := by
  refine ⟨?_, rfl, rfl, rfl, rfl, rfl, rfl⟩
  rw [State.rows, State.rows, State.modifyLinks]
  refine List.ext_getElem? ?_
  intro i
  rw [List.getElem?_map, List.getElem?_map, getElem?_modify_ite]
  split
  · rw [Option.map_map]
    rfl
  · rfl

/-- Where the change changes nothing, the list stays as it is. -/
lemma modify_eq_self {α : Type*} {l : List α} {f : α → α} (h : ∀ v, l[i]? = some v → f v = v) :
    l.modify i f = l := by
  refine List.ext_getElem? ?_
  intro j
  rw [getElem?_modify_ite]
  by_cases hj : j = i
  · subst hj
    rw [if_pos rfl]
    cases hv : l[j]? with
    | none => rfl
    | some v => exact congrArg some (h v hv)
  · rw [if_neg hj]

lemma modifyLinks_eq_self {f : List ℕ → List ℕ} (h : ∀ l, s.linksAt a level = some l → f l = l) :
    s.modifyLinks a level f = s := by
  rw [State.modifyLinks, modify_eq_self fun node hnode => ?_]
  have hlinks : node.links.modify level f = node.links := modify_eq_self fun l hl => by
    refine h l ?_
    rw [State.linksAt, hnode]
    exact hl
  rw [hlinks]

/-! ## Linking and pruning -/

/-- A link adds one edge at most. -/
lemma edge_link : (s.link a b lc).Edge level x y ↔
    s.Edge level x y ∨ (x = a ∧ level = lc) ∧ y = b ∧ (s.linksAt x level).isSome := by
  rw [State.Edge, State.link, linksAt_modifyLinks, State.Edge]
  by_cases hat : x = a ∧ level = lc
  · rw [if_pos hat]
    cases s.linksAt x level with
    | none => simp
    | some l =>
      rw [Option.map_some, Option.getD_some, Option.getD_some]
      by_cases hb : b ∈ l
      · rw [if_pos hb]
        exact ⟨Or.inl, fun h => h.elim id fun h' => h'.2.1 ▸ hb⟩
      · rw [if_neg hb, List.mem_append, List.mem_singleton]
        exact or_congr_right ⟨fun hy => ⟨hat, hy, rfl⟩, fun h => h.2.1⟩
  · rw [if_neg hat]
    exact ⟨Or.inl, fun h => h.elim id fun h' => absurd h'.1 hat⟩

lemma linksAt_link_of_ne (h : level ≠ lc) :
    (s.link a b lc).linksAt x level = s.linksAt x level := by
  rw [State.link, linksAt_modifyLinks, if_neg fun hat => h hat.2]

variable [LinearOrder D]

/-- The links that pruning keeps: some of them, no more than the layer allows, and all if there are
few. -/
lemma prune_cases (dist : V → V → D) (s : State V) (a lc : ℕ) :
    ∃ f, s.prune dist a lc = s.modifyLinks a lc f ∧ (∀ l, ∀ y ∈ f l, y ∈ l) ∧
      (∀ l, l.length ≤ (if lc = 0 then s.cfg.m0 else s.cfg.m) → f l = l) ∧
      (∀ l, (f l).length ≤ if lc = 0 then s.cfg.m0 else s.cfg.m) ∧
      ∀ l, l.Nodup → (f l).Nodup := by
  unfold State.prune
  cases hnode : s.nodes[a]? with
  | none =>
    refine ⟨fun l => l.take (if lc = 0 then s.cfg.m0 else s.cfg.m),
      (modifyLinks_eq_self fun l hl => ?_).symm, fun l y => List.mem_of_mem_take,
      fun l => List.take_of_length_le, fun l => List.length_take_le _ _,
      fun l hl => hl.sublist (List.take_sublist _ _)⟩
    rw [State.linksAt, hnode] at hl
    cases hl
  | some nd =>
    refine ⟨_, rfl, ?_, fun l hl => if_pos hl, ?_, ?_⟩
    · intro l y hy
      dsimp only at hy
      by_cases hlen : l.length ≤ if lc = 0 then s.cfg.m0 else s.cfg.m
      · rwa [if_pos hlen] at hy
      · rw [if_neg hlen] at hy
        obtain ⟨c, hc, rfl⟩ := List.mem_map.mp hy
        have hscored := (List.mem_insertionSort _).mp (List.mem_of_mem_take hc)
        obtain ⟨n, hn, hmap⟩ := List.mem_filterMap.mp hscored
        obtain ⟨d, -, rfl⟩ := Option.map_eq_some_iff.mp hmap
        exact hn
    · intro l
      dsimp only
      by_cases hlen : l.length ≤ if lc = 0 then s.cfg.m0 else s.cfg.m
      · rwa [if_pos hlen]
      · rw [if_neg hlen, List.length_map]
        exact List.length_take_le _ _
    · intro l hl
      dsimp only
      by_cases hlen : l.length ≤ if lc = 0 then s.cfg.m0 else s.cfg.m
      · rwa [if_pos hlen]
      · rw [if_neg hlen]
        refine List.Nodup.sublist ((List.take_sublist _ _).map _)
          (((List.perm_insertionSort _ _).map _).nodup_iff.mpr (List.pairwise_map.mpr ?_))
        refine List.Pairwise.filterMap _ ?_ hl
        intro n n' hne c hc c' hc'
        obtain ⟨d, -, rfl⟩ := Option.map_eq_some_iff.mp hc
        obtain ⟨d', -, rfl⟩ := Option.map_eq_some_iff.mp hc'
        exact hne

lemma edge_of_prune (h : (s.prune dist a lc).Edge level x y) : s.Edge level x y := by
  obtain ⟨f, hprune, hsub, -⟩ := prune_cases dist s a lc
  rw [hprune, State.Edge, linksAt_modifyLinks] at h
  rw [State.Edge]
  split at h
  · cases hl : s.linksAt x level with
    | none => simp [hl] at h
    | some l =>
      rw [hl] at h
      exact hsub l y h
  · exact h

lemma linksAt_prune_of_ne (h : level ≠ lc) :
    (s.prune dist a lc).linksAt x level = s.linksAt x level := by
  obtain ⟨f, hprune, -, -⟩ := prune_cases dist s a lc
  rw [hprune, linksAt_modifyLinks, if_neg fun hat => h hat.2]

lemma sameTable_prune (dist : V → V → D) (s : State V) (a lc : ℕ) :
    SameTable s (s.prune dist a lc) := by
  obtain ⟨f, hprune, -, -⟩ := prune_cases dist s a lc
  rw [hprune]
  exact sameTable_modifyLinks s a lc f

lemma sameTable_linkBoth (dist : V → V → D) (idx lc : ℕ) (s : State V) (n : ℕ) :
    SameTable s (s.linkBoth dist idx lc n) :=
  ((sameTable_modifyLinks _ _ _ _).trans (sameTable_modifyLinks _ _ _ _)).trans
    (sameTable_prune _ _ _ _)

lemma linksAt_linkBoth_of_ne (h : level ≠ lc) :
    (s.linkBoth dist idx lc n).linksAt x level = s.linksAt x level := by
  rw [State.linkBoth, linksAt_prune_of_ne h, linksAt_link_of_ne h, linksAt_link_of_ne h]

/-- The edges after linking two nodes. -/
lemma edge_of_linkBoth (h : (s.linkBoth dist idx lc n).Edge level x y) :
    s.Edge level x y ∨ level = lc ∧ (x = idx ∧ y = n ∨ x = n ∧ y = idx) := by
  rcases edge_link.mp (edge_of_prune h) with h | ⟨⟨rfl, hl⟩, rfl, -⟩
  · rcases edge_link.mp h with h | ⟨⟨rfl, hl⟩, rfl, -⟩
    · exact Or.inl h
    · exact Or.inr ⟨hl, Or.inl ⟨rfl, rfl⟩⟩
  · exact Or.inr ⟨hl, Or.inr ⟨rfl, rfl⟩⟩

/-! ## Connecting a node on one layer -/

lemma sameTable_foldl (dist : V → V → D) (idx lc : ℕ) (ns : List ℕ) (s : State V) :
    SameTable s (ns.foldl (State.linkBoth dist idx lc) s) := by
  induction ns generalizing s with
  | nil => exact SameTable.refl s
  | cons n ns ih => exact (sameTable_linkBoth dist idx lc s n).trans (ih _)

lemma linksAt_foldl_of_ne (h : level ≠ lc) (ns : List ℕ) (s : State V) :
    (ns.foldl (State.linkBoth dist idx lc) s).linksAt x level = s.linksAt x level := by
  induction ns generalizing s with
  | nil => rfl
  | cons n ns ih => rw [List.foldl_cons, ih, linksAt_linkBoth_of_ne h]

lemma edge_of_foldl {ns : List ℕ}
    (h : (ns.foldl (State.linkBoth dist idx lc) s).Edge level x y) :
    s.Edge level x y ∨ level = lc ∧ ∃ n ∈ ns, x = idx ∧ y = n ∨ x = n ∧ y = idx := by
  induction ns generalizing s with
  | nil => exact Or.inl h
  | cons n ns ih =>
    rcases ih h with h | ⟨hl, n', hn', hxy⟩
    · rcases edge_of_linkBoth h with h | ⟨hl, hxy⟩
      · exact Or.inl h
      · exact Or.inr ⟨hl, n, List.mem_cons_self, hxy⟩
    · exact Or.inr ⟨hl, n', List.mem_cons_of_mem _ hn', hxy⟩

/-- The loop over the layers, above which a new node `idx` is connected: its search for neighbours
is entered at an older node, and the layers still to come lead to older nodes. -/
structure Growing (added : State V) (idx k : ℕ) (p : State V × ℕ) : Prop where
  table : SameTable added p.1
  entry_lt : p.2 < idx
  linked : p.1.Linked
  old : ∀ level < k, ∀ x y, p.1.Edge level x y → y < idx
  base : 0 < k → ∀ x, p.1.linksAt x 0 = added.linksAt x 0

variable {added : State V} {k : ℕ} {p : State V × ℕ} {q : V} {ef : ℕ}

/-- A search finds older nodes. -/
lemma Growing.found_lt (h : Growing added idx (k + 1) p) (hidx : added.nodes.length = idx + 1)
    {c : DistIdx D} (hc : c ∈ p.1.searchLayer dist q [p.2] ef k) : c.idx < idx := by
  have hep : p.2 < p.1.nodes.length := by
    rw [h.table.length, hidx]
    exact h.entry_lt.trans (Nat.lt_succ_self idx)
  exact Worklist.mem_of_reaches {i | i < idx}
    (fun x _ y => h.old k (Nat.lt_succ_self k) x y) h.entry_lt (reaches_of_mem_searchLayer hep hc).1

/-- The neighbours that a new node is linked to. -/
def chosen (dist : V → V → D) (q : V) (p : State V × ℕ) (lc : ℕ) : List ℕ :=
  ((p.1.searchLayer dist q [p.2] p.1.cfg.efConstruction lc).take
    (if lc = 0 then p.1.cfg.m0 else p.1.cfg.m)).map DistIdx.idx

/-- Connecting a node on a layer changes links only. -/
lemma sameTable_connect (dist : V → V → D) (idx : ℕ) (q : V) (p : State V × ℕ) (lc : ℕ) :
    SameTable p.1 (State.connect dist idx q p lc).1 :=
  (sameTable_foldl dist idx lc (chosen dist q p lc) p.1).trans (sameTable_prune _ _ _ _)

lemma sameTable_layers (dist : V → V → D) (idx : ℕ) (q : V) (layers : List ℕ)
    (p : State V × ℕ) : SameTable p.1 (layers.foldl (State.connect dist idx q) p).1 := by
  induction layers generalizing p with
  | nil => exact SameTable.refl p.1
  | cons lc layers ih => exact (sameTable_connect dist idx q p lc).trans (ih _)

lemma Growing.chosen_lt (dist : V → V → D) (q : V) (h : Growing added idx (k + 1) p)
    (hidx : added.nodes.length = idx + 1) :
    ∀ n ∈ chosen dist q p k, n < idx := by
  intro n hn
  obtain ⟨c, hc, rfl⟩ := List.mem_map.mp hn
  exact h.found_lt hidx (List.mem_of_mem_take hc)

/-- One layer more is connected. -/
lemma Growing.connect (dist : V → V → D) (q : V) (h : Growing added idx (k + 1) p)
    (hidx : added.nodes.length = idx + 1) :
    Growing added idx k (State.connect dist idx q p k) := by
  have htable : SameTable p.1 (State.connect dist idx q p k).1 :=
    sameTable_connect dist idx q p k
  have hedge : ∀ level x y, (State.connect dist idx q p k).1.Edge level x y →
      p.1.Edge level x y ∨
        level = k ∧ ∃ n ∈ chosen dist q p k, x = idx ∧ y = n ∨ x = n ∧ y = idx :=
    fun level x y hxy => edge_of_foldl (edge_of_prune hxy)
  refine ⟨h.table.trans htable, ?_, ?_, ?_,
    ?_⟩
  · change ((p.1.searchLayer dist q [p.2] p.1.cfg.efConstruction k).head?.map
      DistIdx.idx).getD p.2 < idx
    cases hw : (p.1.searchLayer dist q [p.2] p.1.cfg.efConstruction k).head? with
    | none => exact h.entry_lt
    | some c => exact h.found_lt hidx (List.mem_of_head? hw)
  · intro level x y hxy
    rw [htable.length]
    rcases hedge level x y hxy with hxy | ⟨-, n, hn, ⟨rfl, rfl⟩ | ⟨rfl, rfl⟩⟩
    · exact h.linked level x y hxy
    · rw [h.table.length, hidx]
      exact (h.chosen_lt dist q hidx y hn).trans (Nat.lt_succ_self x)
    · rw [h.table.length, hidx]
      exact Nat.lt_succ_self y
  · intro level hlt x y hxy
    rcases hedge level x y hxy with hxy | ⟨rfl, -⟩
    · exact h.old level (hlt.trans (Nat.lt_succ_self k)) x y hxy
    · exact absurd hlt (lt_irrefl _)
  · intro hpos x
    rw [← h.base (Nat.succ_pos k) x]
    exact (linksAt_prune_of_ne hpos.ne).trans (linksAt_foldl_of_ne hpos.ne _ _)

/-- The base layer is connected last. -/
lemma Growing.foldl (dist : V → V → D) (q : V) (h : Growing added idx (k + 1) p)
    (hidx : added.nodes.length = idx + 1) :
    ∃ p₀, Growing added idx 1 p₀ ∧
      (List.range (k + 1)).reverse.foldl (State.connect dist idx q) p =
        State.connect dist idx q p₀ 0 := by
  induction k generalizing p with
  | zero => exact ⟨p, h, rfl⟩
  | succ k ih =>
    obtain ⟨p₀, hp₀, hfold⟩ := ih (h.connect dist q hidx)
    refine ⟨p₀, hp₀, ?_⟩
    rw [List.range_succ, List.reverse_append, List.reverse_singleton, List.singleton_append,
      List.foldl_cons, hfold]

/-! ## An unpruned base layer -/

omit [LinearOrder D]

/-- Every node is on the base layer, and linked there to other nodes, once to each. -/
def State.Base (s : State V) : Prop :=
  ∀ i < s.nodes.length, ∃ l, s.linksAt i 0 = some l ∧ l.Nodup ∧ i ∉ l ∧ ∀ y ∈ l, y < s.nodes.length

/-- A node has fewer links than there are nodes. -/
lemma State.Base.length_lt (h : s.Base) (hi : i < s.nodes.length) {l : List ℕ}
    (hl : s.linksAt i 0 = some l) : l.length < s.nodes.length := by
  obtain ⟨l', hl', hnodup, hnot, hlt⟩ := h i hi
  obtain rfl := Option.some.inj (hl.symm.trans hl')
  have hsub : i :: l ⊆ List.range s.nodes.length := by
    intro y hy
    rcases List.mem_cons.mp hy with rfl | hy
    · exact List.mem_range.mpr hi
    · exact List.mem_range.mpr (hlt y hy)
  have hle := (List.subperm_of_subset (List.nodup_cons.mpr ⟨hnot, hnodup⟩) hsub).length_le
  rwa [List.length_range] at hle

lemma State.lt_of_linksAt {l : List ℕ} (h : s.linksAt i level = some l) : i < s.nodes.length := by
  obtain ⟨node, hnode, -⟩ := Option.bind_eq_some_iff.mp h
  exact (List.getElem?_eq_some_iff.mp hnode).1

/-- A link to another node. -/
lemma State.Base.link (h : s.Base) (hb : b < s.nodes.length) (hne : b ≠ a) :
    (s.link a b 0).Base := by
  have hlen : (s.link a b 0).nodes.length = s.nodes.length := (sameTable_modifyLinks s a 0 _).length
  intro i hi
  rw [hlen] at hi ⊢
  obtain ⟨l, hl, hnodup, hnot, hlt⟩ := h i hi
  rw [State.link, linksAt_modifyLinks, hl]
  by_cases hat : i = a ∧ 0 = 0
  · rw [if_pos hat, Option.map_some]
    by_cases hmem : b ∈ l
    · rw [if_pos hmem]
      exact ⟨l, rfl, hnodup, hnot, hlt⟩
    · rw [if_neg hmem]
      refine ⟨l ++ [b], rfl, List.concat_eq_append ▸ hnodup.concat hmem, ?_,
        ?_⟩
      · intro hin
        rcases List.mem_append.mp hin with hin | hin
        · exact hnot hin
        · exact hne ((List.mem_singleton.mp hin).symm.trans hat.1)
      · intro y hy
        rcases List.mem_append.mp hy with hy | hy
        · exact hlt y hy
        · exact List.mem_singleton.mp hy ▸ hb
  · rw [if_neg hat]
    exact ⟨l, rfl, hnodup, hnot, hlt⟩

variable [LinearOrder D]

/-- A base layer of few nodes is not pruned. -/
lemma State.Base.prune (h : s.Base) (hsize : s.nodes.length ≤ s.cfg.m0 + 1) :
    s.prune dist a 0 = s := by
  obtain ⟨f, hprune, -, hkeep, -⟩ := prune_cases dist s a 0
  rw [hprune]
  refine modifyLinks_eq_self fun l hl => hkeep l ?_
  have hlt := h.length_lt (State.lt_of_linksAt hl) hl
  rw [if_pos rfl]
  omega

/-- Two nodes are linked in both directions, and nothing else changes. -/
lemma State.Base.linkBoth (dist : V → V → D) (h : s.Base) (hsize : s.nodes.length ≤ s.cfg.m0 + 1)
    (hidx : idx < s.nodes.length) (hn : n < s.nodes.length) (hne : n ≠ idx) :
    (s.linkBoth dist idx 0 n).Base ∧ ∀ x y, (s.linkBoth dist idx 0 n).Edge 0 x y ↔
      s.Edge 0 x y ∨ (x = idx ∧ y = n ∨ x = n ∧ y = idx) := by
  have hlen : (s.link idx n 0).nodes.length = s.nodes.length :=
    (sameTable_modifyLinks s idx 0 _).length
  have hlen' : ((s.link idx n 0).link n idx 0).nodes.length = s.nodes.length :=
    (sameTable_modifyLinks _ n 0 _).length.trans hlen
  have hfirst : (s.link idx n 0).Base := h.link hn hne
  have hsecond : ((s.link idx n 0).link n idx 0).Base := hfirst.link (hlen.symm ▸ hidx) hne.symm
  have hsome : ∀ {s : State V}, s.Base → ∀ i < s.nodes.length, (s.linksAt i 0).isSome :=
    fun hbase i hi => by
      obtain ⟨l, hl, -⟩ := hbase i hi
      rw [hl]
      rfl
  rw [State.linkBoth, hsecond.prune (by rw [hlen']; exact hsize)]
  refine ⟨hsecond, ?_⟩
  intro x y
  rw [edge_link, edge_link]
  constructor
  · rintro ((hxy | ⟨⟨rfl, -⟩, rfl, -⟩) | ⟨⟨rfl, -⟩, rfl, -⟩)
    · exact Or.inl hxy
    · exact Or.inr (Or.inl ⟨rfl, rfl⟩)
    · exact Or.inr (Or.inr ⟨rfl, rfl⟩)
  · rintro (hxy | ⟨rfl, rfl⟩ | ⟨rfl, rfl⟩)
    · exact Or.inl (Or.inl hxy)
    · exact Or.inl (Or.inr ⟨⟨rfl, rfl⟩, rfl, hsome h x hidx⟩)
    · exact Or.inr ⟨⟨rfl, rfl⟩, rfl, hsome hfirst x (hlen.symm ▸ hn)⟩

lemma State.Base.foldl (dist : V → V → D) {ns : List ℕ} (h : s.Base)
    (hsize : s.nodes.length ≤ s.cfg.m0 + 1)
    (hidx : idx < s.nodes.length) (hns : ∀ n ∈ ns, n < idx) :
    (ns.foldl (State.linkBoth dist idx 0) s).Base ∧
      ∀ x y, (ns.foldl (State.linkBoth dist idx 0) s).Edge 0 x y ↔
        s.Edge 0 x y ∨ ∃ n ∈ ns, x = idx ∧ y = n ∨ x = n ∧ y = idx := by
  induction ns generalizing s with
  | nil => exact ⟨h, fun x y => by simp⟩
  | cons n ns ih =>
    have htable := sameTable_linkBoth dist idx 0 s n
    have hn := hns n List.mem_cons_self
    obtain ⟨hbase, hedge⟩ := h.linkBoth dist hsize hidx (hn.trans hidx) hn.ne
    obtain ⟨hbase', hedge'⟩ := ih hbase (by rw [htable.length, htable.cfg]; exact hsize)
      (by rw [htable.length]; exact hidx) fun n' hn' => hns n' (List.mem_cons_of_mem _ hn')
    refine ⟨hbase', ?_⟩
    intro x y
    rw [List.foldl_cons, hedge', hedge, List.exists_mem_cons_iff, or_assoc]

/-! ## Inserts and removals -/

/-- All links lead to nodes, and so does the entry point, if there is a node. -/
structure State.Wired (s : State V) : Prop where
  linked : s.Linked
  entry_lt : ∀ e, s.entry = some e → e < s.nodes.length
  nodes_of_none : s.entry = none → s.nodes = []

/-- The base layer is connected, and none of its links was pruned. -/
structure State.Whole (s : State V) : Prop where
  base : s.Base
  connected : Worklist.Connected (s.Edge 0) {i | i < s.nodes.length}

/-- Retiring a node leaves the graph as it is. -/
lemma retire_graph (s : State V) (sid : Sid) :
    (s.retire sid).nodes = s.nodes ∧ (s.retire sid).entry = s.entry ∧
      (s.retire sid).maxLevel = s.maxLevel ∧ (s.retire sid).cfg = s.cfg := by
  unfold State.retire
  split
  · exact ⟨rfl, rfl, rfl, rfl⟩
  · split
    · exact ⟨rfl, rfl, rfl, rfl⟩
    · exact ⟨rfl, rfl, rfl, rfl⟩

lemma linksAt_of_nodes (h : s'.nodes = s.nodes) : s'.linksAt = s.linksAt := by
  funext x level
  rw [State.linksAt, State.linksAt, h]

lemma edge_of_nodes (h : s'.nodes = s.nodes) : s'.Edge = s.Edge := by
  funext level x y
  rw [State.Edge, State.Edge, linksAt_of_nodes h]

lemma State.Wired.of_nodes (h : s.Wired) (hnodes : s'.nodes = s.nodes)
    (hentry : s'.entry = s.entry) : s'.Wired := by
  refine ⟨?_, ?_, ?_⟩
  · intro level x y hxy
    rw [edge_of_nodes hnodes] at hxy
    rw [hnodes]
    exact h.linked level x y hxy
  · intro e he
    rw [hnodes]
    exact h.entry_lt e (hentry ▸ he)
  · intro hnone
    rw [hnodes]
    exact h.nodes_of_none (hentry ▸ hnone)

lemma State.Whole.of_nodes (h : s.Whole) (hnodes : s'.nodes = s.nodes) : s'.Whole := by
  refine ⟨?_, ?_⟩
  · intro i hi
    rw [hnodes] at hi ⊢
    rw [linksAt_of_nodes hnodes]
    exact h.base i hi
  · rw [edge_of_nodes hnodes, hnodes]
    exact h.connected

/-- The links after adding a node. -/
lemma linksAt_addNode (s : State V) (sid : Sid) (v : V) (lists x lc : ℕ) :
    (s.addNode sid v lists).linksAt x lc =
      if x = s.nodes.length then (if lc < lists then some [] else none) else s.linksAt x lc := by
  rw [State.linksAt, State.addNode, List.getElem?_append, State.linksAt]
  by_cases hlt : x < s.nodes.length
  · rw [if_pos hlt, if_neg hlt.ne]
  · rw [if_neg hlt]
    by_cases hx : x = s.nodes.length
    · rw [if_pos hx, hx, Nat.sub_self]
      change (List.replicate lists ([] : List ℕ))[lc]? = _
      rw [List.getElem?_replicate]
    · have hout : s.nodes[x]? = none := List.getElem?_eq_none (not_lt.mp hlt)
      have hafter : 1 ≤ x - s.nodes.length := by omega
      rw [if_neg hx, hout, List.getElem?_eq_none hafter]

lemma edge_addNode (s : State V) (sid : Sid) (v : V) (lists : ℕ) :
    (s.addNode sid v lists).Edge lc x y ↔ s.Edge lc x y := by
  rw [State.Edge, State.Edge, linksAt_addNode]
  by_cases hx : x = s.nodes.length
  · have hnone : s.linksAt x lc = none := by
      rw [State.linksAt, hx, List.getElem?_eq_none le_rfl]
      rfl
    rw [if_pos hx, hnone]
    split <;> simp
  · rw [if_neg hx]

lemma length_addNode_retire (s : State V) (sid : Sid) (v : V) (lists : ℕ) :
    ((s.retire sid).addNode sid v lists).nodes.length = s.nodes.length + 1 := by
  rw [State.addNode, List.length_append, (retire_graph s sid).1]
  rfl

/-- A descent stays among nodes that no link leaves. -/
lemma descend_lt {n : ℕ} (hclosed : ∀ level x y, s.Edge level x y → y < n) (hn : n ≤ s.nodes.length)
    {ep : ℕ} (hep : ep < n) (layers : List ℕ) : s.descend dist q ep layers < n := by
  induction layers generalizing ep with
  | nil => exact hep
  | cons lc layers ih =>
    refine ih ?_
    change ((s.searchLayer dist q [ep] 1 lc).head?.map DistIdx.idx).getD ep < n
    cases hw : (s.searchLayer dist q [ep] 1 lc).head? with
    | none => exact hep
    | some c =>
      exact Worklist.mem_of_reaches {i | i < n} (fun x _ y => hclosed lc x y) hep
        (reaches_of_mem_searchLayer (hep.trans_le hn) (List.mem_of_head? hw)).1

/-- The state in which the loop over the layers is entered. -/
lemma State.Wired.growing (dist : V → V → D) (h : s.Wired) {e : ℕ} (he : s.entry = some e)
    (sid : Sid) (v : V) (lists : ℕ) {k : ℕ} (layers : List ℕ) :
    Growing ((s.retire sid).addNode sid v lists) s.nodes.length k
      ((s.retire sid).addNode sid v lists,
        ((s.retire sid).addNode sid v lists).descend dist v e layers) := by
  obtain ⟨hnodes, hentry, -, -⟩ := retire_graph s sid
  have hretired : (s.retire sid).Wired := h.of_nodes hnodes hentry
  have hlen := length_addNode_retire s sid v lists
  have hold : ∀ lc x y, ((s.retire sid).addNode sid v lists).Edge lc x y → y < s.nodes.length :=
    fun lc x y hxy => by
      have hlt := hretired.linked lc x y ((edge_addNode _ sid v lists).mp hxy)
      rwa [hnodes] at hlt
  refine ⟨SameTable.refl _, descend_lt hold (by omega) (h.entry_lt e he) _, ?_,
    fun lc _ => hold lc, fun _ _ => rfl⟩
  intro lc x y hxy
  rw [hlen]
  exact (hold lc x y hxy).trans (Nat.lt_succ_self _)

/-- What placing a node does to a graph that has nodes. -/
lemma place_of_some (dist : V → V → D) (he : s.entry = some e) (sid : Sid) (v : V)
    (level lists : ℕ) :
    let added := (s.retire sid).addNode sid v lists
    let done := ((List.range (min level s.maxLevel + 1)).reverse.foldl
      (State.connect dist s.nodes.length v) (added, added.descend dist v e
        (List.range' (level + 1) (s.maxLevel - level)).reverse)).1
    s.place dist sid v level lists =
      if s.maxLevel < level then
        { done with entry := some s.nodes.length, maxLevel := level }
      else done := by
  intro added done
  obtain ⟨hnodes, hentry, hmax, -⟩ := retire_graph s sid
  have hadded_entry : added.entry = some e := hentry.trans he
  have hadded_max : added.maxLevel = s.maxLevel := hmax
  unfold State.place
  dsimp only
  rw [show ((s.retire sid).addNode sid v lists).entry = some e from hadded_entry, hnodes]
  dsimp only
  rw [show ((s.retire sid).addNode sid v lists).maxLevel = s.maxLevel from hadded_max]

/-- What placing a node in a graph with nodes does before it may move the entry point. -/
lemma exists_growing (dist : V → V → D) (h : s.Wired) {e : ℕ} (he : s.entry = some e) (sid : Sid)
    (v : V) (level lists : ℕ) :
    ∃ p₀, Growing ((s.retire sid).addNode sid v lists) s.nodes.length 1 p₀ ∧
      ∃ entry maxLevel, s.place dist sid v level lists =
          { (State.connect dist s.nodes.length v p₀ 0).1 with entry := some entry, maxLevel } ∧
        entry < s.nodes.length + 1 := by
  have hlen := length_addNode_retire s sid v lists
  obtain ⟨p₀, hp₀, hfold⟩ := Growing.foldl dist v (k := min level s.maxLevel)
    (h.growing dist he sid v lists (List.range' (level + 1) (s.maxLevel - level)).reverse) hlen
  have hplace := place_of_some dist he sid v level lists
  dsimp only at hplace
  rw [hfold] at hplace
  refine ⟨p₀, hp₀, ?_⟩
  rw [hplace]
  split
  · exact ⟨_, _, rfl, Nat.lt_succ_self _⟩
  · have hentry : (State.connect dist s.nodes.length v p₀ 0).1.entry = some e :=
      (hp₀.connect dist v hlen).table.entry.trans ((retire_graph s sid).2.1.trans he)
    refine ⟨e, (State.connect dist s.nodes.length v p₀ 0).1.maxLevel, ?_,
      (h.entry_lt e he).trans (Nat.lt_succ_self _)⟩
    rw [← hentry]

/-- The first node becomes the entry point. -/
lemma place_of_none (he : s.entry = none) (sid : Sid) (v : V) (level lists : ℕ) :
    s.place dist sid v level lists =
      { (s.retire sid).addNode sid v lists with
        entry := some (s.retire sid).nodes.length, maxLevel := level } := by
  obtain ⟨-, hentry, -, -⟩ := retire_graph s sid
  have hadded : ((s.retire sid).addNode sid v lists).entry = none := hentry.trans he
  unfold State.place
  dsimp only
  rw [hadded]

/-- What placing a node does to the table of nodes. -/
lemma place_table (dist : V → V → D) (h : s.Wired) (sid : Sid) (v : V) (level lists : ℕ) :
    (s.place dist sid v level lists).rows = s.rows ++ [(sid, v)] ∧
      (s.place dist sid v level lists).deleted = (s.retire sid).deleted ++ [false] ∧
      (s.place dist sid v level lists).sidToIdx =
        (s.retire sid).sidToIdx.insert sid s.nodes.length ∧
      (s.place dist sid v level lists).cfg = s.cfg := by
  obtain ⟨hnodes, -, -, hcfg⟩ := retire_graph s sid
  have hrows : ((s.retire sid).addNode sid v lists).rows = s.rows ++ [(sid, v)] := by
    rw [State.rows, State.addNode, hnodes, List.map_append]
    rfl
  have hsid : ((s.retire sid).addNode sid v lists).sidToIdx =
      (s.retire sid).sidToIdx.insert sid s.nodes.length := by
    rw [State.addNode, hnodes]
  cases he : s.entry with
  | none =>
    rw [place_of_none he]
    exact ⟨hrows, rfl, hsid, hcfg⟩
  | some e =>
    obtain ⟨p₀, hp₀, entry, maxLevel, hplace, -⟩ := exists_growing dist h he sid v level lists
    have htable := (hp₀.connect dist v (length_addNode_retire s sid v lists)).table
    rw [hplace]
    exact ⟨htable.rows.trans hrows, htable.deleted, htable.sidToIdx.trans hsid,
      htable.cfg.trans hcfg⟩

lemma length_place (h : s.Wired) (sid : Sid) (v : V) (level lists : ℕ) :
    (s.place dist sid v level lists).nodes.length = s.nodes.length + 1 := by
  have hlen := congrArg List.length (place_table dist h sid v level lists).1
  rwa [List.length_append, State.rows, State.rows, List.length_map, List.length_map] at hlen

/-- Placing a node keeps all links within the index. -/
theorem State.Wired.place (h : s.Wired) (sid : Sid) (v : V) (level lists : ℕ) :
    (s.place dist sid v level lists).Wired := by
  obtain ⟨hnodes, -, -, -⟩ := retire_graph s sid
  have hlen := length_addNode_retire s sid v lists
  cases he : s.entry with
  | none =>
    rw [place_of_none he]
    refine ⟨?_, ?_, nofun⟩
    · intro lc x y hxy
      have hold : (s.retire sid).Edge lc x y := (edge_addNode _ sid v lists).mp hxy
      rw [edge_of_nodes hnodes] at hold
      exact (h.linked lc x y hold).trans_le (by rw [hlen]; exact Nat.le_succ _)
    · intro e hsome
      obtain rfl := Option.some.inj hsome
      rw [hnodes]
      exact (Nat.lt_succ_self _).trans_eq hlen.symm
  | some e =>
    obtain ⟨p₀, hp₀, entry, maxLevel, hplace, hentry⟩ :=
      exists_growing dist h he sid v level lists
    have hdone := hp₀.connect dist v hlen
    rw [hplace]
    refine ⟨hdone.linked, ?_, nofun⟩
    intro e hsome
    obtain rfl := Option.some.inj hsome
    exact hentry.trans_eq (hdone.table.length.trans hlen).symm

/-- Connecting a node on the base layer while there are few nodes. -/
lemma Growing.whole (dist : V → V → D) (q : V) (h : Growing added idx 1 p)
    (hidx : added.nodes.length = idx + 1)
    (hbase : added.Base) (hconnected : Worklist.Connected (added.Edge 0) {i | i < idx})
    (hsize : added.nodes.length ≤ added.cfg.m0 + 1) : (State.connect dist idx q p 0).1.Whole := by
  have hlen : p.1.nodes.length = idx + 1 := h.table.length.trans hidx
  have hcfg : p.1.cfg = added.cfg := h.table.cfg
  have hsize' : p.1.nodes.length ≤ p.1.cfg.m0 + 1 := by
    rw [h.table.length, hcfg]
    exact hsize
  have hlt : idx < p.1.nodes.length := hlen ▸ Nat.lt_succ_self idx
  have hbase' : p.1.Base := by
    intro i hi
    rw [h.table.length] at hi ⊢
    rw [h.base Nat.one_pos]
    exact hbase i hi
  obtain ⟨hfold, hedge⟩ := hbase'.foldl dist hsize' hlt
    (h.chosen_lt dist q hidx)
  have htable := sameTable_foldl dist idx 0 (chosen dist q p 0) p.1
  have hconnect : (State.connect dist idx q p 0).1 =
      (chosen dist q p 0).foldl (State.linkBoth dist idx 0) p.1 :=
    hfold.prune (by rw [htable.length, htable.cfg]; exact hsize')
  -- some older node is chosen
  obtain ⟨n, hn⟩ : ∃ n, n ∈ chosen dist q p 0 := by
    refine List.exists_mem_of_ne_nil _ ?_
    intro hnil
    rw [chosen, if_pos rfl, List.map_eq_nil_iff, List.take_eq_nil_iff, hcfg] at hnil
    rcases hnil with hzero | hnil
    · have hpos := h.entry_lt
      omega
    · exact searchLayer_ne_nil (h.entry_lt.trans hlt) hnil
  have hold : Worklist.Connected (p.1.Edge 0) {i | i < idx} := by
    refine hconnected.mono ?_
    intro x y hxy
    rwa [State.Edge, h.base Nat.one_pos]
  have hall : {i | i < ((chosen dist q p 0).foldl (State.linkBoth dist idx 0) p.1).nodes.length} =
      Insert.insert idx {i | i < idx} := by
    rw [htable.length, hlen]
    exact Set.ext fun i => Nat.lt_succ_iff_lt_or_eq.trans or_comm
  rw [hconnect]
  refine ⟨hfold, ?_⟩
  rw [hall]
  refine (hold.mono fun x y hxy => (hedge x y).mpr (Or.inl hxy)).insert
    (h.chosen_lt dist q hidx n hn) ?_ ?_
  · exact (hedge _ _).mpr (Or.inr ⟨n, hn, Or.inl ⟨rfl, rfl⟩⟩)
  · exact (hedge _ _).mpr (Or.inr ⟨n, hn, Or.inr ⟨rfl, rfl⟩⟩)

/-- While there are few nodes, placing one that has a list for the base layer keeps it whole. -/
theorem State.Whole.place (hwhole : s.Whole) (h : s.Wired) (hsize : s.nodes.length ≤ s.cfg.m0)
    (sid : Sid) (v : V) (level : ℕ) {lists : ℕ} (hlists : 0 < lists) :
    (s.place dist sid v level lists).Whole := by
  obtain ⟨hnodes, -, -, hcfg⟩ := retire_graph s sid
  have hretired : (s.retire sid).Whole := hwhole.of_nodes hnodes
  set added := (s.retire sid).addNode sid v lists with hadded
  have hlen : added.nodes.length = s.nodes.length + 1 := length_addNode_retire s sid v lists
  have hbase : added.Base := by
    intro i hi
    rw [hlen] at hi ⊢
    rw [hadded, linksAt_addNode, hnodes]
    by_cases hlast : i = s.nodes.length
    · rw [if_pos hlast, if_pos hlists]
      exact ⟨[], rfl, List.nodup_nil, List.not_mem_nil, nofun⟩
    · rw [if_neg hlast]
      obtain ⟨l, hl, hnodup, hnot, hlt⟩ := hretired.base i (by rw [hnodes]; omega)
      rw [hnodes] at hlt
      exact ⟨l, hl, hnodup, hnot, fun y hy => (hlt y hy).trans (Nat.lt_succ_self _)⟩
  cases he : s.entry with
  | none =>
    have hempty := h.nodes_of_none he
    have hone : {i | i < added.nodes.length} = ({0} : Set ℕ) := by
      rw [hlen, hempty]
      exact Set.ext fun i => Nat.lt_one_iff
    refine State.Whole.of_nodes (s := added) ⟨hbase, ?_⟩ (by rw [place_of_none he])
    rw [hone]
    exact Worklist.connected_singleton
  | some e =>
    obtain ⟨p₀, hp₀, entry, maxLevel, hplace, -⟩ := exists_growing dist h he sid v level lists
    have hconnected : Worklist.Connected (added.Edge 0) {i | i < s.nodes.length} := by
      refine hwhole.connected.mono fun x y hxy => (edge_addNode _ sid v lists).mpr ?_
      rwa [edge_of_nodes hnodes]
    have hsize' : added.nodes.length ≤ added.cfg.m0 + 1 := by
      rw [hlen]
      exact Nat.succ_le_succ (hsize.trans_eq (congrArg HnswConfig.m0 hcfg.symm))
    refine State.Whole.of_nodes
      (hp₀.whole dist v hlen hbase hconnected hsize') (by rw [hplace])

/-- Removing changes no node. -/
lemma remove_graph (s : State V) (sid : Sid) :
    (s.remove sid).nodes = s.nodes ∧ (s.remove sid).entry = s.entry ∧
      (s.remove sid).cfg = s.cfg := by
  obtain ⟨hnodes, hentry, -, hcfg⟩ := retire_graph s sid
  unfold State.remove
  split
  · exact ⟨rfl, rfl, rfl⟩
  · exact ⟨hnodes, hentry, hcfg⟩

end Hnsw

end GrainStore
