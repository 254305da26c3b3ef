import Mathlib
import GrainStore.Vector.Recall

/-!
# The graph is well formed

Links join distinct nodes of one layer, each list names a node once and keeps to its bound, and the
entry point is a node of the top layer (`State.WellFormed`).  An insert keeps this, if there is room
for a list on each layer of the new node: a beam search that is entered at a node of a layer stays
on the layer (`on_of_mem_searchLayer`), and the list of the new node, which alone may grow too long
while it is linked, is pruned last (`Woven.connect`).
-/

namespace GrainStore

open Relation

namespace Hnsw

variable {V D : Type*} {dist : V → V → D} {s s' : State V} {a b i x y n idx level lc e ep : ℕ}

/-- A node is on a layer. -/
def State.On (s : State V) (level x : ℕ) : Prop := (s.linksAt x level).isSome

/-- Each list of links names distinct nodes of its layer, without its own. -/
structure State.Proper (s : State V) : Prop where
  nodup : ∀ level x l, s.linksAt x level = some l → l.Nodup
  joins : ∀ level x y, s.Edge level x y →
    x ≠ y ∧ y < s.nodes.length ∧ s.On level x ∧ s.On level y

/-- The lists of some nodes on some layers keep to their bounds. -/
def State.Within (s : State V) (P : ℕ → ℕ → Prop) : Prop :=
  ∀ level x l, P level x → s.linksAt x level = some l →
    l.length ≤ if level = 0 then s.cfg.m0 else s.cfg.m

/-- What holds of the graph after any updates. -/
structure State.WellFormed (s : State V) : Prop extends s.Proper where
  degree : ∀ level x l, s.linksAt x level = some l →
    l.length ≤ if level = 0 then s.cfg.m0 else s.cfg.m
  entry_none : s.entry = none ↔ s.nodes = []
  entry_on : ∀ e, s.entry = some e → s.On s.maxLevel e
  on_base : ∀ x < s.nodes.length, s.On 0 x
  level_le : ∀ level x, s.On level x → level ≤ s.maxLevel

lemma State.On.lt (h : s.On level x) : x < s.nodes.length := by
  obtain ⟨l, hl⟩ := Option.isSome_iff_exists.mp h
  exact State.lt_of_linksAt hl

/-- A node is on all layers below one of its layers. -/
lemma State.On.mono (h : s.On level x) (hle : lc ≤ level) : s.On lc x := by
  obtain ⟨l, hl⟩ := Option.isSome_iff_exists.mp h
  obtain ⟨node, hnode, hlinks⟩ := Option.bind_eq_some_iff.mp hl
  have hlt : lc < node.links.length := hle.trans_lt (List.getElem?_eq_some_iff.mp hlinks).1
  rw [State.On, State.linksAt, hnode, Option.bind_some, List.getElem?_eq_getElem hlt]
  rfl

/-- A well-formed graph with one more node, on the layers up to its level, is well formed if its
entry is on the top layer. -/
lemma State.WellFormed.grow (h : s.WellFormed) (hproper : s'.Proper)
    (hwithin : s'.Within fun _ _ => True) (hlen : s'.nodes.length = s.nodes.length + 1)
    (hon : ∀ lc x, s'.On lc x ↔ s.On lc x ∨ x = s.nodes.length ∧ lc ≤ level)
    (hentry : ∃ e, s'.entry = some e ∧ s'.On s'.maxLevel e)
    (hmax : ∀ lc x, s.On lc x → lc ≤ s'.maxLevel) (hlevel : level ≤ s'.maxLevel) :
    s'.WellFormed := by
  obtain ⟨e, he, htop⟩ := hentry
  refine ⟨hproper, fun lc x l hl => hwithin lc x l trivial hl, ⟨fun hnone => ?_, fun hnil => ?_⟩,
    fun e' he' => ?_, fun x hx => ?_, fun lc x hx => ?_⟩
  · rw [he] at hnone
    cases hnone
  · rw [hnil] at hlen
    simp at hlen
  · obtain rfl := Option.some.inj (he.symm.trans he')
    exact htop
  · rw [hlen] at hx
    rcases Nat.lt_succ_iff_lt_or_eq.mp hx with hold | rfl
    · exact (hon 0 x).mpr (Or.inl (h.on_base x hold))
    · exact (hon 0 _).mpr (Or.inr ⟨rfl, Nat.zero_le _⟩)
  · rcases (hon lc x).mp hx with hold | ⟨-, hle⟩
    · exact hmax lc x hold
    · exact hle.trans hlevel

/-! ## Linking and pruning -/

/-- Changing links moves no node to another layer. -/
lemma on_modifyLinks (s : State V) (a lc : ℕ) (f : List ℕ → List ℕ) :
    (s.modifyLinks a lc f).On level x ↔ s.On level x := by
  rw [State.On, linksAt_modifyLinks, State.On]
  split
  · rw [Option.isSome_map]
  · exact Iff.rfl

lemma State.Proper.link (h : s.Proper) (hne : a ≠ b) (hb : s.On lc b) : (s.link a b lc).Proper := by
  have hon : ∀ {level x}, (s.link a b lc).On level x ↔ s.On level x := on_modifyLinks s a lc _
  have hlen : (s.link a b lc).nodes.length = s.nodes.length :=
    (sameTable_modifyLinks s a lc _).length
  refine ⟨?_, ?_⟩
  · intro level x l hl
    rw [State.link, linksAt_modifyLinks] at hl
    by_cases hat : x = a ∧ level = lc
    · rw [if_pos hat] at hl
      obtain ⟨l', hl', rfl⟩ := Option.map_eq_some_iff.mp hl
      have hnodup := h.nodup level x l' hl'
      by_cases hmem : b ∈ l'
      · rwa [if_pos hmem]
      · rw [if_neg hmem]
        exact List.concat_eq_append ▸ hnodup.concat hmem
    · rw [if_neg hat] at hl
      exact h.nodup level x l hl
  · intro level x y hxy
    rw [hlen, hon, hon]
    rcases edge_link.mp hxy with hxy | ⟨⟨rfl, rfl⟩, rfl, hx⟩
    · exact h.joins level x y hxy
    · exact ⟨hne, hb.lt, hx, hb⟩

variable [LinearOrder D]

lemma on_prune (dist : V → V → D) (s : State V) (a lc : ℕ) :
    (s.prune dist a lc).On level x ↔ s.On level x := by
  obtain ⟨f, hprune, -⟩ := prune_cases dist s a lc
  rw [hprune]
  exact on_modifyLinks s a lc f

lemma State.Proper.prune (dist : V → V → D) (a lc : ℕ) (h : s.Proper) :
    (s.prune dist a lc).Proper := by
  refine ⟨?_, ?_⟩
  · intro level x l hl
    obtain ⟨f, hprune, -, -, -, hnodup⟩ := prune_cases dist s a lc
    rw [hprune, linksAt_modifyLinks] at hl
    split at hl
    · obtain ⟨l', hl', rfl⟩ := Option.map_eq_some_iff.mp hl
      exact hnodup l' (h.nodup level x l' hl')
    · exact h.nodup level x l hl
  · intro level x y hxy
    rw [(sameTable_prune dist s a lc).length, on_prune, on_prune]
    exact h.joins level x y (edge_of_prune hxy)

/-- Pruning a list makes it keep to its bound. -/
lemma State.Within.prune {P : ℕ → ℕ → Prop} (dist : V → V → D) (a lc : ℕ)
    (h : s.Within fun level x => P level x ∧ ¬(x = a ∧ level = lc)) :
    (s.prune dist a lc).Within P := by
  obtain ⟨f, hprune, -, -, hbound, -⟩ := prune_cases dist s a lc
  intro level x l hP hl
  rw [hprune, linksAt_modifyLinks] at hl
  rw [(sameTable_prune dist s a lc).cfg]
  by_cases hat : x = a ∧ level = lc
  · rw [if_pos hat] at hl
    obtain ⟨l', -, rfl⟩ := Option.map_eq_some_iff.mp hl
    rw [hat.2]
    exact hbound l'
  · rw [if_neg hat] at hl
    exact h level x l ⟨hP, hat⟩ hl

omit [LinearOrder D] in
/-- Linking lengthens one list only. -/
lemma State.Within.link {P : ℕ → ℕ → Prop} (a b lc : ℕ) (h : s.Within P) :
    (s.link a b lc).Within fun level x => P level x ∧ ¬(x = a ∧ level = lc) := by
  rintro level x l ⟨hP, hat⟩ hl
  rw [State.link, linksAt_modifyLinks, if_neg hat] at hl
  exact h level x l hP hl

/-! ## Linking a new node -/

lemma on_linkBoth (dist : V → V → D) (idx lc : ℕ) (s : State V) (n : ℕ) :
    (s.linkBoth dist idx lc n).On level x ↔ s.On level x :=
  (on_prune _ _ _ _).trans ((on_modifyLinks _ _ _ _).trans (on_modifyLinks _ _ _ _))

lemma State.Proper.linkBoth (dist : V → V → D) (h : s.Proper) (hne : n ≠ idx) (hidx : s.On lc idx)
    (hn : s.On lc n) : (s.linkBoth dist idx lc n).Proper :=
  ((h.link hne.symm hn).link hne ((on_modifyLinks s idx lc _).mpr hidx)).prune dist n lc

/-- While the new node is linked, all other lists keep to their bounds. -/
lemma State.Within.linkBoth (dist : V → V → D) (n : ℕ)
    (h : s.Within fun level x => ¬(x = idx ∧ level = lc)) :
    (s.linkBoth dist idx lc n).Within fun level x => ¬(x = idx ∧ level = lc) := by
  refine State.Within.prune dist n lc ?_
  intro level x l hP hl
  refine ((h.link idx n lc).link n idx lc) level x l ⟨⟨hP.1, ?_⟩, hP.2⟩ hl
  exact hP.1

lemma on_foldl (dist : V → V → D) (idx lc : ℕ) (ns : List ℕ) (s : State V) :
    (ns.foldl (State.linkBoth dist idx lc) s).On level x ↔ s.On level x := by
  induction ns generalizing s with
  | nil => exact Iff.rfl
  | cons n ns ih => exact (ih _).trans (on_linkBoth dist idx lc s n)

lemma State.Proper.foldl (dist : V → V → D) {ns : List ℕ} (h : s.Proper) (hidx : s.On lc idx)
    (hns : ∀ n ∈ ns, n ≠ idx ∧ s.On lc n) :
    (ns.foldl (State.linkBoth dist idx lc) s).Proper := by
  induction ns generalizing s with
  | nil => exact h
  | cons n ns ih =>
    obtain ⟨hne, hn⟩ := hns n List.mem_cons_self
    refine ih (h.linkBoth dist hne hidx hn) ((on_linkBoth dist idx lc s n).mpr hidx) ?_
    intro n' hn'
    obtain ⟨hne', hon'⟩ := hns n' (List.mem_cons_of_mem _ hn')
    exact ⟨hne', (on_linkBoth dist idx lc s n).mpr hon'⟩

lemma State.Within.foldl (dist : V → V → D) (ns : List ℕ)
    (h : s.Within fun level x => ¬(x = idx ∧ level = lc)) :
    (ns.foldl (State.linkBoth dist idx lc) s).Within fun level x => ¬(x = idx ∧ level = lc) := by
  induction ns generalizing s with
  | nil => exact h
  | cons n ns ih => exact ih (h.linkBoth dist n)

/-! ## Staying on a layer -/

section Search

variable {q : V} {ef : ℕ}

/-- A search of a layer that is entered at a node of the layer finds nodes of the layer; entered at
another node it finds only this one. -/
lemma State.Proper.on_of_mem_searchLayer (h : s.Proper) (hep : ep < s.nodes.length)
    {c : DistIdx D} (hc : c ∈ s.searchLayer dist q [ep] ef lc) (hle : level ≤ lc)
    (hon : s.On level ep) : s.On level c.idx := by
  rcases (reaches_of_mem_searchLayer hep hc).1.cases_tail with heq | ⟨x, -, hedge⟩
  · rwa [heq]
  · exact (h.joins lc x c.idx hedge).2.2.2.mono hle

lemma State.Proper.on_head (h : s.Proper) (hep : ep < s.nodes.length) (hle : level ≤ lc)
    (hon : s.On level ep) :
    s.On level (((s.searchLayer dist q [ep] ef lc).head?.map DistIdx.idx).getD ep) := by
  cases hw : (s.searchLayer dist q [ep] ef lc).head? with
  | none => exact hon
  | some c => exact h.on_of_mem_searchLayer hep (List.mem_of_head? hw) hle hon

/-- A descent does not leave the layers below it. -/
lemma State.Proper.on_descend (h : s.Proper) {layers : List ℕ} (hle : ∀ lc ∈ layers, level ≤ lc)
    (hon : s.On level ep) : s.On level (s.descend dist q ep layers) := by
  induction layers generalizing ep with
  | nil => exact hon
  | cons lc layers ih =>
    exact ih (fun lc' hlc' => hle lc' (List.mem_cons_of_mem _ hlc'))
      (h.on_head hon.lt (hle lc List.mem_cons_self) hon)

end Search

/-! ## Connecting a new node -/

/-- The loop over the layers, above which a new node `idx` is connected: the graph is proper and
keeps to its bounds, and the search of the next layer is entered at a node of this layer. -/
structure Woven (added : State V) (idx k : ℕ) (p : State V × ℕ) : Prop where
  growing : Growing added idx k p
  proper : p.1.Proper
  within : p.1.Within fun _ _ => True
  on_iff : ∀ level x, p.1.On level x ↔ added.On level x
  on_entry : ∀ lc < k, p.1.On lc p.2

variable {added : State V} {k : ℕ} {p : State V × ℕ} {q : V}

/-- One layer more is connected. -/
lemma Woven.connect (dist : V → V → D) (q : V) (h : Woven added idx (k + 1) p)
    (hidx : added.nodes.length = idx + 1) (hon : added.On k idx) :
    Woven added idx k (State.connect dist idx q p k) := by
  have hentry := h.on_entry k (Nat.lt_succ_self k)
  have hchosen : ∀ n ∈ chosen dist q p k, n ≠ idx ∧ p.1.On k n := by
    intro n hn
    refine ⟨(h.growing.chosen_lt dist q hidx n hn).ne, ?_⟩
    obtain ⟨c, hc, rfl⟩ := List.mem_map.mp hn
    exact h.proper.on_of_mem_searchLayer hentry.lt (List.mem_of_mem_take hc) le_rfl hentry
  have hkeep : ∀ {level x}, (State.connect dist idx q p k).1.On level x ↔ p.1.On level x :=
    (on_prune dist _ idx k).trans (on_foldl dist idx k (chosen dist q p k) p.1)
  refine ⟨h.growing.connect dist q hidx, ?_, ?_, fun level x => hkeep.trans (h.on_iff level x),
    fun lc hlc => hkeep.mpr ?_⟩
  · exact (h.proper.foldl dist ((h.on_iff k idx).mpr hon) hchosen).prune dist idx k
  · have hbound : p.1.Within fun level x => ¬(x = idx ∧ level = k) :=
      fun level x l _ hl => h.within level x l trivial hl
    refine State.Within.prune dist idx k ?_
    intro level x l hP hl
    exact hbound.foldl dist (chosen dist q p k) level x l hP.2 hl
  · exact h.proper.on_head hentry.lt (Nat.le_of_lt hlc) (hentry.mono (Nat.le_of_lt hlc))

/-- All layers from the top one of the new node down are connected. -/
lemma Woven.foldl (dist : V → V → D) (q : V) (h : Woven added idx k p)
    (hidx : added.nodes.length = idx + 1) (hon : ∀ lc < k, added.On lc idx) :
    Woven added idx 0 ((List.range k).reverse.foldl (State.connect dist idx q) p) := by
  induction k generalizing p with
  | zero => exact h
  | succ k ih =>
    rw [List.range_succ, List.reverse_append, List.reverse_singleton, List.singleton_append]
    exact ih (h.connect dist q hidx (hon k (Nat.lt_succ_self k)))
      fun lc hlc => hon lc (hlc.trans (Nat.lt_succ_self k))

/-! ## Inserts and removals -/

omit [LinearOrder D]

/-- The layers of the nodes after adding one. -/
lemma on_addNode (s : State V) (sid : Sid) (v : V) (lists : ℕ) :
    (s.addNode sid v lists).On lc x ↔ s.On lc x ∨ x = s.nodes.length ∧ lc < lists := by
  rw [State.On, linksAt_addNode]
  by_cases hx : x = s.nodes.length
  · have hnot : ¬s.On lc x := fun hon => hon.lt.ne hx
    rw [if_pos hx]
    by_cases hlt : lc < lists
    · rw [if_pos hlt]
      exact ⟨fun _ => Or.inr ⟨hx, hlt⟩, fun _ => rfl⟩
    · rw [if_neg hlt]
      exact ⟨nofun, fun h => absurd (h.resolve_left hnot).2 hlt⟩
  · rw [if_neg hx]
    exact ⟨Or.inl, fun h => h.resolve_right fun h' => hx h'.1⟩

lemma on_of_nodes (h : s'.nodes = s.nodes) : s'.On level x ↔ s.On level x := by
  rw [State.On, State.On, linksAt_of_nodes h]

lemma State.Proper.of_nodes (h : s.Proper) (hnodes : s'.nodes = s.nodes) : s'.Proper := by
  refine ⟨?_, ?_⟩
  · intro level x l hl
    rw [linksAt_of_nodes hnodes] at hl
    exact h.nodup level x l hl
  · intro level x y hxy
    rw [edge_of_nodes hnodes] at hxy
    rw [hnodes, on_of_nodes hnodes, on_of_nodes hnodes]
    exact h.joins level x y hxy

/-- A state with the same graph. -/
lemma State.WellFormed.of_nodes (h : s.WellFormed) (hnodes : s'.nodes = s.nodes)
    (hentry : s'.entry = s.entry) (hmax : s'.maxLevel = s.maxLevel) (hcfg : s'.cfg = s.cfg) :
    s'.WellFormed := by
  refine ⟨h.toProper.of_nodes hnodes, ?_, ?_, ?_, ?_,
    ?_⟩
  · intro level x l hl
    rw [linksAt_of_nodes hnodes] at hl
    rw [hcfg]
    exact h.degree level x l hl
  · rw [hentry, hnodes]
    exact h.entry_none
  · intro e he
    rw [hmax, on_of_nodes hnodes]
    exact h.entry_on e (hentry ▸ he)
  · intro x hx
    rw [on_of_nodes hnodes]
    exact h.on_base x (hnodes ▸ hx)
  · intro level x hx
    rw [hmax]
    exact h.level_le level x ((on_of_nodes hnodes).mp hx)

/-- A new node has no links. -/
lemma State.WellFormed.addNode (h : s.WellFormed) (sid : Sid) (v : V) (lists : ℕ) :
    (s.addNode sid v lists).Proper ∧ (s.addNode sid v lists).Within fun _ _ => True := by
  have hlen : (s.addNode sid v lists).nodes.length = s.nodes.length + 1 := List.length_append
  have hlist : ∀ lc x l, (s.addNode sid v lists).linksAt x lc = some l →
      l = [] ∨ s.linksAt x lc = some l := by
    intro lc x l hl
    rw [linksAt_addNode] at hl
    by_cases hx : x = s.nodes.length
    · rw [if_pos hx] at hl
      split at hl
      · exact Or.inl (Option.some.inj hl).symm
      · cases hl
    · rw [if_neg hx] at hl
      exact Or.inr hl
  refine ⟨⟨fun lc x l hl => ?_, fun lc x y hxy => ?_⟩, fun lc x l _ hl => ?_⟩
  · rcases hlist lc x l hl with rfl | hold
    · exact List.nodup_nil
    · exact h.nodup lc x l hold
  · obtain ⟨hne, hlt, hx, hy⟩ := h.joins lc x y ((edge_addNode s sid v lists).mp hxy)
    rw [hlen, on_addNode, on_addNode]
    exact ⟨hne, hlt.trans (Nat.lt_succ_self _), Or.inl hx, Or.inl hy⟩
  · rcases hlist lc x l hl with rfl | hold
    · exact Nat.zero_le _
    · exact h.degree lc x l hold

variable [LinearOrder D]

/-- Connecting a node moves no node to another layer. -/
lemma on_connect (dist : V → V → D) (idx : ℕ) (q : V) (layers : List ℕ) (p : State V × ℕ) :
    (layers.foldl (State.connect dist idx q) p).1.On level x ↔ p.1.On level x := by
  induction layers generalizing p with
  | nil => exact Iff.rfl
  | cons lc layers ih =>
    exact (ih _).trans ((on_prune dist _ idx lc).trans (on_foldl dist idx lc (chosen dist q p lc) p.1))

/-- The layers of the nodes after placing one. -/
lemma on_place (dist : V → V → D) (s : State V) (sid : Sid) (v : V) (level lists : ℕ) :
    (s.place dist sid v level lists).On lc x ↔ s.On lc x ∨ x = s.nodes.length ∧ lc < lists := by
  have hnodes := (retire_graph s sid).1
  have hadded : ((s.retire sid).addNode sid v lists).On lc x ↔
      s.On lc x ∨ x = s.nodes.length ∧ lc < lists := by
    rw [on_addNode, on_of_nodes hnodes, hnodes]
  cases he : s.entry with
  | none =>
    rw [place_of_none he]
    exact (on_of_nodes rfl).trans hadded
  | some e =>
    have hplace := place_of_some dist he sid v level lists
    dsimp only at hplace
    rw [hplace]
    split
    · exact (on_of_nodes rfl).trans ((on_connect dist _ v _ _).trans hadded)
    · exact (on_connect dist _ v _ _).trans hadded

/-- The state in which the loop over the layers is entered. -/
lemma State.WellFormed.woven (dist : V → V → D) (h : s.WellFormed) (hwired : s.Wired)
    (he : s.entry = some e) (sid : Sid) (v : V) (level : ℕ) :
    let added := (s.retire sid).addNode sid v (level + 1)
    Woven added s.nodes.length (min level s.maxLevel + 1) (added, added.descend dist v e
      (List.range' (level + 1) (s.maxLevel - level)).reverse) := by
  intro added
  obtain ⟨hnodes, hentry, hmax, hcfg⟩ := retire_graph s sid
  have hretired : (s.retire sid).WellFormed := h.of_nodes hnodes hentry hmax hcfg
  obtain ⟨hproper, hwithin⟩ := hretired.addNode sid v (level + 1)
  refine ⟨hwired.growing dist he sid v (level + 1) _, hproper, hwithin, fun _ _ => Iff.rfl,
    ?_⟩
  intro lc hlc
  refine hproper.on_descend (fun lc' hlc' => ?_) ?_
  · have hrange := (List.mem_range'_1.mp (List.mem_reverse.mp hlc')).1
    omega
  · refine (on_addNode _ sid v (level + 1)).mpr (Or.inl ((on_of_nodes hnodes).mpr ?_))
    exact (h.entry_on e he).mono (by omega)

/-- Placing a node that has a list for each layer up to its level keeps the graph well formed. -/
theorem State.WellFormed.place (h : s.WellFormed) (hwired : s.Wired) (sid : Sid) (v : V)
    (level : ℕ) : (s.place dist sid v level (level + 1)).WellFormed := by
  obtain ⟨hnodes, hentry, hmax, hcfg⟩ := retire_graph s sid
  have hretired : (s.retire sid).WellFormed := h.of_nodes hnodes hentry hmax hcfg
  have hlen : ((s.retire sid).addNode sid v (level + 1)).nodes.length = s.nodes.length + 1 :=
    length_addNode_retire s sid v (level + 1)
  have hon : ∀ lc x, ((s.retire sid).addNode sid v (level + 1)).On lc x ↔
      s.On lc x ∨ x = s.nodes.length ∧ lc ≤ level := by
    intro lc x
    rw [on_addNode, on_of_nodes hnodes, hnodes, Nat.lt_succ_iff]
  cases he : s.entry with
  | none =>
    obtain ⟨hproper, hwithin⟩ := hretired.addNode sid v (level + 1)
    have hempty : ∀ lc x, ¬s.On lc x := by
      intro lc x hx
      have hlt := hx.lt
      rw [h.entry_none.mp he] at hlt
      exact Nat.not_lt_zero x hlt
    rw [place_of_none he, hnodes]
    refine h.grow (hproper.of_nodes rfl) (fun lc x l _ hl => hwithin lc x l trivial hl) hlen hon
      ⟨_, rfl, (hon level _).mpr (Or.inr ⟨rfl, le_rfl⟩)⟩ (fun lc x hx => ?_) le_rfl
    exact absurd hx (hempty lc x)
  | some e =>
    have hwoven := (h.woven dist hwired he sid v level).foldl dist v hlen fun lc hlc =>
      (hon lc _).mpr (Or.inr ⟨rfl, by omega⟩)
    have hplace := place_of_some dist he sid v level (level + 1)
    dsimp only at hplace hwoven
    set done := (List.range (min level s.maxLevel + 1)).reverse.foldl
      (State.connect dist s.nodes.length v) ((s.retire sid).addNode sid v (level + 1),
        ((s.retire sid).addNode sid v (level + 1)).descend dist v e
          (List.range' (level + 1) (s.maxLevel - level)).reverse) with hdone
    have hdone_len : done.1.nodes.length = s.nodes.length + 1 :=
      hwoven.growing.table.length.trans hlen
    have hdone_on : ∀ lc x, done.1.On lc x ↔ s.On lc x ∨ x = s.nodes.length ∧ lc ≤ level :=
      fun lc x => (hwoven.on_iff lc x).trans (hon lc x)
    rw [hplace]
    by_cases hlt : s.maxLevel < level
    · -- the new node is the entry
      rw [if_pos hlt]
      exact h.grow (hwoven.proper.of_nodes rfl)
        (fun lc x l _ hl => hwoven.within lc x l trivial hl) hdone_len hdone_on
        ⟨_, rfl, (hdone_on level _).mpr (Or.inr ⟨rfl, le_rfl⟩)⟩
        (fun lc x hx => (h.level_le lc x hx).trans hlt.le) le_rfl
    · rw [if_neg hlt]
      have hdone_entry : done.1.entry = some e := hwoven.growing.table.entry.trans (hentry.trans he)
      have hdone_max : done.1.maxLevel = s.maxLevel := hwoven.growing.table.maxLevel.trans hmax
      refine h.grow hwoven.proper (fun lc x l _ hl => hwoven.within lc x l trivial hl) hdone_len
        hdone_on ⟨e, hdone_entry, ?_⟩ (fun lc x hx => ?_) ?_
      · rw [hdone_max]
        exact (hdone_on _ _).mpr (Or.inl (h.entry_on e he))
      · rw [hdone_max]
        exact h.level_le lc x hx
      · rw [hdone_max]
        exact not_lt.mp hlt

omit [LinearOrder D] in
lemma maxLevel_remove (s : State V) (sid : Sid) : (s.remove sid).maxLevel = s.maxLevel := by
  unfold State.remove
  split
  · rfl
  · exact (retire_graph s sid).2.2.1

omit [LinearOrder D] in
/-- Removing changes no part of the graph. -/
lemma State.WellFormed.remove (h : s.WellFormed) (sid : Sid) : (s.remove sid).WellFormed := by
  obtain ⟨hnodes, hentry, hcfg⟩ := remove_graph s sid
  exact h.of_nodes hnodes hentry (maxLevel_remove s sid) hcfg

variable {overflowChecks : Bool} {cfg : HnswConfig} {ops : List (Op V)}

/-- The graph of an index is well formed when each node has room for its lists. -/
theorem wellFormed_build (h : build dist overflowChecks cfg ops = some s)
    (hroomy : ∀ level ∈ levels ops, Roomy level) : s.WellFormed := by
  induction ops using List.reverseRecOn generalizing s with
  | nil =>
    obtain rfl := Option.some.inj h
    exact ⟨⟨nofun, nofun⟩, nofun, ⟨fun _ => rfl, fun _ => rfl⟩, nofun, nofun, nofun⟩
  | append_singleton ops op ih =>
    rw [build_concat, Option.bind_eq_some_iff] at h
    obtain ⟨t, ht, hop⟩ := h
    obtain ⟨hold, hlevel⟩ := forall_levels_concat.mp hroomy
    rcases State.apply_eq_some_iff.mp hop with ⟨sid, v, level, lists, rfl, hlists, rfl⟩ |
      ⟨sid, rfl, rfl⟩
    · obtain rfl := Option.some.inj
        (hlists.symm.trans ((hlevel level rfl).listCount_eq overflowChecks))
      exact (ih ht hold).place (built_of_build ht).wired sid v level.toNat
    · exact (ih ht hold).remove sid

/-! ## Nodes without room for their lists -/

/-- After placing a node there is an entry point, and the top layer is at least its level. -/
lemma entry_place (dist : V → V → D) (s : State V) (sid : Sid) (v : V) (level lists : ℕ) :
    (s.place dist sid v level lists).entry.isSome ∧
      level ≤ (s.place dist sid v level lists).maxLevel ∧
      (s.entry.isSome → s.maxLevel ≤ (s.place dist sid v level lists).maxLevel) := by
  obtain ⟨-, hentry, hmax, -⟩ := retire_graph s sid
  cases he : s.entry with
  | none =>
    rw [place_of_none he]
    exact ⟨rfl, le_rfl, nofun⟩
  | some e =>
    have hplace := place_of_some dist he sid v level lists
    dsimp only at hplace
    rw [hplace]
    split
    · rename_i hlt
      exact ⟨rfl, le_rfl, fun _ => hlt.le⟩
    · rename_i hle
      have htable := sameTable_layers dist s.nodes.length v
        (List.range (min level s.maxLevel + 1)).reverse ((s.retire sid).addNode sid v lists,
          ((s.retire sid).addNode sid v lists).descend dist v e
            (List.range' (level + 1) (s.maxLevel - level)).reverse)
      have hkeep : ((s.retire sid).addNode sid v lists).maxLevel = s.maxLevel := hmax
      rw [htable.entry, htable.maxLevel, hkeep]
      exact ⟨Option.isSome_of_eq_some (hentry.trans he), not_lt.mp hle, fun _ => le_rfl⟩

/-- What holds of the layers after any updates: each of them has room for its list, and the top
layer is at least the level of each node. -/
structure Layered (ops : List (Op V)) (s : State V) : Prop where
  roomy : ∀ lc x, s.On lc x → (lc + 1) * 24 ≤ isizeMax
  entry : levels ops ≠ [] → s.entry.isSome
  level_le : ∀ level ∈ levels ops, level.toNat ≤ s.maxLevel

lemma layered_of_build (h : build dist overflowChecks cfg ops = some s) : Layered ops s := by
  induction ops using List.reverseRecOn generalizing s with
  | nil =>
    obtain rfl := Option.some.inj h
    exact ⟨nofun, fun hne => absurd rfl hne, nofun⟩
  | append_singleton ops op ih =>
    rw [build_concat, Option.bind_eq_some_iff] at h
    obtain ⟨t, ht, hop⟩ := h
    obtain ⟨hroomy, hentry, hle⟩ := ih ht
    rcases State.apply_eq_some_iff.mp hop with ⟨sid, v, level, lists, rfl, hlists, rfl⟩ |
      ⟨sid, rfl, rfl⟩
    · obtain ⟨hsome, hlevel, hmax⟩ := entry_place dist t sid v level.toNat lists
      refine ⟨fun lc x hx => ?_, fun _ => hsome, forall_levels_concat.mpr ⟨fun l hl => ?_, ?_⟩⟩
      · rcases (on_place dist t sid v level.toNat lists).mp hx with hx | ⟨-, hlt⟩
        · exact hroomy lc x hx
        · rcases listCount_eq_some_iff.mp hlists with ⟨hfits, rfl⟩ | ⟨-, -, rfl⟩
          · exact (Nat.mul_le_mul_right 24 hlt).trans hfits
          · exact absurd hlt (Nat.not_lt_zero lc)
      · exact (hle l hl).trans (hmax (hentry (List.ne_nil_of_mem hl)))
      · rintro l hl
        obtain rfl := Option.some.inj hl
        exact hlevel
    · obtain ⟨hnodes, hentry', -⟩ := remove_graph t sid
      have hlevels : levels (ops ++ [Op.remove sid]) = levels ops := by
        rw [levels, List.filterMap_append]
        exact List.append_nil _
      refine ⟨fun lc x hx => hroomy lc x ((on_of_nodes hnodes).mp hx), ?_, ?_⟩
      · intro hne
        rw [hentry']
        exact hentry (hlevels ▸ hne)
      · rw [maxLevel_remove, hlevels]
        exact hle

/-- If the entry point is on the top layer, each level left room for its lists: the largest `usize`,
whose number of lists wraps around to none, is a top layer without nodes. -/
theorem roomy_of_entry_on (h : build dist overflowChecks cfg ops = some s)
    (hentry : ∀ e, s.entry = some e → s.On s.maxLevel e) : ∀ level ∈ levels ops, Roomy level := by
  intro level hlevel
  obtain ⟨hroomy, hsome, hle⟩ := layered_of_build h
  obtain ⟨e, he⟩ := Option.isSome_iff_exists.mp (hsome (List.ne_nil_of_mem hlevel))
  exact (Nat.mul_le_mul_right 24 (Nat.succ_le_succ (hle level hlevel))).trans
    (hroomy s.maxLevel e (hentry e he))

end Hnsw

end GrainStore
