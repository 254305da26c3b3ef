import Mathlib
import GrainStore.Foundation.Checked
import GrainStore.Vector.Soundness
import GrainStore.Vector.WellFormed

/-!
# No index is out of range

The same functions with every index expression checked: they have no result where the source panics
because an index is out of range.  Where there is an index at all, every update and every search of
it has one (`build?_eq`, `search?_eq`).
-/

namespace GrainStore

open Relation Checked

namespace Hnsw

variable {V D : Type*} {dist : V → V → D} {s : State V} {a b i x y n idx level lc e ep : ℕ}

/-! ## The checked functions -/

namespace State

/-- The links of a node at a level; that there is the level is not required. -/
def neighbors? (s : State V) (idx level : ℕ) : Option (List ℕ) :=
  s.nodes[idx]?.map fun node => (node.links[level]?).getD []

def link? (s : State V) (a b level : ℕ) : Option (State V) :=
  s.nodes[a]?.map fun _ => s.link a b level

/-- Soft-delete the node of a sid; its flag is looked up. -/
def retire? (s : State V) (sid : Sid) : Option (State V) :=
  match s.sidToIdx[sid]? with
  | none => some s
  | some old =>
    s.deleted[old]?.map fun deleted =>
      if deleted then s
      else { s with deleted := s.deleted.set old true, live := s.live - 1 }

def remove? (s : State V) (sid : Sid) : Option (State V) :=
  match s.sidToIdx[sid]? with
  | none => some s
  | some _ => (s.retire? sid).map fun s' => { s' with sidToIdx := s.sidToIdx.erase sid }

variable [LinearOrder D] (dist : V → V → D)

def visit? (s : State V) (q : V) (ef : ℕ) (b : Beam D) (n : ℕ) : Option (Beam D) :=
  if n ∈ b.visited then some b
  else
    let b := { b with visited := n :: b.visited }
    (s.distance dist q n).map fun d =>
      if (∀ f ∈ b.farthest, d < f) ∨ b.result.length < ef then (b.push ⟨d, n⟩).cut ef else b

def expand? (s : State V) (q : V) (ef level : ℕ) : ℕ → Beam D → Option (Beam D)
  | 0, b => some b
  | fuel + 1, b =>
    match b.candidates with
    | [] => some b
    | c :: rest =>
      if (∃ f ∈ b.farthest, f < c.dist) ∧ ef ≤ b.result.length then some b
      else
        (s.neighbors? c.idx level).bind fun neighbors =>
          (neighbors.foldlM (s.visit? dist q ef) { b with candidates := rest }).bind fun b =>
            expand? s q ef level fuel b

def startBeam? (s : State V) (q : V) (entryPoints : List ℕ) : Option (Beam D) :=
  entryPoints.foldlM (fun b ep => (s.distance dist q ep).map fun d => b.push ⟨d, ep⟩)
    ⟨entryPoints, [], []⟩

def searchLayer? (s : State V) (q : V) (entryPoints : List ℕ) (ef level : ℕ) :
    Option (List (DistIdx D)) :=
  (s.startBeam? dist q entryPoints).bind fun b =>
    (s.expand? dist q ef level (s.nodes.length + entryPoints.length) b).map Beam.result

def descend? (s : State V) (q : V) (ep : ℕ) (layers : List ℕ) : Option ℕ :=
  layers.foldlM
    (fun ep lc => (s.searchLayer? dist q [ep] 1 lc).map fun w =>
      (w.head?.map DistIdx.idx).getD ep) ep

def prune? (s : State V) (node level : ℕ) : Option (State V) :=
  let maxM := if level = 0 then s.cfg.m0 else s.cfg.m
  s.nodes[node]?.bind fun nd =>
    match nd.links[level]? with
    | none => some s
    | some links =>
      if links.length ≤ maxM then some s
      else
        (links.mapM fun n => (s.distance dist nd.vector n).map fun d =>
          (⟨d, n⟩ : DistIdx D)).map fun scored =>
            s.modifyLinks node level fun _ =>
              ((scored.insertionSort (· ≤ ·)).take maxM).map DistIdx.idx

def linkBoth? (idx lc : ℕ) (s : State V) (n : ℕ) : Option (State V) :=
  (s.link? idx n lc).bind fun s => (s.link? n idx lc).bind fun s => s.prune? dist n lc

def connect? (idx : ℕ) (vector : V) (p : State V × ℕ) (lc : ℕ) : Option (State V × ℕ) :=
  (p.1.searchLayer? dist vector [p.2] p.1.cfg.efConstruction lc).bind fun w =>
    let m := if lc = 0 then p.1.cfg.m0 else p.1.cfg.m
    let neighbors := (w.take m).map DistIdx.idx
    (neighbors.foldlM (linkBoth? dist idx lc) p.1).bind fun s =>
      (s.prune? dist idx lc).map fun s => (s, (w.head?.map DistIdx.idx).getD p.2)

def place? (s : State V) (sid : Sid) (vector : V) (level lists : ℕ) : Option (State V) :=
  (s.retire? sid).bind fun s =>
    let idx := s.nodes.length
    let s := s.addNode sid vector lists
    match s.entry with
    | none => some { s with entry := some idx, maxLevel := level }
    | some e =>
      let lMax := s.maxLevel
      (s.descend? dist vector e (List.range' (level + 1) (lMax - level)).reverse).bind fun ep =>
        ((List.range (min level lMax + 1)).reverse.foldlM (connect? dist idx vector)
          (s, ep)).map fun p =>
            if lMax < level then { p.1 with entry := some idx, maxLevel := level } else p.1

def insert? (overflowChecks : Bool) (s : State V) (sid : Sid) (vector : V) (level : U64) :
    Option (State V) :=
  (listCount overflowChecks level).bind fun lists => s.place? dist sid vector level.toNat lists

/-- The source filters and reads only as many as it takes; here all are looked at. -/
def search? (s : State V) (q : V) (k ef : ℕ) : Option (List (Candidate D)) :=
  match s.entry with
  | none => some []
  | some e =>
    (s.descend? dist q e (List.range' 1 s.maxLevel).reverse).bind fun ep =>
      (s.searchLayer? dist q [ep] (max ef k) 0).bind fun w =>
        (w.mapM fun c => s.deleted[c.idx]?.map fun deleted => (c, deleted)).bind fun flagged =>
          (((flagged.filter fun p => !p.2).map Prod.fst).take k).mapM fun c =>
            s.nodes[c.idx]?.map fun node => ⟨node.sid, c.dist⟩

def applyOp? (overflowChecks : Bool) (s : State V) : Op V → Option (State V)
  | .insert sid vector level => s.insert? dist overflowChecks sid vector level
  | .remove sid => s.remove? sid

end State

/-- The index after some updates, if none of them reads out of range. -/
def build? [LinearOrder D] (dist : V → V → D) (overflowChecks : Bool) (cfg : HnswConfig)
    (ops : List (Op V)) : Option (State V) :=
  ops.foldlM (State.applyOp? dist overflowChecks) (new V cfg)

/-! ## Beam search -/

lemma link?_eq (ha : a < s.nodes.length) (b lc : ℕ) : s.link? a b lc = some (s.link a b lc) := by
  rw [State.link?, List.getElem?_eq_getElem ha]
  rfl

lemma neighbors?_eq (h : i < s.nodes.length) (level : ℕ) :
    s.neighbors? i level = some ((s.linksAt i level).getD []) := by
  rw [State.neighbors?, State.linksAt, List.getElem?_eq_getElem h]
  rfl

variable [LinearOrder D]

section Search

variable {q : V} {ef : ℕ}

lemma visit?_eq (dist : V → V → D) (q : V) (ef : ℕ) (beam : Beam D) (hn : n < s.nodes.length) :
    s.visit? dist q ef beam n = some (s.visit dist q ef beam n) := by
  obtain ⟨d, hd⟩ := s.exists_distance dist q hn
  unfold State.visit? State.visit
  by_cases hold : n ∈ beam.visited
  · rw [if_pos hold, if_pos hold]
  · rw [if_neg hold, if_neg hold, hd]
    rfl

variable (hlinked : s.Linked) (hep : ep < s.nodes.length)
include hlinked hep

lemma expand?_eq {beam : Beam D} (h : beam.Sound dist s q level ep) (fuel : ℕ) :
    s.expand? dist q ef level fuel beam = some (s.expand dist q ef level fuel beam) := by
  induction fuel generalizing beam with
  | zero => rfl
  | succ fuel ih =>
    unfold State.expand? State.expand
    cases hcand : beam.candidates with
    | nil => rfl
    | cons c rest =>
      dsimp only
      split
      · rfl
      · have hc : c.idx < s.nodes.length :=
          h.lt_of_mem hlinked hep (h.candidates c (hcand ▸ List.mem_cons_self)).1
        have hfold := (foldlM_eq_some (f := s.visit? dist q ef) (P := fun _ => True)
          (l := (s.linksAt c.idx level).getD []) (b := { beam with candidates := rest })
          (fun beam' n hn _ => ⟨visit?_eq dist q ef beam' (hlinked level _ n hn), trivial⟩)
          trivial).1
        rw [neighbors?_eq hc, Option.bind_some, hfold, Option.bind_some]
        exact ih (h.step hcand)

lemma searchLayer?_eq (dist : V → V → D) (q : V) (ef level : ℕ) :
    s.searchLayer? dist q [ep] ef level = some (s.searchLayer dist q [ep] ef level) := by
  obtain ⟨d, hd⟩ := s.exists_distance dist q hep
  have hstart : s.startBeam? dist q [ep] = some (s.startBeam dist q [ep]) := by
    rw [startBeam_singleton hd, State.startBeam?, List.foldlM_cons, hd]
    rfl
  rw [State.searchLayer?, hstart, Option.bind_some,
    expand?_eq hlinked hep (sound_startBeam dist q level hep)]
  rfl

omit hlinked in
lemma head_lt (hc : ∀ c ∈ s.searchLayer dist q [ep] ef level, c.idx < s.nodes.length) :
    ((s.searchLayer dist q [ep] ef level).head?.map DistIdx.idx).getD ep < s.nodes.length := by
  cases hw : (s.searchLayer dist q [ep] ef level).head? with
  | none => exact hep
  | some c => exact hc c (List.mem_of_head? hw)

omit hlinked in
lemma found_lt {c : DistIdx D} (hc : c ∈ s.searchLayer dist q [ep] ef level) :
    c.idx < s.nodes.length :=
  State.lt_of_measured (reaches_of_mem_searchLayer hep hc).2

lemma descend?_eq (dist : V → V → D) (q : V) (layers : List ℕ) :
    s.descend? dist q ep layers = some (s.descend dist q ep layers) ∧
      s.descend dist q ep layers < s.nodes.length :=
  foldlM_eq_some (P := fun ep => ep < s.nodes.length)
    (fun ep lc _ hlt => ⟨by rw [searchLayer?_eq hlinked hlt]; rfl,
      head_lt hlt fun _ => found_lt hlt⟩) hep

end Search

/-! ## Linking and pruning -/

omit [LinearOrder D] in
/-- Two changes that agree on the list that is there. -/
lemma modifyLinks_congr {f g : List ℕ → List ℕ} (h : ∀ l, s.linksAt a lc = some l → f l = g l) :
    s.modifyLinks a lc f = s.modifyLinks a lc g := by
  have hlinks : ∀ node, s.nodes[a]? = some node →
      node.links.modify lc f = node.links.modify lc g := by
    intro node hnode
    refine List.ext_getElem? ?_
    intro j
    rw [getElem?_modify_ite, getElem?_modify_ite]
    by_cases hj : j = lc
    · rw [if_pos hj, if_pos hj]
      cases hl : node.links[j]? with
      | none => rfl
      | some l =>
        refine congrArg some (h l ?_)
        rw [State.linksAt, hnode, Option.bind_some, ← hj]
        exact hl
    · rw [if_neg hj, if_neg hj]
  have hnodes : (s.nodes.modify a fun node => { node with links := node.links.modify lc f }) =
      s.nodes.modify a fun node => { node with links := node.links.modify lc g } := by
    refine List.ext_getElem? ?_
    intro j
    rw [getElem?_modify_ite, getElem?_modify_ite]
    by_cases hj : j = a
    · rw [if_pos hj, if_pos hj]
      cases hnode : s.nodes[j]? with
      | none => rfl
      | some node => rw [Option.map_some, Option.map_some, hlinks node (hj ▸ hnode)]
    · rw [if_neg hj, if_neg hj]
  rw [State.modifyLinks, hnodes, State.modifyLinks]

/-- All nodes that a list names are read when it is pruned. -/
lemma prune?_eq (dist : V → V → D) (hlinked : s.Linked) (ha : a < s.nodes.length) (lc : ℕ) :
    s.prune? dist a lc = some (s.prune dist a lc) := by
  unfold State.prune? State.prune
  have hat : s.linksAt a lc = s.nodes[a].links[lc]? := by
    rw [State.linksAt, List.getElem?_eq_getElem ha]
    rfl
  rw [List.getElem?_eq_getElem ha]
  dsimp only [Option.bind_some]
  cases hlinks : s.nodes[a].links[lc]? with
  | none =>
    refine congrArg some (modifyLinks_eq_self fun l hl => ?_).symm
    rw [hat, hlinks] at hl
    cases hl
  | some links =>
    have hsome : s.linksAt a lc = some links := hat.trans hlinks
    dsimp only
    by_cases hlen : links.length ≤ if lc = 0 then s.cfg.m0 else s.cfg.m
    · rw [if_pos hlen]
      refine congrArg some (modifyLinks_eq_self fun l hl => ?_).symm
      obtain rfl := Option.some.inj (hsome.symm.trans hl)
      exact if_pos hlen
    · rw [if_neg hlen, mapM_eq_filterMap fun y hy => ?_]
      · refine congrArg some (modifyLinks_congr fun l hl => ?_)
        obtain rfl := Option.some.inj (hsome.symm.trans hl)
        exact (if_neg hlen).symm
      · have hedge : s.Edge lc a y := by
          rw [State.Edge, hsome]
          exact hy
        obtain ⟨d, hd⟩ := s.exists_distance dist s.nodes[a].vector (hlinked lc a y hedge)
        rw [hd]
        rfl

omit [LinearOrder D] in
lemma State.Linked.link (h : s.Linked) (hb : b < s.nodes.length) (a lc : ℕ) :
    (s.link a b lc).Linked := by
  have hlen : (s.link a b lc).nodes.length = s.nodes.length :=
    (sameTable_modifyLinks s a lc _).length
  intro level x y hxy
  rw [hlen]
  rcases edge_link.mp hxy with hxy | ⟨-, rfl, -⟩
  · exact h level x y hxy
  · exact hb

lemma State.Linked.prune (dist : V → V → D) (h : s.Linked) (a lc : ℕ) :
    (s.prune dist a lc).Linked := by
  intro level x y hxy
  rw [(sameTable_prune dist s a lc).length]
  exact h level x y (edge_of_prune hxy)

/-- Linking two nodes of the index. -/
lemma linkBoth?_eq (dist : V → V → D) (lc : ℕ) (h : s.Linked) (hidx : idx < s.nodes.length)
    (hn : n < s.nodes.length) :
    s.linkBoth? dist idx lc n = some (s.linkBoth dist idx lc n) ∧
      (s.linkBoth dist idx lc n).Linked := by
  have hlen : (s.link idx n lc).nodes.length = s.nodes.length :=
    (sameTable_modifyLinks s idx lc _).length
  have hlen' : ((s.link idx n lc).link n idx lc).nodes.length = s.nodes.length :=
    (sameTable_modifyLinks _ n lc _).length.trans hlen
  have hlinked : ((s.link idx n lc).link n idx lc).Linked :=
    (h.link hn idx lc).link (hlen.symm ▸ hidx) n lc
  refine ⟨?_, hlinked.prune dist n lc⟩
  rw [State.linkBoth?, link?_eq hidx, Option.bind_some, link?_eq (hlen.symm ▸ hn),
    Option.bind_some]
  exact prune?_eq dist hlinked (hlen'.symm ▸ hn) lc

/-- A state between two steps of an insert that links the node `idx`, entered at `p.2`. -/
def Entered (idx : ℕ) (p : State V × ℕ) : Prop :=
  p.1.Linked ∧ idx < p.1.nodes.length ∧ p.2 < p.1.nodes.length

/-- Connecting a node on one layer. -/
lemma connect?_eq (dist : V → V → D) (q : V) (lc : ℕ) {p : State V × ℕ} (h : Entered idx p) :
    State.connect? dist idx q p lc = some (State.connect dist idx q p lc) ∧
      Entered idx (State.connect dist idx q p lc) := by
  obtain ⟨hlinked, hidx, hep⟩ := h
  have hchosen : ∀ n ∈ chosen dist q p lc, n < p.1.nodes.length := by
    intro n hn
    obtain ⟨c, hc, rfl⟩ := List.mem_map.mp hn
    exact found_lt hep (List.mem_of_mem_take hc)
  obtain ⟨hfold, hlinked', hlen⟩ := foldlM_eq_some (f := State.linkBoth? dist idx lc)
    (g := State.linkBoth dist idx lc) (l := chosen dist q p lc) (b := p.1)
    (P := fun s => s.Linked ∧ s.nodes.length = p.1.nodes.length)
    (fun s n hn hs => by
      obtain ⟨heq, hnext⟩ := linkBoth?_eq dist lc hs.1 (hs.2.symm ▸ hidx)
        (hs.2.symm ▸ hchosen n hn)
      exact ⟨heq, hnext, (sameTable_linkBoth dist idx lc s n).length.trans hs.2⟩)
    ⟨hlinked, rfl⟩
  have htable := sameTable_prune dist
    ((chosen dist q p lc).foldl (State.linkBoth dist idx lc) p.1) idx lc
  refine ⟨?_, hlinked'.prune dist idx lc, ?_, ?_⟩
  · unfold State.connect?
    rw [searchLayer?_eq hlinked hep, Option.bind_some]
    dsimp only
    refine Eq.trans (congrArg (Option.bind · _) hfold) ?_
    rw [Option.bind_some, prune?_eq dist hlinked' (hlen.symm ▸ hidx)]
    rfl
  · exact hidx.trans_eq (htable.length.trans hlen).symm
  · refine lt_of_lt_of_eq ?_ (htable.length.trans hlen).symm
    exact head_lt hep fun _ => found_lt hep

/-! ## Updates -/

omit [LinearOrder D] in
lemma retire?_eq {m : VectorMap V} (h : s.Indexed m) (sid : Sid) :
    s.retire? sid = some (s.retire sid) := by
  unfold State.retire? State.retire
  cases hold : s.sidToIdx[sid]? with
  | none => rfl
  | some old =>
    obtain ⟨v, hrow⟩ := h.lookup sid old hold
    have hlt : old < s.deleted.length := h.length ▸ (List.getElem?_eq_some_iff.mp hrow).1
    dsimp only
    rw [List.getElem?_eq_getElem hlt]
    cases s.deleted[old] with
    | true => rfl
    | false => rfl

omit [LinearOrder D] in
lemma remove?_eq {m : VectorMap V} (h : s.Indexed m) (sid : Sid) :
    s.remove? sid = some (s.remove sid) := by
  unfold State.remove? State.remove
  cases hold : s.sidToIdx[sid]? with
  | none => rfl
  | some old =>
    dsimp only
    rw [retire?_eq h sid]
    rfl

lemma place?_eq {m : VectorMap V} (dist : V → V → D) (h : s.Indexed m) (hwired : s.Wired)
    (sid : Sid) (v : V) (level lists : ℕ) :
    s.place? dist sid v level lists = some (s.place dist sid v level lists) := by
  obtain ⟨hnodes, hentry, -, -⟩ := retire_graph s sid
  have hretired : (s.retire sid).Wired := hwired.of_nodes hnodes hentry
  have hlen : ((s.retire sid).addNode sid v lists).nodes.length =
      (s.retire sid).nodes.length + 1 := List.length_append
  unfold State.place? State.place
  rw [retire?_eq h sid, Option.bind_some]
  dsimp only
  cases he : ((s.retire sid).addNode sid v lists).entry with
  | none => rfl
  | some e =>
    have hlinked : ((s.retire sid).addNode sid v lists).Linked := by
      intro lc x y hxy
      rw [hlen]
      exact (hretired.linked lc x y ((edge_addNode _ sid v lists).mp hxy)).trans
        (Nat.lt_succ_self _)
    have hep : e < ((s.retire sid).addNode sid v lists).nodes.length := by
      rw [hlen]
      exact (hretired.entry_lt e he).trans (Nat.lt_succ_self _)
    obtain ⟨hdescend, hlt⟩ := descend?_eq hlinked hep dist v (List.range' (level + 1)
      (((s.retire sid).addNode sid v lists).maxLevel - level)).reverse
    dsimp only
    rw [hdescend, Option.bind_some]
    obtain ⟨hfold, -⟩ := foldlM_eq_some (P := Entered (s.retire sid).nodes.length)
      (f := State.connect? dist (s.retire sid).nodes.length v)
      (g := State.connect dist (s.retire sid).nodes.length v)
      (l := (List.range (min level
        ((s.retire sid).addNode sid v lists).maxLevel + 1)).reverse)
      (b := ((s.retire sid).addNode sid v lists, ((s.retire sid).addNode sid v lists).descend dist
        v e (List.range' (level + 1)
          (((s.retire sid).addNode sid v lists).maxLevel - level)).reverse))
      (fun p lc _ hp => connect?_eq dist v lc hp)
      ⟨hlinked, (Nat.lt_succ_self _).trans_eq hlen.symm, hlt⟩
    rw [hfold]
    rfl

/-- An update of an index reads nothing out of range. -/
lemma applyOp?_eq {m : VectorMap V} (dist : V → V → D) (overflowChecks : Bool) (h : s.Indexed m)
    (hwired : s.Wired) (op : Op V) :
    s.applyOp? dist overflowChecks op = s.apply dist overflowChecks op := by
  cases op with
  | insert sid v level =>
    rw [State.applyOp?, State.insert?, State.apply, State.insert, Option.map_eq_bind]
    exact congrArg (Option.bind _) (funext fun lists => place?_eq dist h hwired sid v _ lists)
  | remove sid => exact remove?_eq h sid

omit [LinearOrder D] in
/-- The results that carry no deleted flag. -/
lemma filter_flagged (s : State V) (w : List (DistIdx D)) :
    ((w.filterMap fun c => s.deleted[c.idx]?.map fun deleted => (c, deleted)).filter
      fun p => !p.2).map Prod.fst = w.filter fun c => s.deleted[c.idx]? = some false := by
  induction w with
  | nil => rfl
  | cons c w ih =>
    rw [List.filterMap_cons, List.filter_cons, ← ih]
    cases s.deleted[c.idx]? with
    | none => rfl
    | some deleted =>
      cases deleted with
      | true => rfl
      | false => rfl

/-! ## Every index -/

section Every

variable {overflowChecks : Bool} {cfg : HnswConfig} {ops : List (Op V)}

/-- The updates of an index read nothing out of range. -/
lemma build?_eq (dist : V → V → D) (overflowChecks : Bool) (cfg : HnswConfig) (ops : List (Op V)) :
    build? dist overflowChecks cfg ops = build dist overflowChecks cfg ops := by
  induction ops using List.reverseRecOn with
  | nil => rfl
  | append_singleton ops op ih =>
    rw [build_concat, build?, List.foldlM_append]
    rw [build?] at ih
    rw [ih]
    cases hs : build dist overflowChecks cfg ops with
    | none => rfl
    | some s =>
      have hbuilt := built_of_build hs
      rw [Option.bind_eq_bind, Option.bind_some, Option.bind_some, List.foldlM_cons,
        applyOp?_eq dist overflowChecks hbuilt.indexed hbuilt.wired op]
      exact bind_pure _

/-- A search of an index reads nothing out of range. -/
lemma search?_eq (h : build dist overflowChecks cfg ops = some s) (q : V) (k ef : ℕ) :
    s.search? dist q k ef = some (s.search dist q k ef) := by
  have hbuilt := built_of_build h
  unfold State.search? State.search
  cases he : s.entry with
  | none =>
    have hbase : s.baseEntry dist q = none := by
      rw [State.baseEntry, he]
      rfl
    rw [hbase]
  | some e =>
    obtain ⟨hdescend, hlt⟩ := descend?_eq hbuilt.wired.linked (hbuilt.wired.entry_lt e he)
      dist q (List.range' 1 s.maxLevel).reverse
    have hbase : s.baseEntry dist q =
        some (s.descend dist q e (List.range' 1 s.maxLevel).reverse) := by
      rw [State.baseEntry, he]
      rfl
    dsimp only
    rw [hdescend, Option.bind_some, searchLayer?_eq hbuilt.wired.linked hlt, Option.bind_some,
      hbase]
    have hnode : ∀ c ∈ s.searchLayer dist q [s.descend dist q e
        (List.range' 1 s.maxLevel).reverse] (max ef k) 0, c.idx < s.nodes.length :=
      fun _ => found_lt hlt
    have hflags : s.deleted.length = s.nodes.length :=
      hbuilt.indexed.length.trans (List.length_map _)
    rw [mapM_eq_filterMap fun c hc => ?_, Option.bind_some, filter_flagged]
    · refine mapM_eq_filterMap ?_
      intro c hc
      rw [Option.isSome_map, List.getElem?_eq_getElem
        (hnode c (List.mem_filter.mp (List.mem_of_mem_take hc)).1)]
      rfl
    · rw [Option.isSome_map, List.getElem?_eq_getElem (hflags.symm ▸ hnode c hc)]
      rfl

end Every

/-- An index has a well-formed graph, and reads nothing out of range.  Links join distinct nodes of
one layer, each list names a node once and has at most `m0` links on the base layer and `m` above,
there is an entry point exactly when there are nodes, and it is on the top layer.  No update and no
search reads a node, a deleted flag or a list of links out of range. -/
structure State.Checked (dist : V → V → D) (overflowChecks : Bool) (cfg : HnswConfig)
    (ops : List (Op V)) (s : State V) : Prop where
  wellFormed : s.WellFormed
  updates : build? dist overflowChecks cfg ops = some s
  searches : ∀ (q : V) (k ef : ℕ), s.search? dist q k ef = some (s.search dist q k ef)

/-- Take any tunables, any sequence of inserts, with any levels, and removals, and any build.  There
is an index with a well-formed graph that reads nothing out of range, exactly when each level leaves
room for its lists. -/
theorem wellFormed_checked (dist : V → V → D) (overflowChecks : Bool) (cfg : HnswConfig)
    (ops : List (Op V)) :
    (∃ s, build dist overflowChecks cfg ops = some s ∧ s.Checked dist overflowChecks cfg ops) ↔
      ∀ level ∈ levels ops, Roomy level := by
  constructor
  · rintro ⟨s, hs, hchecked⟩
    exact roomy_of_entry_on hs hchecked.wellFormed.entry_on
  · intro hroomy
    obtain ⟨s, hs⟩ := exists_build dist overflowChecks cfg hroomy
    exact ⟨s, hs, wellFormed_build hs hroomy, (build?_eq dist overflowChecks cfg ops).trans hs,
      search?_eq hs⟩

open OutlierExample LargestExample in
/-- With `m = 1` there is no index of one vector in a build with overflow checks, and in one without
them its node is the entry point of the top layer, but on no layer. -/
theorem largest_not_checked :
    (∀ overflowChecks, ¬∃ s, build l2Sq overflowChecks ⟨1, 2, 200⟩ largest = some s ∧
      s.Checked l2Sq overflowChecks ⟨1, 2, 200⟩ largest) ∧
    build l2Sq true ⟨1, 2, 200⟩ largest = none ∧
    ∃ s, build l2Sq false ⟨1, 2, 200⟩ largest = some s ∧ s.entry = some 0 ∧
      s.maxLevel = usizeMax ∧ ∀ level, ¬s.On level 0 := by
  refine ⟨?_, rfl, _, rfl, rfl, rfl, fun level => nofun⟩
  rintro overflowChecks ⟨s, hs, hchecked⟩
  exact not_roomy_largest (roomy_of_entry_on hs hchecked.wellFormed.entry_on)

end Hnsw

end GrainStore
