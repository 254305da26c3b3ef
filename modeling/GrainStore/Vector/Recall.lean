import Mathlib
import GrainStore.Foundation.Ranking
import GrainStore.Vector.Links

/-!
# What an exhaustive search returns

`Indexed` says which map an index of soft-deleted nodes holds: the one that the exact index makes of
the same updates (`built_of_ops`).  `search_exhaustive` says what a search returns whose beam is as
wide as the index: the nearest of the live nodes that the base layer reaches from the end of the
descent.  While at most `m0 + 1` nodes were inserted these are all, and the search is exact.
-/

namespace GrainStore

open Relation

namespace Hnsw

variable {V D : Type*} {dist : V → V → D} {s s' : State V} {m : VectorMap V} {sid : Sid} {v : V}
  {i : ℕ}

/-! ## Nodes and entries -/

/-- A node that is not deleted. -/
def State.Live (s : State V) (i : ℕ) (sid : Sid) (v : V) : Prop :=
  s.rows[i]? = some (sid, v) ∧ s.deleted[i]? = some false

/-- The live nodes are the entries of a map. -/
structure State.Indexed (s : State V) (m : VectorMap V) : Prop where
  length : s.deleted.length = s.rows.length
  lookup : ∀ (sid : Sid) (i : ℕ), s.sidToIdx[sid]? = some i → ∃ v, s.rows[i]? = some (sid, v)
  newest : ∀ (i : ℕ) (sid : Sid) (v : V), s.Live i sid v → s.sidToIdx[sid]? = some i
  map : ∀ (sid : Sid) (v : V), m[sid]? = some v ↔ ∃ i, s.Live i sid v

lemma retire_rows (s : State V) (sid : Sid) :
    (s.retire sid).rows = s.rows ∧ (s.retire sid).sidToIdx = s.sidToIdx ∧
      (s.retire sid).deleted.length = s.deleted.length := by
  unfold State.retire
  split
  · exact ⟨rfl, rfl, rfl⟩
  · split
    · exact ⟨rfl, rfl, List.length_set⟩
    · exact ⟨rfl, rfl, rfl⟩

/-- Retiring a sid deletes its node. -/
lemma State.Indexed.live_retire (h : s.Indexed m) (sid sid' : Sid) (v : V) :
    (s.retire sid).Live i sid' v ↔ s.Live i sid' v ∧ sid' ≠ sid := by
  have hne : s.sidToIdx[sid]? ≠ some i → s.Live i sid' v → sid' ≠ sid := by
    intro hnot hlive heq
    subst heq
    exact hnot (h.newest i sid' v hlive)
  unfold State.retire
  cases hold : s.sidToIdx[sid]? with
  | none => exact ⟨fun hlive => ⟨hlive, hne (by simp [hold]) hlive⟩, And.left⟩
  | some old =>
    dsimp only
    by_cases hdel : s.deleted[old]? = some false
    · rw [if_pos hdel]
      by_cases hi : i = old
      · subst hi
        have hlt := (List.getElem?_eq_some_iff.mp hdel).1
        refine ⟨fun hlive => ?_, fun hlive => absurd ?_ hlive.2⟩
        · have hset := hlive.2
          rw [List.getElem?_set_self hlt] at hset
          cases hset
        · obtain ⟨v', hrow⟩ := h.lookup sid i hold
          exact (Prod.mk.inj (Option.some.inj (hlive.1.1.symm.trans hrow))).1
      · have hset : (s.deleted.set old true)[i]? = s.deleted[i]? :=
          List.getElem?_set_ne (Ne.symm hi)
        have hsame : ({ s with deleted := s.deleted.set old true, live := s.live - 1 } :
            State V).Live i sid' v ↔ s.Live i sid' v := and_congr_right' (by rw [hset])
        rw [hsame]
        refine ⟨fun hlive => ⟨hlive, hne ?_ hlive⟩, And.left⟩
        rw [hold]
        exact fun heq => hi (Option.some.inj heq).symm
    · rw [if_neg hdel]
      refine ⟨fun hlive => ⟨hlive, hne ?_ hlive⟩, And.left⟩
      rw [hold]
      exact fun heq => hdel (Option.some.inj heq ▸ hlive.2)

/-- Removing deletes an entry. -/
lemma State.Indexed.remove (h : s.Indexed m) (sid : Sid) :
    (s.remove sid).Indexed (m.erase sid) := by
  obtain ⟨hrows, hsid, hlen⟩ := retire_rows s sid
  have herase : ∀ sid', (m.erase sid)[sid']? = if sid = sid' then none else m[sid']? := by
    intro sid'
    rw [Std.ExtTreeMap.getElem?_erase]
    by_cases heq : sid = sid'
    · rw [if_pos heq, if_pos (by simp [heq])]
    · rw [if_neg heq, if_neg (by simp [heq])]
  have hmap : ∀ sid' v, (m.erase sid)[sid']? = some v ↔ ∃ i, s.Live i sid' v ∧ sid' ≠ sid :=
    fun sid' v => by
      rw [herase]
      by_cases heq : sid = sid'
      · rw [if_pos heq]
        exact ⟨nofun, fun ⟨i, _, hne⟩ => absurd heq.symm hne⟩
      · rw [if_neg heq, h.map]
        exact exists_congr fun i => ⟨fun hlive => ⟨hlive, fun h => heq h.symm⟩, And.left⟩
  unfold State.remove
  cases hold : s.sidToIdx[sid]? with
  | none =>
    refine ⟨h.length, h.lookup, h.newest, fun sid' v => (hmap sid' v).trans ?_⟩
    refine exists_congr fun i => ⟨And.left, fun hlive => ⟨hlive, ?_⟩⟩
    rintro rfl
    have hnewest := h.newest i sid' v hlive
    rw [hold] at hnewest
    cases hnewest
  | some old =>
    have hlive : ∀ i sid' v, ({ s.retire sid with sidToIdx := s.sidToIdx.erase sid } :
        State V).Live i sid' v ↔ s.Live i sid' v ∧ sid' ≠ sid :=
      fun i sid' v => h.live_retire sid sid' v
    refine ⟨?_, ?_, ?_, ?_⟩
    · exact hlen.trans (h.length.trans (congrArg List.length hrows.symm))
    · intro sid' i hi
      have hi' : s.sidToIdx[sid']? = some i := by
        dsimp only at hi
        rw [Std.ExtTreeMap.getElem?_erase] at hi
        split at hi
        · cases hi
        · exact hi
      obtain ⟨v, hv⟩ := h.lookup sid' i hi'
      exact ⟨v, hrows ▸ hv⟩
    · intro i sid' v hl
      obtain ⟨hold, hne⟩ := (hlive i sid' v).mp hl
      dsimp only
      rw [Std.ExtTreeMap.getElem?_erase, if_neg (by simp [hne.symm])]
      exact h.newest i sid' v hold
    · intro sid' v
      rw [hmap]
      exact exists_congr fun i => (hlive i sid' v).symm

variable [LinearOrder D]

/-- The live nodes after placing one. -/
lemma State.Indexed.live_place (dist : V → V → D) (i : ℕ) (h : s.Indexed m) (hwired : s.Wired)
    (sid sid' : Sid) (v v' : V) (level lists : ℕ) :
    (s.place dist sid v level lists).Live i sid' v' ↔
      s.Live i sid' v' ∧ sid' ≠ sid ∨ i = s.nodes.length ∧ sid' = sid ∧ v' = v := by
  obtain ⟨hrows, hdeleted, -, -⟩ := place_table dist hwired sid v level lists
  obtain ⟨hretired, -, hlen⟩ := retire_rows s sid
  have hlength : s.rows.length = s.nodes.length := List.length_map _
  rw [State.Live, hrows, hdeleted, List.getElem?_append, List.getElem?_append, hlen, h.length,
    hlength]
  by_cases hlt : i < s.nodes.length
  · rw [if_pos hlt, if_pos hlt, ← hretired]
    refine (h.live_retire sid sid' v').trans ⟨Or.inl, fun h => h.elim id fun h' => ?_⟩
    exact absurd h'.1 hlt.ne
  · have hnot : ¬(s.Live i sid' v' ∧ sid' ≠ sid) := fun hlive =>
      hlt (hlength ▸ (List.getElem?_eq_some_iff.mp hlive.1.1).1)
    rw [if_neg hlt, if_neg hlt]
    by_cases hi : i = s.nodes.length
    · subst hi
      rw [Nat.sub_self]
      simp only [List.getElem?_cons_zero, Option.some.injEq, Prod.mk.injEq, and_true, true_and]
      exact ⟨fun heq => Or.inr ⟨heq.1.symm, heq.2.symm⟩,
        fun h => h.elim (fun h' => absurd h' hnot) fun h' => ⟨h'.1.symm, h'.2.symm⟩⟩
    · have hout : ∀ {α : Type _} (a : α), [a][i - s.nodes.length]? = none := fun a =>
        List.getElem?_eq_none (by rw [List.length_singleton]; omega)
      rw [hout]
      exact ⟨nofun, fun h => h.elim (fun h' => absurd h' hnot) fun h' => absurd h'.1 hi⟩

/-- Placing a node adds or replaces an entry. -/
lemma State.Indexed.place (h : s.Indexed m) (hwired : s.Wired) (sid : Sid) (v : V)
    (level lists : ℕ) : (s.place dist sid v level lists).Indexed (m.insert sid v) := by
  obtain ⟨hrows, hdeleted, hsid, -⟩ := place_table dist hwired sid v level lists
  obtain ⟨-, hretired, hlen⟩ := retire_rows s sid
  have hlength : s.rows.length = s.nodes.length := List.length_map _
  have hlive := fun i sid' v' => h.live_place dist i hwired sid sid' v v' level lists
  refine ⟨?_, ?_, ?_, ?_⟩
  · rw [hdeleted, hrows, List.length_append, List.length_append, hlen, h.length]
    rfl
  · intro sid' i hi
    rw [hsid, hretired, OrderedMap.getElem?_insert_eq] at hi
    rw [hrows]
    split at hi
    · rename_i heq
      obtain rfl := Option.some.inj hi
      refine ⟨v, ?_⟩
      rw [← hlength, List.getElem?_concat_length, heq]
    · obtain ⟨v', hv'⟩ := h.lookup sid' i hi
      exact ⟨v', (List.getElem?_append_left (List.getElem?_eq_some_iff.mp hv').1).trans hv'⟩
  · intro i sid' v' hl
    rw [hsid, hretired, OrderedMap.getElem?_insert_eq]
    rcases (hlive i sid' v').mp hl with ⟨hold, hne⟩ | ⟨rfl, rfl, rfl⟩
    · rw [if_neg hne.symm]
      exact h.newest i sid' v' hold
    · rw [if_pos rfl]
  · intro sid' v'
    rw [OrderedMap.getElem?_insert_eq]
    by_cases heq : sid = sid'
    · rw [if_pos heq]
      constructor
      · intro hv
        exact ⟨_, (hlive _ sid' v').mpr (Or.inr ⟨rfl, heq.symm, (Option.some.inj hv).symm⟩)⟩
      · rintro ⟨i, hl⟩
        rcases (hlive i sid' v').mp hl with ⟨-, hne⟩ | ⟨-, -, rfl⟩
        · exact absurd heq.symm hne
        · rfl
    · rw [if_neg heq, h.map]
      refine exists_congr fun i => ((hlive i sid' v').trans ⟨fun h => h.elim And.left fun h' => ?_,
        fun hl => Or.inl ⟨hl, fun h' => heq h'.symm⟩⟩).symm
      exact absurd h'.2.1.symm heq

/-! ## Runs -/

/-- What holds of the index after any updates. -/
structure Built (cfg : HnswConfig) (ops : List (Op V)) (s : State V) : Prop where
  indexed : s.Indexed (exact ops)
  wired : s.Wired
  length : s.nodes.length = inserted ops
  config : s.cfg = cfg
  whole : (∀ level ∈ levels ops, Roomy level) → inserted ops ≤ cfg.m0 + 1 → s.Whole

lemma exact_concat (ops : List (Op V)) (op : Op V) :
    exact (ops ++ [op]) =
      match op with
      | .insert sid vector _ => (exact ops).insert sid vector
      | .remove sid => (exact ops).erase sid := by
  rw [exact, List.foldl_concat]
  cases op with
  | insert sid vector level => rfl
  | remove sid => rfl

/-- The index of some updates, in any build. -/
theorem built_of_build {overflowChecks : Bool} {cfg : HnswConfig} {ops : List (Op V)}
    (h : build dist overflowChecks cfg ops = some s) : Built cfg ops s := by
  induction ops using List.reverseRecOn generalizing s with
  | nil =>
    obtain rfl := Option.some.inj h
    refine ⟨⟨rfl, ?_, nofun, ?_⟩, ⟨?_, nofun, fun _ => rfl⟩, rfl, rfl, fun _ _ => ⟨nofun, nofun⟩⟩
    · intro sid i hi
      have hnone : (new V cfg).sidToIdx[sid]? = none := Std.ExtTreeMap.getElem?_empty
      exact absurd (hi.symm.trans hnone) (by simp)
    · intro sid v
      have hnone : (exact ([] : List (Op V)))[sid]? = none := Std.ExtTreeMap.getElem?_empty
      rw [hnone]
      exact ⟨nofun, fun ⟨i, hlive, _⟩ => absurd hlive nofun⟩
    · intro level x y hxy
      cases hxy
  | append_singleton ops op ih =>
    rw [build_concat, Option.bind_eq_some_iff] at h
    obtain ⟨t, ht, hop⟩ := h
    have hbuilt := ih ht
    have hcount : inserted (ops ++ [op]) = inserted ops + inserted [op] := List.countP_append
    rcases State.apply_eq_some_iff.mp hop with ⟨sid, v, level, lists, rfl, hlists, rfl⟩ |
      ⟨sid, rfl, rfl⟩
    · have hmore : inserted (ops ++ [Op.insert sid v level]) = inserted ops + 1 := hcount
      refine ⟨?_, hbuilt.wired.place sid v level.toNat lists, ?_, ?_, ?_⟩
      · rw [exact_concat]
        exact hbuilt.indexed.place hbuilt.wired sid v level.toNat lists
      · rw [hmore, ← hbuilt.length]
        exact length_place hbuilt.wired sid v level.toNat lists
      · exact (place_table dist hbuilt.wired sid v level.toNat lists).2.2.2.trans hbuilt.config
      · intro hroomy hle
        rw [hmore] at hle
        obtain ⟨hold, hlevel⟩ := forall_levels_concat.mp hroomy
        obtain rfl := Option.some.inj
          (hlists.symm.trans ((hlevel level rfl).listCount_eq overflowChecks))
        refine (hbuilt.whole hold (by omega)).place hbuilt.wired ?_ sid v level.toNat
          (Nat.succ_pos _)
        rw [hbuilt.length, hbuilt.config]
        omega
    · have hsame : inserted (ops ++ [Op.remove sid]) = inserted ops := hcount
      obtain ⟨hnodes, hentry, hcfg⟩ := remove_graph t sid
      refine ⟨?_, hbuilt.wired.of_nodes hnodes hentry, ?_, hcfg.trans hbuilt.config,
        ?_⟩
      · rw [exact_concat]
        exact hbuilt.indexed.remove sid
      · rw [hsame, ← hbuilt.length]
        exact congrArg List.length hnodes
      · intro hroomy hle
        rw [hsame] at hle
        exact (hbuilt.whole (forall_levels_concat.mp hroomy).1 hle).of_nodes hnodes

/-! ## Exhaustive searches -/

/-- The node is reached on the base layer from where the descent of a query ends. -/
def State.Reachable (dist : V → V → D) (s : State V) (q : V) (i : ℕ) : Prop :=
  ∃ ep, s.baseEntry dist q = some ep ∧ ReflTransGen (s.Edge 0) ep i

/-- The live nodes that a query reaches, as search results. -/
def State.reached (dist : V → V → D) (s : State V) (q : V) : Set (Candidate D) :=
  {c | ∃ i v, s.Live i c.sid v ∧ s.Reachable dist q i ∧ c.dist = dist q v}

/-- The live nodes that a beam as wide as the index finds, as search results, nearest first. -/
def State.found (dist : V → V → D) (s : State V) (q : V) (ep ef : ℕ) : List (Candidate D) :=
  let w := s.searchLayer dist q [ep] ef 0
  (w.filter fun c => s.deleted[c.idx]? = some false).filterMap fun c =>
    s.nodes[c.idx]?.map fun node => ⟨node.sid, c.dist⟩

omit [LinearOrder D] in
lemma take_filterMap_of_isSome {α β : Type*} {f : α → Option β} {l : List α}
    (h : ∀ a ∈ l, (f a).isSome) (k : ℕ) : (l.take k).filterMap f = (l.filterMap f).take k := by
  induction l generalizing k with
  | nil => simp
  | cons a l ih =>
    cases k with
    | zero => simp
    | succ k =>
      obtain ⟨b, hb⟩ := Option.isSome_iff_exists.mp (h a List.mem_cons_self)
      rw [List.take_succ_cons, List.filterMap_cons, List.filterMap_cons, hb,
        ih fun a ha => h a (List.mem_cons_of_mem _ ha)]
      rfl

omit [LinearOrder D] in
/-- A result is a node with its sid and its distance. -/
lemma measured_iff {q : V} {c : DistIdx D} :
    s.Measured dist q c ↔ ∃ sid v, s.rows[c.idx]? = some (sid, v) ∧ c.dist = dist q v := by
  rw [State.Measured, State.distance, State.rows, List.getElem?_map]
  cases s.nodes[c.idx]? with
  | none => simp
  | some node =>
    simp only [Option.map_some, Option.some.injEq, Prod.mk.injEq]
    refine ⟨fun h => ⟨_, _, ⟨rfl, rfl⟩, h.symm⟩, ?_⟩
    rintro ⟨_, _, ⟨-, rfl⟩, h⟩
    exact h.symm

section Search

variable {q : V} {ep ef k : ℕ}

/-- The end of the descent is a node. -/
lemma State.Wired.baseEntry_lt (h : s.Wired) (hep : s.baseEntry dist q = some ep) :
    ep < s.nodes.length := by
  obtain ⟨e, he, rfl⟩ := Option.map_eq_some_iff.mp hep
  exact descend_lt h.linked le_rfl (h.entry_lt e he) _

/-- A result is a live node of the beam. -/
lemma mem_found {r : Candidate D} : r ∈ s.found dist q ep ef ↔
    ∃ i v, ⟨r.dist, i⟩ ∈ s.searchLayer dist q [ep] ef 0 ∧ s.Live i r.sid v := by
  rw [State.found, List.mem_filterMap]
  constructor
  · rintro ⟨c, hc, hr⟩
    obtain ⟨hin, hdel⟩ := List.mem_filter.mp hc
    obtain ⟨node, hnode, rfl⟩ := Option.map_eq_some_iff.mp hr
    refine ⟨c.idx, node.vector, hin, ?_, of_decide_eq_true hdel⟩
    rw [State.rows, List.getElem?_map, hnode]
    rfl
  · rintro ⟨i, v, hin, hlive⟩
    refine ⟨_, List.mem_filter.mpr ⟨hin, decide_eq_true hlive.2⟩, ?_⟩
    have hrow := hlive.1
    rw [State.rows, List.getElem?_map] at hrow
    obtain ⟨node, hnode, heq⟩ := Option.map_eq_some_iff.mp hrow
    rw [hnode]
    exact congrArg (fun sid => some (⟨sid, r.dist⟩ : Candidate D)) (Prod.mk.inj heq).1

/-- What a beam of any width finds: live nodes that are reached, nearest first, no sid twice. -/
lemma State.Indexed.found_sound (dist : V → V → D) (q : V) (ef : ℕ) (h : s.Indexed m)
    (hwired : s.Wired) (hep : s.baseEntry dist q = some ep) :
    ((s.found dist q ep ef).Pairwise fun a b => a.dist ≤ b.dist) ∧
      ((s.found dist q ep ef).map Candidate.sid).Nodup ∧
      ∀ r ∈ s.found dist q ep ef, r ∈ s.reached dist q := by
  have hlt := hwired.baseEntry_lt hep
  obtain ⟨hsorted, honce, -⟩ := searchLayer_full hwired.linked hlt dist q ef 0
  refine ⟨?_, List.pairwise_map.mpr ?_, fun r hr => ?_⟩
  · refine List.Pairwise.filterMap _ ?_ (hsorted.filter _)
    intro c c' hle r hr r' hr'
    obtain ⟨node, -, rfl⟩ := Option.map_eq_some_iff.mp hr
    obtain ⟨node', -, rfl⟩ := Option.map_eq_some_iff.mp hr'
    exact DistIdx.dist_le hle
  · -- two live nodes of one sid are the same node
    refine List.Pairwise.filterMap _ ?_ (((List.pairwise_map.mp honce).filter _).imp_of_mem
      (S := fun c c' => c.idx ≠ c'.idx ∧ s.deleted[c.idx]? = some false ∧
        s.deleted[c'.idx]? = some false) fun hc hc' hne => ?_)
    · rintro c c' ⟨hne, hdel, hdel'⟩ r hr r' hr' heq
      obtain ⟨node, hnode, rfl⟩ := Option.map_eq_some_iff.mp hr
      obtain ⟨node', hnode', rfl⟩ := Option.map_eq_some_iff.mp hr'
      have hlive : s.Live c.idx node.sid node.vector := ⟨by
        rw [State.rows, List.getElem?_map, hnode]
        rfl, hdel⟩
      have hlive' : s.Live c'.idx node'.sid node'.vector := ⟨by
        rw [State.rows, List.getElem?_map, hnode']
        rfl, hdel'⟩
      have hsame : node.sid = node'.sid := heq
      rw [← hsame] at hlive'
      exact hne (Option.some.inj ((h.newest _ _ _ hlive).symm.trans (h.newest _ _ _ hlive')))
    · exact ⟨hne, of_decide_eq_true (List.mem_filter.mp hc).2,
        of_decide_eq_true (List.mem_filter.mp hc').2⟩
  · obtain ⟨i, v, hin, hlive⟩ := mem_found.mp hr
    obtain ⟨hreach, hmeasured⟩ := reaches_of_mem_searchLayer hlt hin
    obtain ⟨sid, v', hrow, hv'⟩ := measured_iff.mp hmeasured
    obtain ⟨-, rfl⟩ := Prod.mk.inj (Option.some.inj (hrow.symm.trans hlive.1))
    exact ⟨i, v', hlive, ⟨ep, hep, hreach⟩, hv'⟩

/-- What an exhaustive search finds. -/
lemma State.Indexed.found (h : s.Indexed m) (hwired : s.Wired) (hep : s.baseEntry dist q = some ep)
    (hef : s.nodes.length ≤ ef) :
    ((s.found dist q ep ef).Pairwise fun a b => a.dist ≤ b.dist) ∧ (s.found dist q ep ef).Nodup ∧
      ∀ c, c ∈ s.found dist q ep ef ↔ c ∈ s.reached dist q := by
  obtain ⟨-, -, hmem⟩ := searchLayer_exhaustive hwired.linked (hwired.baseEntry_lt hep) hef dist q 0
  obtain ⟨hsorted, hnodup, hsound⟩ := h.found_sound dist q ef hwired hep
  refine ⟨hsorted, hnodup.of_map _, fun r => ⟨hsound r, ?_⟩⟩
  rintro ⟨i, v, hlive, ⟨ep', hep', hreach⟩, hdist⟩
  obtain rfl := Option.some.inj (hep.symm.trans hep')
  exact mem_found.mpr ⟨i, v, (hmem _).mpr ⟨hreach, measured_iff.mpr ⟨r.sid, v, hlive.1, hdist⟩⟩,
    hlive⟩

/-- An index without an entry point finds nothing. -/
lemma search_of_none (hep : s.baseEntry dist q = none) (k ef : ℕ) :
    s.search dist q k ef = [] := by
  unfold State.search
  rw [hep]

/-- A search takes the first of what it finds. -/
lemma search_eq (hwired : s.Wired) (hep : s.baseEntry dist q = some ep) (k ef : ℕ) :
    s.search dist q k ef = (s.found dist q ep (max ef k)).take k := by
  unfold State.search
  rw [hep]
  dsimp only
  refine take_filterMap_of_isSome (fun c hc => ?_) k
  have hmeasured := (reaches_of_mem_searchLayer (hwired.baseEntry_lt hep)
    (List.mem_filter.mp hc).1).2
  rw [Option.isSome_map, List.getElem?_eq_getElem (State.lt_of_measured hmeasured)]
  rfl

end Search

/-! ## Against the exact index -/

section Exact

variable {q : V} {ep ef k : ℕ} {iter : VectorMap V → List (Sid × V)}

/-- A search is the first of the reached nodes. -/
lemma State.Indexed.search (dist : V → V → D) (q : V) (k : ℕ) (h : s.Indexed m)
    (hwired : s.Wired) (hef : s.nodes.length ≤ ef) :
    ∃ found : List (Candidate D), s.search dist q k ef = found.take k ∧
      (found.Pairwise fun a b => a.dist ≤ b.dist) ∧ found.Nodup ∧
        ∀ c, c ∈ found ↔ c ∈ s.reached dist q := by
  cases hbase : s.baseEntry dist q with
  | none =>
    refine ⟨[], ?_, List.Pairwise.nil, List.nodup_nil, fun c => ⟨nofun, ?_⟩⟩
    · rw [search_of_none hbase, List.take_nil]
    · rintro ⟨i, v, -, ⟨ep, hep, -⟩, -⟩
      rw [hbase] at hep
      cases hep
  | some ep =>
    exact ⟨_, search_eq hwired hbase k ef,
      h.found hwired hbase (hef.trans (le_max_left ef k))⟩

/-- On a whole base layer every node is reached from every other. -/
lemma State.Whole.reaches (h : s.Whole) {e : ℕ} (he : e < s.nodes.length)
    (hlive : s.Live i sid v) : ReflTransGen (s.Edge 0) e i := by
  refine h.connected e he i ?_
  have hlt := (List.getElem?_eq_some_iff.mp hlive.1).1
  rwa [State.rows, List.length_map] at hlt

/-- On a whole base layer a query reaches all entries. -/
lemma State.Whole.mem_reached (hwhole : s.Whole) (h : s.Indexed m) (hwired : s.Wired)
    {c : Candidate D} :
    c ∈ s.reached dist q ↔ ∃ v, m[c.sid]? = some v ∧ c.dist = dist q v := by
  constructor
  · rintro ⟨i, v, hlive, -, hdist⟩
    exact ⟨v, (h.map _ _).mpr ⟨i, hlive⟩, hdist⟩
  · rintro ⟨v, hv, hdist⟩
    obtain ⟨i, hlive⟩ := (h.map _ _).mp hv
    refine ⟨i, v, hlive, ?_, hdist⟩
    cases he : s.entry with
    | none =>
      have hrow := hlive.1
      rw [State.rows, hwired.nodes_of_none he] at hrow
      cases hrow
    | some e =>
      have hbase : s.baseEntry dist q =
          some (s.descend dist q e (List.range' 1 s.maxLevel).reverse) := by
        rw [State.baseEntry, he, Option.map_some]
      exact ⟨_, hbase, hwhole.reaches (hwired.baseEntry_lt hbase) hlive⟩

/-- What an exhaustive search returns.  Take any tunables, any sequence of inserts, with any levels
that leave room for their lists, and removals, and a beam that is at least as wide as there were
inserts.  There is an index, in any build, and a search returns the `k` nearest of the live nodes
that the base layer reaches from the node where the descent ends.  If at most `m0 + 1` nodes were
inserted, the base layer reaches every live node from the entry point, and the distances returned
are those of the exact index. -/
theorem search_exhaustive (dist : V → V → D) (overflowChecks : Bool) (cfg : HnswConfig)
    (ops : List (Op V)) (hroomy : ∀ level ∈ levels ops, Roomy level) (q : V) (k : ℕ)
    (hef : inserted ops ≤ ef) (hiter : ∀ m, (iter m).Perm m.toList) :
    ∃ s, build dist overflowChecks cfg ops = some s ∧
      Ranking.Nearest Candidate.dist (s.reached dist q) k (s.search dist q k ef) ∧
      (inserted ops ≤ cfg.m0 + 1 →
        (∀ e, s.entry = some e → ∀ i sid v, s.Live i sid v → ReflTransGen (s.Edge 0) e i) ∧
        (s.search dist q k ef).map Candidate.dist =
          ((BruteForceIndex.search iter dist).search (exact ops) q k ef).map Candidate.dist) := by
  obtain ⟨s, hs⟩ := exists_build dist overflowChecks cfg hroomy
  have hbuilt := built_of_build hs
  obtain ⟨found, hsearch, hsorted, hnodup, hmem⟩ := hbuilt.indexed.search dist q k
    hbuilt.wired (hbuilt.length.trans_le hef)
  refine ⟨s, hs, ?_⟩
  rw [hsearch]
  refine ⟨Ranking.nearest_take hsorted hnodup hmem, ?_⟩
  intro hfew
  have hwhole := hbuilt.whole hroomy hfew
  refine ⟨?_, ?_⟩
  · intro e he i sid v hlive
    exact hwhole.reaches (hbuilt.wired.entry_lt e he) hlive
  · refine Ranking.map_take_congr hsorted BruteForceIndex.pairwise_ranked hnodup ?_ (fun c => ?_) k
    · exact (BruteForceIndex.pairwise_sid_ranked dist q (hiter _)).imp fun hne heq =>
        hne (congrArg Candidate.sid heq)
    · rw [hmem, hwhole.mem_reached hbuilt.indexed hbuilt.wired,
        BruteForceIndex.mem_ranked (hiter _)]

end Exact

namespace OutlierExample

/-- Squared Euclidean distance. -/
def l2Sq (a b : List ℤ) : ℤ := ((a.zipWith (· - ·) b).map fun d => d * d).sum

/-- Vectors at 0, at 10 and at 1, all on the base layer only. -/
def line : List (Op (List ℤ)) := [.insert 1 [0] 0, .insert 2 [10] 0, .insert 3 [1] 0]

/-- The distances that a search finds after some updates. -/
def found (cfg : HnswConfig) (ops : List (Op (List ℤ))) (q : List ℤ) (k ef : ℕ) :
    Option (List ℤ) :=
  (build l2Sq true cfg ops).map fun s => (s.search l2Sq q k ef).map Candidate.dist

end OutlierExample

open OutlierExample in
/-- The node at 0 keeps one link only.  It drops the one to 10 when 1 is inserted, and nothing leads
to 10 any more. -/
theorem outlier_lost :
    ∃ s, build l2Sq true ⟨2, 1, 200⟩ line = some s ∧ inserted line ≤ 3 ∧
      ¬((s.search l2Sq [10] 3 3).map Candidate.dist).Perm
        (((BruteForceIndex.search Std.ExtTreeMap.toList l2Sq).search (exact line) [10] 3 3).map
          Candidate.dist) := by
  have happrox : found ⟨2, 1, 200⟩ line [10] 3 3 = some [81, 100] := by
    decide +kernel
  have hexact : ((BruteForceIndex.search Std.ExtTreeMap.toList l2Sq).search (exact line) [10] 3
      3).map Candidate.dist = [0, 81, 100] := by
    decide +kernel
  obtain ⟨s, hs, hfound⟩ := Option.map_eq_some_iff.mp happrox
  refine ⟨s, hs, by decide, ?_⟩
  rw [hfound, hexact]
  decide

namespace OutlierExample

lemma roomy_line : ∀ level ∈ levels line, Roomy level := by
  simp [line, levels, Op.level?, Roomy, isizeMax]

end OutlierExample

open OutlierExample in
/-- With room for two links the same three vectors are all found. -/
theorem search_exhaustive_line :
    ∃ s, build l2Sq true ⟨2, 2, 200⟩ line = some s ∧
      (s.search l2Sq [10] 3 3).map Candidate.dist =
        ((BruteForceIndex.search Std.ExtTreeMap.toList l2Sq).search (exact line) [10] 3 3).map
          Candidate.dist := by
  obtain ⟨s, hs, -, hexact⟩ := search_exhaustive l2Sq true ⟨2, 2, 200⟩ line
    roomy_line [10] 3 (by decide : inserted line ≤ 3) fun _ => List.Perm.refl _
  exact ⟨s, hs, (hexact (by decide)).2⟩

end Hnsw

end GrainStore
